/-
  Value engine — texts are depictions.

  The path of objects under way is threaded through the whole of a rendering: each
  object is pushed before its parts are shown and popped afterwards. So it is, at each
  occurrence, the list of the ancestors, and what is shown is the depiction.

  * `render_eq_depict`: rendering gives the depiction and puts the path back.
  * `textOf_eq_depict`, `text_eq_depict`: so does the text of an object that is lent, and
    that of a reference.
  * `text_depicts`: the text of a reference, and what the depiction looks like.
-/
import Mathlib.Tactic.IntervalCases
import ValueEngine.Proofs.Reading.Counting
import ValueEngine.Proofs.Reading.Looking
import ValueEngine.Proofs.Rendering.Depiction
import ValueEngine.Rendering

namespace ValueEngine

variable {σ : Type} {w : World σ} {path : List ObjId}

/-! ## Parts -/

/-- A rendering that gives a text, puts the path back and changes nothing. -/
def Renders {α : Type} (x : Rendering σ α) (path : List ObjId) (w : World σ) (a : α) : Prop :=
  x path w = .ok (a, path) w

theorem Renders.pure {α : Type} (a : α) : Renders (Pure.pure a) path w a := rfl

theorem Renders.pure_of_eq {α : Type} {a b : α} (h : a = b) :
    Renders (Pure.pure a) path w b := h ▸ .pure a

theorem Renders.bind {α β : Type} {x : Rendering σ α} {f : α → Rendering σ β} {a : α} {b : β}
    (hx : Renders x path w a) (hf : Renders (f a) path w b) : Renders (x >>= f) path w b :=
  (Action.bind_of_ok hx fun p => f p.1 p.2).trans hf

theorem Renders.mapM {α β : Type} {x : α → Rendering σ β} {f : α → β} {xs : List α}
    (hx : ∀ a ∈ xs, Renders (x a) path w (f a)) : Renders (xs.mapM x) path w (xs.map f) := by
  induction xs with
  | nil => exact .pure _
  | cons a xs ih =>
    rw [List.mapM_cons]
    refine .bind (hx a List.mem_cons_self) (.bind (ih fun b hb => ?_) (.pure _))
    exact hx b (List.mem_cons_of_mem a hb)

namespace Payload

open Bytes

/-- The text of a slice says its three bounds, with colons in between. -/
theorem slice_text (b : SliceBounds) (f : Ref → Bytes) :
    ofString "<slice " ++ quoted b.text ++ ofString ">" = (slice b).layout f := by
  have hbound : SliceBounds.boundText = bound := by
    funext v
    cases v <;> rfl
  simp [SliceBounds.text, quoted, layout, hbound, joinWith, ofString]

/-- A payload whose parts give texts gives its layout over them. -/
theorem renders {p : Payload} {part : Ref → Rendering σ Bytes} {f : Ref → Bytes}
    (hpart : ∀ r ∈ p.slots, Renders (part r) path w (f r))
    (hordered : ∀ entries, p = .dict entries → entries.Ascending) :
    Renders (p.render part) path w (p.layout f) := by
  cases p with
  | list elements => exact .bind (.mapM hpart) (.pure _)
  | tuple elements => exact .bind (.mapM hpart) (.pure _)
  | dict entries =>
    have hentry : ∀ e ∈ entries, Renders (do return quoted e.1 ++ ofString ": " ++ (← part e.2))
        path w (ofString "'" ++ e.1 ++ ofString "': " ++ f e.2) := by
      intro e he
      refine .bind (hpart e.2 (List.mem_map_of_mem he)) (.pure_of_eq ?_)
      simp [quoted, ofString]
    simp only [layout, Table.byKey_eq_self (hordered entries rfl)]
    exact .bind (.mapM hentry) (.pure _)
  | iterator cursor => exact .bind (hpart cursor.target (by simp [slots])) (.pure _)
  | slice b => exact .pure_of_eq (slice_text b f)
  | boolean value => cases value <;> rfl
  | nameError name | moduleObject name | classObject name =>
    exact .pure_of_eq (by simp [layout, quoted, ofString])
  | _ => exact .pure _

end Payload

/-! ## Objects -/

/-- The ellipsis of an object that holds objects is the one of its kind. -/
theorem Kind.ellipsis_eq_inner {k : Kind}
    (h : k = .list ∨ k = .tuple ∨ k = .dict ∨ k = .iterator) : k.ellipsis = k.inner := by
  obtain rfl | rfl | rfl | rfl := h <;> rfl

namespace Heap

variable {h : Heap} {root i : ObjId} {o : Object} {shut : ObjId → Prop}

/-- There are no more objects on a path than there are objects. -/
theorem length_path_le (hnodup : path.Nodup) (hlive : ∀ j ∈ path, (h.contents j).isSome) :
    path.length ≤ h.size := by
  have hn : ∀ i a, h.contents i = some a → i.index < h.size := fun _ _ => lt_size_of_contents
  calc path.length ≤ h.contents.live.ncard :=
        length_le_ncard (Contents.finite_live hn) hnodup hlive
    _ ≤ h.size := Contents.ncard_live_le hn

/-- **Rendering gives the depiction** and puts the path back, where the slots of all that is
    reached can be lent. The path is the list of the ancestors of an occurrence that is met
    from the root on. -/
theorem render_eq_depict (ho : h.contents.Ordered)
    (hlends : ∀ k, Relation.ReflTransGen h.contents.Holds root k → h.contents.Lends shut k)
    (depth : Nat) (hw : w.Looks h.contents shut) (hi : h.contents i = some o.payload)
    (hmet : h.contents.Met root path i) (hnodup : path.Nodup)
    (hlive : ∀ j ∈ path, (h.contents j).isSome) (hdepth : h.size < depth + path.length) :
    Renders (render depth i o) path w (h.depict path i) := by
  induction depth generalizing i o path w with
  | zero =>
    have := length_path_le hnodup hlive
    omega
  | succ depth ih =>
    simp only [Renders, render]
    split
    · rename_i hmem
      have hkind : o.kind.ellipsis = o.kind.inner :=
        Kind.ellipsis_eq_inner (Contents.kind_of_met hmet hmem hi)
      rw [depict_of_mem hi hmem, hkind]
      rfl
    rename_i hmem
    rw [depict_of_not_mem hi hmem]
    have hpart : ∀ r ∈ o.payload.slots, Renders
        (fun path => withRead r fun j p => render depth j p path) (i :: path) w
        (h.depictRef (i :: path) r) := by
      intro r hr
      obtain ⟨j, rfl, hlive', hopen⟩ := hlends i hmet.reachable _ hi r hr
      obtain ⟨b, hj⟩ := Option.isSome_iff_exists.1 hlive'
      obtain ⟨p, w₁, rfl, hw₁, hread⟩ := hw.withRead_still hj hopen
      -- one more object is under way, so one level less is enough
      have hchild := ih hw₁ hj (.slot hmet hmem ⟨_, hi, hr⟩) (List.nodup_cons.2 ⟨hmem, hnodup⟩)
        (by simpa [hi] using hlive) (by simp; omega)
      exact (hread fun j p => render depth j p (i :: path)).1 _ hchild
    have hfull := Payload.renders hpart fun entries he => ho i entries (by rw [hi, he])
    exact Action.bind_of_ok hfull _

/-- The text of an object that is lent is its depiction. -/
theorem textOf_eq_depict (ho : w.heap.contents.Ordered) (hw : w.Looks w.heap.contents shut)
    (hlends : ∀ k, Relation.ReflTransGen w.heap.contents.Holds i k →
      w.heap.contents.Lends shut k)
    (hi : w.heap.contents i = some o.payload) : textOf i o w = .ok (w.heap.depict [] i) w := by
  have hrender := render_eq_depict ho hlends (w.heap.size + 1) hw hi .root .nil (by simp)
    (by simp)
  have hheap : (Action.heap : Action σ Heap) w = .ok w.heap w := rfl
  rw [textOf, Action.bind_of_ok hheap]
  exact Action.bind_of_ok hrender _

end Heap

/-! ## References -/

/-- The text of an object that readers can have is its depiction, where the slots of all
    that is reached can be lent. -/
theorem text_eq_depict {i : ObjId} {shut : ObjId → Prop} (ho : w.heap.contents.Ordered)
    (hw : w.Looks w.heap.contents shut)
    (hlends : ∀ k, Relation.ReflTransGen w.heap.contents.Holds i k →
      w.heap.contents.Lends shut k)
    (hi : (w.heap.contents i).isSome) (hopen : ¬shut i) :
    Ref.text (some i) w = .ok (w.heap.depict [] i) w := by
  obtain ⟨a, ha⟩ := Option.isSome_iff_exists.1 hi
  obtain ⟨o, w₁, rfl, hw₁, hread⟩ := hw.withRead_still ha hopen
  have hsame := hw₁.contents
  rw [← hsame] at ho hlends ha hw₁
  have htext := Heap.textOf_eq_depict ho hw₁ hlends ha
  have hrun : Ref.text (some i) w = withRead (some i) textOf w := rfl
  rw [hrun, (hread textOf).1 _ htext, Heap.depict_congr hsame]

/-- **Texts are depictions.** In a world without null slots where no object is lent for
    writing, the text of an object is its depiction, and nothing is changed. There, what
    is met inside itself is a list, an iterator, a tuple or a dictionary, and shows as
    the ellipsis of its kind; any other occurrence shows in full, whether or not it was
    met on another branch. And where nothing that is reached lies on a circle, the text
    is the only plain one. -/
theorem text_depicts {w : World σ} {i : ObjId} (hc : w.heap.contents.Filled)
    (ho : w.heap.contents.Ordered) (hu : w.heap.Unwritten) (hi : (w.heap.contents i).isSome) :
    Ref.text (some i) w = .ok (w.heap.depict [] i) w ∧
    (∀ ancestors j a, w.heap.contents.Met i ancestors j → w.heap.contents j = some a →
      (j ∈ ancestors →
        a.kind = .list ∧ w.heap.depict ancestors j = .ofString "[...]" ∨
        a.kind = .iterator ∧ w.heap.depict ancestors j = .ofString "<iter ...>" ∨
        (a.kind = .tuple ∨ a.kind = .dict) ∧
          w.heap.depict ancestors j = .ofString "\x7b...\x7d") ∧
      (j ∉ ancestors →
        w.heap.depict ancestors j = a.layout (w.heap.depictRef (j :: ancestors)))) ∧
    ((∀ j, Relation.ReflTransGen w.heap.contents.Holds i j →
        ¬Relation.TransGen w.heap.contents.Holds j j) →
      ∀ text, w.heap.contents.Plain i text ↔ text = w.heap.depict [] i) := by
  have hw : w.Shows w.heap.contents := ⟨rfl, hu⟩
  refine ⟨text_eq_depict ho hw.looks (fun k _ => hc.lends k) hi id,
    fun ancestors j a hmet ha => ⟨fun hj => ?_, fun hj => ?_⟩,
    fun hacyclic text => ?_⟩
  · rw [Heap.depict_of_mem ha hj]
    obtain hk | hk | hk | hk := Contents.kind_of_met hmet hj ha
    · exact .inl ⟨hk, by rw [hk]; rfl⟩
    · exact .inr (.inr ⟨.inl hk, by rw [hk]; rfl⟩)
    · exact .inr (.inr ⟨.inr hk, by rw [hk]; rfl⟩)
    · exact .inr (.inl ⟨hk, by rw [hk]; rfl⟩)
  · exact Heap.depict_of_not_mem ha hj
  · have hplain := Heap.plain_depict hc hacyclic .root hi
    exact ⟨fun h => h.unique hplain, fun h => h ▸ hplain⟩

/-- A list that holds itself and a dictionary twice, which holds the list; and a tuple
    that holds an iterator twice, over another list. -/
def knotted : World Unit where
  heap := ⟨#[some { payload := .list [some ⟨0⟩, some ⟨1⟩, some ⟨1⟩], type := none },
    some { payload := .dict [([97], some ⟨2⟩), ([98], some ⟨0⟩)], type := none },
    some { payload := .integer 7, type := none },
    some { payload := .list [some ⟨2⟩], type := none },
    some { payload := .iterator { target := some ⟨3⟩ }, type := none },
    some { payload := .tuple [some ⟨4⟩, some ⟨2⟩, some ⟨4⟩], type := none }]⟩
  host := ()

theorem filled_knotted : knotted.heap.contents.Filled := Heap.filled_of_cells (by decide)

theorem ordered_knotted : knotted.heap.contents.Ordered :=
  Heap.ordered_of_cells (by decide)

theorem unwritten_knotted : knotted.heap.Unwritten := Heap.unwritten_of_cells (by decide)

/-- From the tuple on, objects hold older ones only. -/
theorem acyclic_knotted (j : ObjId)
    (hj : Relation.ReflTransGen knotted.heap.contents.Holds ⟨5⟩ j) :
    ¬Relation.TransGen knotted.heap.contents.Holds j j := by
  have hstep : ∀ i j : ObjId, 2 ≤ i.index → knotted.heap.contents.Holds i j →
      2 ≤ j.index ∧ j.index < i.index := by
    rintro ⟨n⟩ j hn ⟨a, ha, hslot⟩
    have hlt : n < 6 := Heap.lt_size_of_contents ha
    dsimp only at hn
    interval_cases n <;> cases ha <;> simp [Payload.slots] at hslot
    · subst hslot; decide
    · subst hslot; decide
    · obtain rfl | rfl | rfl := hslot <;> decide
  have hfrom : 2 ≤ j.index := by
    induction hj with
    | refl => decide
    | tail _ hk ih => exact (hstep _ _ ih hk).1
  have holder : ∀ k, Relation.TransGen knotted.heap.contents.Holds j k →
      2 ≤ k.index ∧ k.index < j.index := by
    intro k hk
    induction hk with
    | single h => exact hstep _ _ hfrom h
    | tail _ h ih => exact ⟨(hstep _ _ ih.1 h).1, (hstep _ _ ih.1 h).2.trans ih.2⟩
  exact fun h => Nat.lt_irrefl _ (holder j h).2

/-- The list shows an ellipsis for itself and the dictionary in full each time; the text
    of the tuple is plain. -/
theorem text_depicts_knotted :
    knotted.heap.depict [] ⟨0⟩ =
      .ofString "[[...], \x7b'a': 7, 'b': [...]\x7d, \x7b'a': 7, 'b': [...]\x7d]" ∧
    knotted.heap.contents.Plain ⟨5⟩
      (.ofString "\x7b<iter pos 0 in [7]>, 7, <iter pos 0 in [7]>\x7d") := by
  obtain ⟨hknot, -⟩ :=
    text_depicts filled_knotted ordered_knotted unwritten_knotted (i := ⟨0⟩) rfl
  obtain ⟨htuple, -, hplain⟩ :=
    text_depicts filled_knotted ordered_knotted unwritten_knotted (i := ⟨5⟩) rfl
  have hrun : (Ref.text (some ⟨0⟩)).run' knotted = some (.ofString
      "[[...], \x7b'a': 7, 'b': [...]\x7d, \x7b'a': 7, 'b': [...]\x7d]") := by decide +kernel
  have hrun' : (Ref.text (some ⟨5⟩)).run' knotted = some (.ofString
      "\x7b<iter pos 0 in [7]>, 7, <iter pos 0 in [7]>\x7d") := by decide +kernel
  rw [Action.run'_of_ok hknot] at hrun
  rw [Action.run'_of_ok htuple] at hrun'
  exact ⟨Option.some.inj hrun, (hplain acyclic_knotted _).2 (Option.some.inj hrun').symm⟩

end ValueEngine
