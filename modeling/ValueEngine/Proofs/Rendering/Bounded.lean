/-
  Value engine — how deep a rendering goes.

  The objects on the path are those that enclose the present one, none of them twice, and
  all of them can be reached from the object whose text is wanted. So there are no more of
  them than can be reached, whatever circles the objects run in, whoever has lent them and
  whatever slots are null; and a depth of one more is never used up.

  * `render_leaves`: a rendering puts the path back and changes nothing, at every depth.
  * `Contents.objectsFrom`: the objects that can be reached from one.
  * `Contents.Path`: the objects that enclose others, none twice (`Path.length_le`).
  * `Onlooker`, `attended`: the rendering with someone who is told what encloses each object
    and what the path is.
  * `attended_matches`: he is told the same twice, and that the depth is used up never.
  * `rendering_bounded`: all of this, of any object.
-/
import ValueEngine.Proofs.Rendering.Likeness

namespace ValueEngine

variable {σ : Type} {w w' : World σ} {c : Contents} {shut : ObjId → Prop} {root i : ObjId}
  {o o' : Object} {path ancestors : List ObjId} {n : Nat}

/-! ## What is put back -/

/-- **A rendering puts the path back and changes nothing**, at every depth and whatever is
    on the path, and comes to the same in worlds that look the same. -/
theorem render_leaves (depth : Nat) (hw : w.Looks c shut) (hw' : w'.Looks c shut)
    (hsame : o'.payload = o.payload) :
    Matches (render depth i o) path w (render depth i o') path w' := by
  induction depth generalizing i o o' path w w' with
  | zero => exact .inr ⟨.unfinished, rfl, rfl⟩
  | succ depth ih =>
    refine render_step hsame .rfl fun _ r _ => ?_
    exact .withRead hw hw' (fun _ _ => ⟨rfl, .rfl⟩) fun _ _ _ _ _ _ hp hp' hv hv' => ih hv hv' hp'

/-! ## The objects that can be reached -/

namespace Contents

/-- The objects that can be reached from one through slots, itself included. -/
def objectsFrom (c : Contents) (root : ObjId) : Set ObjId :=
  {k | (c k).isSome ∧ Relation.ReflTransGen c.Holds root k}

/-- The objects that enclose what is shown at some time, innermost first: each of them is met
    below the others, and is not one of them. -/
inductive Path (c : Contents) (root : ObjId) : List ObjId → Prop
  | nil : Path c root []
  | cons {path : List ObjId} {i : ObjId} {a : Payload} :
      c.Met root path i → i ∉ path → c i = some a → Path c root (i :: path)

/-- The ancestors of what is met enclose it. -/
theorem Path.of_met (h : c.Met root ancestors i) : c.Path root ancestors := by
  cases h with
  | root => exact .nil
  | slot hmet hi hj =>
    obtain ⟨a, ha, -⟩ := hj
    exact .cons hmet hi ha

theorem Met.nodup (h : c.Met root ancestors i) : ancestors.Nodup := by
  induction h with
  | root => exact .nil
  | slot _ hi _ ih => exact ih.cons hi

theorem Met.subset (h : c.Met root ancestors i) : ∀ k ∈ ancestors, k ∈ c.objectsFrom root := by
  induction h with
  | root => exact nofun
  | slot hmet _ hj ih =>
    obtain ⟨a, ha, -⟩ := hj
    exact List.forall_mem_cons.2 ⟨⟨by rw [ha]; rfl, hmet.reachable⟩, ih⟩

theorem Path.nodup (h : c.Path root path) : path.Nodup := by
  cases h with
  | nil => exact .nil
  | cons hmet hi _ => exact hmet.nodup.cons hi

theorem Path.subset (h : c.Path root path) : ∀ k ∈ path, k ∈ c.objectsFrom root := by
  cases h with
  | nil => exact nofun
  | cons hmet _ ha => exact List.forall_mem_cons.2 ⟨⟨by rw [ha]; rfl, hmet.reachable⟩, hmet.subset⟩

section Finite

variable (hn : ∀ i a, c i = some a → i.index < n)
include hn

theorem finite_objectsFrom (root : ObjId) : (c.objectsFrom root).Finite :=
  (finite_live hn).subset fun _ hk => hk.1

/-- There are no more objects to be reached than there are objects. -/
theorem ncard_objectsFrom_le (root : ObjId) : (c.objectsFrom root).ncard ≤ n :=
  ncard_le_of_live hn fun _ hk => hk.1

/-- No more objects enclose one than can be reached. -/
theorem Path.length_le (h : c.Path root path) : path.length ≤ (c.objectsFrom root).ncard :=
  length_le_ncard (finite_objectsFrom hn root) h.nodup h.subset

end Finite

end Contents

/-! ## The onlooker -/

/-- Someone who looks on while objects are shown. -/
structure Onlooker (σ : Type) where
  /-- What he does when an object begins to be shown. He is told the objects that enclose it,
      innermost first, the object, and the path. -/
  begins : List ObjId → ObjId → List ObjId → Action σ Unit
  /-- What he does when an object has been put on the path or taken off. He is told the objects
      that enclose what is shown from now on, and the path. -/
  turns : List ObjId → List ObjId → Action σ Unit
  /-- What he does when the depth is used up. -/
  spent : Action σ (Bytes × List ObjId)

namespace Onlooker

/-- An onlooker who does nothing at all. -/
def idle : Onlooker σ where
  begins _ _ _ := pure ()
  turns _ _ := pure ()
  spent := Action.abort .unfinished

/-- An onlooker who does nothing about an object that is met from another one on while the path
    is its ancestors, nor about a path of objects that enclose others. What he does about all
    else is up to him. -/
structure Allows (onlooker : Onlooker σ) (c : Contents) (root : ObjId) : Prop where
  begins : ∀ ancestors i, c.Met root ancestors i → (c i).isSome →
    onlooker.begins ancestors i ancestors = pure ()
  turns : ∀ path, c.Path root path → onlooker.turns path path = pure ()

theorem idle_allows (c : Contents) (root : ObjId) : (idle : Onlooker σ).Allows c root :=
  ⟨fun _ _ _ _ => rfl, fun _ _ => rfl⟩

end Onlooker

/-- The text of an object, as `render` gives it, with an onlooker. The objects that enclose it
    are handed down by value. -/
def attended (onlooker : Onlooker σ) : Nat → List ObjId → ObjId → Object → Rendering σ Bytes
  | 0, _, _, _ => fun _ => onlooker.spent
  | depth + 1, enclosing, i, o => fun path => do
    onlooker.begins enclosing i path
    if i ∈ path then return (o.kind.ellipsis, path)
    else do
      onlooker.turns (i :: enclosing) (i :: path)
      let part := fun r path => withRead r fun j p =>
        attended onlooker depth (i :: enclosing) j p path
      let (text, path) ← o.payload.render part (i :: path)
      onlooker.turns enclosing path.tail
      return (text, path.tail)

/-- With an onlooker who does nothing it is the rendering. -/
theorem attended_idle (depth : Nat) (enclosing : List ObjId) (i : ObjId) (o : Object) :
    attended (σ := σ) .idle depth enclosing i o = render depth i o := by
  induction depth generalizing enclosing i o with
  | zero => rfl
  | succ depth ih =>
    funext path
    simp only [attended, render, ih]
    simp only [Onlooker.idle, pure_bind]

section Onlooker

variable {onlooker : Onlooker σ}

/-- An object is shown as it is without an onlooker if he does nothing about it and its parts
    are. -/
theorem attended_step {depth depth' : Nat} (hsame : o'.payload = o.payload)
    (hbegins : onlooker.begins path i path = pure ())
    (hpush : i ∉ path → onlooker.turns (i :: path) (i :: path) = pure ())
    (hpop : onlooker.turns path path = pure ())
    (hpart : i ∉ path → ∀ r ∈ o.payload.slots, Matches
      (fun path' => withRead r fun j p => attended onlooker depth (i :: path) j p path')
      (i :: path) w (fun path => withRead r fun j p => render depth' j p path) (i :: path) w') :
    Matches (attended onlooker (depth + 1) path i o) path w (render (depth' + 1) i o') path w' := by
  by_cases hunder : i ∈ path
  · have hkind : o'.kind = o.kind := congrArg Payload.kind hsame
    refine .inl ⟨o.kind.ellipsis, ?_, ?_⟩
    · simp only [attended, hbegins, pure_bind, if_pos hunder]
      rfl
    · simp only [render, if_pos hunder, hkind]
      rfl
  · refine (Payload.matches (hpart hunder)).imp ?_ ?_
    · rintro ⟨text, hrun, hrun'⟩
      refine ⟨text, ?_, ?_⟩
      · simp only [attended, hbegins, pure_bind, if_neg hunder, hpush hunder]
        refine (Action.bind_of_ok hrun _).trans ?_
        simp only [List.tail_cons, hpop, pure_bind]
        rfl
      · simp only [render, if_neg hunder, hsame]
        exact Action.bind_of_ok hrun' _
    · rintro ⟨e, hrun, hrun'⟩
      refine ⟨e, ?_, ?_⟩
      · simp only [attended, hbegins, pure_bind, if_neg hunder, hpush hunder]
        exact Action.bind_of_error hrun _
      · simp only [render, if_neg hunder, hsame]
        exact Action.bind_of_error hrun' _

/-- **The onlooker is told the same twice**, and that the depth is used up never. The induction
    is on the depth; what carries it is that the path is the list of the ancestors of an
    occurrence that is met from the root on. -/
theorem attended_matches (hn : ∀ i a, c i = some a → i.index < n)
    (hallows : onlooker.Allows c root) (depth depth' : Nat) (hw : w.Looks c shut)
    (hw' : w'.Looks c shut) (hi : c i = some o.payload) (hsame : o'.payload = o.payload)
    (hmet : c.Met root path i) (hdepth : (c.objectsFrom root).ncard < depth + path.length)
    (hdepth' : (c.objectsFrom root).ncard < depth' + path.length) :
    Matches (attended onlooker depth path i o) path w (render depth' i o') path w' := by
  induction depth generalizing depth' i o o' path w w' with
  | zero =>
    have hlength := (Contents.Path.of_met hmet).length_le hn
    omega
  | succ depth ih =>
    cases depth' with
    | zero =>
      have hlength := (Contents.Path.of_met hmet).length_le hn
      omega
    | succ depth' =>
      refine attended_step hsame (hallows.begins path i hmet (by rw [hi]; rfl))
        (fun hmem => hallows.turns _ (.cons hmet hmem hi)) (hallows.turns _ (.of_met hmet))
        fun hmem r hr => ?_
      refine .withRead hw hw' (fun _ _ => ⟨rfl, .rfl⟩) fun j p p' v v' hj hp hp' hv hv' => ?_
      subst hj
      exact ih depth' hv hv' hp hp' (.slot hmet hmem ⟨_, hi, hr⟩)
        (by rw [List.length_cons]; omega) (by rw [List.length_cons]; omega)

/-- The text of an object that is lent is what it is with an onlooker, at any depth that is
    beyond the number of objects that can be reached. -/
theorem textOf_eq_attended (hallows : onlooker.Allows w.heap.contents i)
    (hi : w.heap.contents i = some o.payload) {depth : Nat}
    (hdepth : (w.heap.contents.objectsFrom i).ncard + 1 ≤ depth) :
    textOf i o w = (do return (← attended onlooker depth [] i o []).1 : Action σ Bytes) w := by
  have hn : ∀ k p, w.heap.contents k = some p → k.index < w.heap.size :=
    fun _ _ => Heap.lt_size_of_contents
  have hsize := Contents.ncard_objectsFrom_le hn i
  have hmatches := attended_matches hn hallows depth (w.heap.size + 1) w.looks w.looks hi rfl .root
    (by rw [List.length_nil]; omega) (by rw [List.length_nil]; omega)
  have hheap : (Action.heap : Action σ Heap) w = .ok w.heap w := rfl
  rw [textOf, Action.bind_of_ok hheap]
  obtain ⟨text, hrun, hrun'⟩ | ⟨e, hrun, hrun'⟩ := hmatches
  · refine (Action.bind_of_ok hrun' _).trans (Eq.trans ?_ (Action.bind_of_ok hrun _).symm)
    rfl
  · exact (Action.bind_of_error hrun' _).trans (Action.bind_of_error hrun _).symm

end Onlooker

/-! ## The main result -/

/-- **Renderings are bounded**, in every world. Let an onlooker be told what encloses the present
    object and what the path is, whenever an object begins to be shown and whenever the path
    changes. One who does nothing about it leaves the rendering as it is. What he is told is
    twice the same list, of the objects in which the present one is met from the first one on,
    none of them twice. So the present one is never deeper than there are objects to be reached
    and one more: whatever else he would do about anything else, or about a depth that is used
    up, the text is as it is without him, or the rendering is left as it is without him. It is
    so at every depth that is as great as that, to which the depth makes no difference, so it is
    never used up. And at every depth whatever a rendering puts the path back, and changes
    nothing. -/
theorem rendering_bounded (w : World σ) (i : ObjId) :
    (∀ depth enclosing k p, attended (σ := σ) .idle depth enclosing k p = render depth k p) ∧
    (w.heap.contents.objectsFrom i).Finite ∧
    (∀ path, w.heap.contents.Path i path → path.Nodup ∧
      path.length ≤ (w.heap.contents.objectsFrom i).ncard) ∧
    (∀ ancestors k, w.heap.contents.Met i ancestors k → ancestors.Nodup ∧
      ancestors.length + 1 ≤ (w.heap.contents.objectsFrom i).ncard + 1) ∧
    (∀ onlooker : Onlooker σ, onlooker.Allows w.heap.contents i →
      ∀ depth, (w.heap.contents.objectsFrom i).ncard + 1 ≤ depth →
        (∀ o, w.heap.contents i = some o.payload →
          textOf i o w = (do return (← attended onlooker depth [] i o []).1 : Action σ Bytes) w) ∧
        Ref.text (some i) w = withRead (some i) (fun j p => do
          return (← attended onlooker depth [] j p []).1) w) ∧
    (∀ depth, (w.heap.contents.objectsFrom i).ncard + 1 ≤ depth →
      ∀ o, w.heap.contents i = some o.payload →
        textOf i o w = (do return (← render depth i o []).1 : Action σ Bytes) w) ∧
    ∀ depth k p path (v : World σ), (∃ text, render depth k p path v = .ok (text, path) v) ∨
      ∃ e, render depth k p path v = .error e v := by
  have hn : ∀ k p, w.heap.contents k = some p → k.index < w.heap.size :=
    fun _ _ => Heap.lt_size_of_contents
  refine ⟨attended_idle, Contents.finite_objectsFrom hn i,
    fun path h => ⟨h.nodup, h.length_le hn⟩, fun ancestors k h => ⟨h.nodup, ?_⟩,
    fun onlooker hallows depth hdepth => ⟨fun o ho => textOf_eq_attended hallows ho hdepth, ?_⟩,
    fun depth hdepth o ho => ?_, fun depth k p path v => ?_⟩
  · exact Nat.succ_le_succ ((Contents.Path.of_met h).length_le hn)
  · refine withRead_congr fun k p v hk hv hp => ?_
    cases hk
    rw [← hv] at hallows hdepth hp
    exact textOf_eq_attended hallows hp hdepth
  · rw [textOf_eq_attended (Onlooker.idle_allows _ i) ho hdepth, attended_idle]
  · have hleaves : Matches (render depth k p) path v (render depth k p) path v :=
      render_leaves depth v.looks v.looks rfl
    refine hleaves.imp ?_ ?_
    · rintro ⟨text, hrun, -⟩
      exact ⟨text, hrun⟩
    · rintro ⟨e, hrun, -⟩
      exact ⟨e, hrun⟩

/-- An iterator that is the only element of its target. -/
def selfIterator : World Unit where
  heap := ⟨#[some { payload := .list [some ⟨1⟩], type := none },
    some { payload := .iterator { target := some ⟨0⟩ }, type := none }]⟩
  host := ()

/-- An onlooker who puts up with nothing but a path of what encloses the present object, nothing
    on it twice, and two objects on it at most. -/
def Onlooker.strict : Onlooker Unit :=
  let insist (enclosing path : List ObjId) : Action Unit Unit :=
    if path = enclosing ∧ path.Nodup ∧ path.length ≤ 2 then pure () else Action.abort .nullReference
  { begins := fun enclosing _ path => insist enclosing path
    turns := insist
    spent := Action.abort .nullReference }

/-- About an iterator inside its own target he has nothing to object to, at a depth of three or
    more. -/
theorem rendering_bounded_selfIterator :
    (∀ depth, 3 ≤ depth → Ref.text (some ⟨1⟩) selfIterator =
      withRead (some ⟨1⟩) (fun j p => do
        return (← attended Onlooker.strict depth [] j p []).1) selfIterator) ∧
    Ref.text (some ⟨1⟩) selfIterator =
      .ok (.ofString "<iter pos 0 in [<iter ...>]>") selfIterator := by
  obtain ⟨-, -, hpath, hmet, hseen, -, -⟩ := rendering_bounded selfIterator ⟨1⟩
  have hcard : (selfIterator.heap.contents.objectsFrom ⟨1⟩).ncard ≤ 2 :=
    Contents.ncard_objectsFrom_le (fun _ _ => Heap.lt_size_of_contents) _
  have hallows : Onlooker.strict.Allows selfIterator.heap.contents ⟨1⟩ := by
    refine ⟨fun ancestors k h _ => ?_, fun path h => ?_⟩
    · obtain ⟨hnodup, hlength⟩ := hmet ancestors k h
      exact if_pos ⟨rfl, hnodup, by omega⟩
    · obtain ⟨hnodup, hlength⟩ := hpath path h
      exact if_pos ⟨rfl, hnodup, by omega⟩
  exact ⟨fun depth hdepth => (hseen _ hallows depth (by omega)).2, rfl⟩

end ValueEngine
