/-
  Value engine — objects with one text.

  The text of an object shows what it holds and what is behind that, and where an object
  comes back that is under way. So two objects that hold the same are told apart by their
  texts only if one of them comes back.

  * `Matches`: renderings in two worlds that come to the same.
  * `Payload.matches`, `render_step`: a payload matches itself if its parts do; so do objects
    that hold the same, below paths that both hold them or both do not.
  * `render_matches`: so do objects with the same behind them, below matching paths.
  * `Alike`: objects that hold the same, with the same behind them.
  * `Alike.text`: they come to one text, or to one conflict.
-/
import ValueEngine.Proofs.Reading.Looking
import ValueEngine.Proofs.Rendering.Text

namespace ValueEngine

variable {σ : Type}

/-! ## Parts -/

/-- Two renderings, each with its path and in its world, that give the same thing or are
    left for the same reason, and in any case change nothing. -/
def Matches {α : Type} (x : Rendering σ α) (path : List ObjId) (w : World σ) (x' : Rendering σ α)
    (path' : List ObjId) (w' : World σ) : Prop :=
  (∃ a, x path w = .ok (a, path) w ∧ x' path' w' = .ok (a, path') w') ∨
    ∃ e, x path w = .error e w ∧ x' path' w' = .error e w'

namespace Matches

variable {α β : Type} {path path' : List ObjId} {w w' : World σ}

theorem pure (a : α) : Matches (Pure.pure a : Rendering σ α) path w (Pure.pure a) path' w' :=
  .inl ⟨a, rfl, rfl⟩

theorem bind {x x' : Rendering σ α} {f f' : α → Rendering σ β} (hx : Matches x path w x' path' w')
    (hf : ∀ a, Matches (f a) path w (f' a) path' w') :
    Matches (x >>= f) path w (x' >>= f') path' w' := by
  obtain ⟨a, hrun, hrun'⟩ | ⟨e, hrun, hrun'⟩ := hx
  · have hbind : (x >>= f) path w = f a path w := Action.bind_of_ok hrun fun p => f p.1 p.2
    have hbind' : (x' >>= f') path' w' = f' a path' w' :=
      Action.bind_of_ok hrun' fun p => f' p.1 p.2
    rw [Matches, hbind, hbind']
    exact hf a
  · exact .inr ⟨e, Action.bind_of_error hrun _, Action.bind_of_error hrun' _⟩

theorem map {x x' : Rendering σ α} (hx : Matches x path w x' path' w') (g : α → β) :
    Matches (do return g (← x)) path w (do return g (← x')) path' w' :=
  hx.bind fun a => pure (g a)

theorem mapM {x x' : α → Rendering σ β} {xs : List α}
    (hx : ∀ a ∈ xs, Matches (x a) path w (x' a) path' w') :
    Matches (xs.mapM x) path w (xs.mapM x') path' w' := by
  induction xs with
  | nil => exact pure []
  | cons a xs ih =>
    rw [List.mapM_cons, List.mapM_cons]
    refine (hx a List.mem_cons_self).bind fun b => ?_
    exact (ih fun a ha => hx a (List.mem_cons_of_mem _ ha)).map (b :: ·)

/-- What is behind a reference matches if it is there and shut in both worlds or in none. -/
theorem withRead {c c' : Contents} {shut shut' : ObjId → Prop} {r : Ref}
    {body body' : ObjId → Object → Rendering σ α} (hw : w.Looks c shut) (hw' : w'.Looks c' shut')
    (hagree : ∀ j, r = some j → c' j = c j ∧ (shut' j ↔ shut j))
    (hb : ∀ j p p' v v', r = some j → c j = some p.payload → p'.payload = p.payload →
      v.Looks c shut → v'.Looks c' shut' → Matches (body j p) path v (body' j p') path' v') :
    Matches (fun path => ValueEngine.withRead r fun j p => body j p path) path w
      (fun path => ValueEngine.withRead r fun j p => body' j p path) path' w' := by
  cases hr : r.bind c with
  | none =>
    have hr' : r.bind c' = none := by
      cases r with
      | none => rfl
      | some j => exact (hagree j rfl).1.trans hr
    exact .inr ⟨_, hw.withRead_dead hr _, hw'.withRead_dead hr' _⟩
  | some b =>
    obtain ⟨j, rfl, hj⟩ := Option.bind_eq_some_iff.1 hr
    obtain ⟨hsame, hshut⟩ := hagree j rfl
    have hj' : c' j = some b := hsame.trans hj
    by_cases hopen : shut j
    · exact .inr ⟨_, hw.withRead_shut (by simp [hj]) hopen _,
        hw'.withRead_shut (by simp [hj']) (hshut.2 hopen) _⟩
    · obtain ⟨p, v, rfl, hv, hread⟩ := hw.withRead_still hj hopen
      obtain ⟨p', v', hp', hv', hread'⟩ := hw'.withRead_still hj' (mt hshut.1 hopen)
      obtain ⟨hok, herror⟩ := hread fun j p => body j p path
      obtain ⟨hok', herror'⟩ := hread' fun j p => body' j p path'
      refine (hb j p p' v v' rfl hj hp' hv hv').imp ?_ ?_
      · rintro ⟨a, hrun, hrun'⟩
        exact ⟨a, hok _ hrun, hok' _ hrun'⟩
      · rintro ⟨e, hrun, hrun'⟩
        exact ⟨e, herror _ hrun, herror' _ hrun'⟩

end Matches

/-- A payload matches itself if its parts do. -/
theorem Payload.matches {p : Payload} {part part' : Ref → Rendering σ Bytes}
    {path path' : List ObjId} {w w' : World σ}
    (hpart : ∀ r ∈ p.slots, Matches (part r) path w (part' r) path' w') :
    Matches (p.render part) path w (p.render part') path' w' := by
  cases p with
  | list elements => exact (Matches.mapM hpart).map _
  | tuple elements => exact (Matches.mapM hpart).map _
  | dict entries =>
    refine Matches.map (Matches.mapM fun e he => ?_) _
    exact (hpart e.2 (List.mem_map_of_mem he)).map _
  | iterator cursor => exact (hpart cursor.target (by simp [slots])).map _
  | _ => exact .pure _

/-! ## Objects -/

section Objects

variable {w w' : World σ} {h h' : Heap} {shut shut' : ObjId → Prop} {i i' : ObjId} {o o' : Object}
  {path path' : List ObjId}

/-- Objects that hold the same match if they are under way alike and their parts match below
    them. -/
theorem render_step {depth depth' : Nat} (hsame : o'.payload = o.payload)
    (hmem : i' ∈ path' ↔ i ∈ path)
    (hpart : i ∉ path → ∀ r ∈ o.payload.slots, Matches
      (fun path => withRead r fun j p => render depth j p path) (i :: path) w
      (fun path => withRead r fun j p => render depth' j p path) (i' :: path') w') :
    Matches (render (depth + 1) i o) path w (render (depth' + 1) i' o') path' w' := by
  by_cases hunder : i ∈ path
  · have hkind : o'.kind = o.kind := congrArg Payload.kind hsame
    refine .inl ⟨o.kind.ellipsis, ?_, ?_⟩
    · simp only [render, if_pos hunder]
      rfl
    · simp only [render, if_pos (hmem.2 hunder), hkind]
      rfl
  · have hunder' : i' ∉ path' := mt hmem.1 hunder
    refine (Payload.matches (hpart hunder)).imp ?_ ?_
    · rintro ⟨text, hrun, hrun'⟩
      refine ⟨text, ?_, ?_⟩
      · simp only [render, if_neg hunder]
        exact Action.bind_of_ok hrun _
      · simp only [render, if_neg hunder', hsame]
        exact Action.bind_of_ok hrun' _
    · rintro ⟨e, hrun, hrun'⟩
      refine ⟨e, ?_, ?_⟩
      · simp only [render, if_neg hunder]
        exact Action.bind_of_error hrun _
      · simp only [render, if_neg hunder', hsame]
        exact Action.bind_of_error hrun' _

/-- **Objects that hold the same match**, below paths that have the one just if they have the
    other, if all that is behind them is the same, and is shut and on the paths alike. -/
theorem render_matches (depth depth' : Nat) (hw : w.Looks h.contents shut)
    (hw' : w'.Looks h'.contents shut') (hi : h.contents i = some o.payload)
    (hi' : h'.contents i' = some o'.payload) (hsame : o'.payload = o.payload)
    (hmem : i' ∈ path' ↔ i ∈ path)
    (hagree : ∀ k, Relation.TransGen h.contents.Holds i k →
      h'.contents k = h.contents k ∧ (shut' k ↔ shut k) ∧ (k ∈ i' :: path' ↔ k ∈ i :: path))
    (hnodup : path.Nodup) (hnodup' : path'.Nodup) (hpath : ∀ j ∈ path, (h.contents j).isSome)
    (hpath' : ∀ j ∈ path', (h'.contents j).isSome) (hdepth : h.size < depth + path.length)
    (hdepth' : h'.size < depth' + path'.length) :
    Matches (render depth i o) path w (render depth' i' o') path' w' := by
  induction depth generalizing depth' i i' o o' path path' w w' with
  | zero =>
    have := Heap.length_path_le hnodup hpath
    omega
  | succ depth ih =>
    cases depth' with
    | zero =>
      have := Heap.length_path_le hnodup' hpath'
      omega
    | succ depth' =>
      refine render_step hsame hmem fun hunder r hr => ?_
      have hunder' : i' ∉ path' := mt hmem.1 hunder
      have hlive : ∀ j ∈ i :: path, (h.contents j).isSome := by simpa [hi] using hpath
      have hlive' : ∀ j ∈ i' :: path', (h'.contents j).isSome := by simpa [hi'] using hpath'
      have hreach : ∀ j, r = some j → Relation.TransGen h.contents.Holds i j := by
        rintro j rfl
        exact .single ⟨_, hi, hr⟩
      refine .withRead hw hw' (fun j hj => ?_) fun j p p' v v' hj hp hp' hv hv' => ?_
      · obtain ⟨hc, hshut, -⟩ := hagree j (hreach j hj)
        exact ⟨hc, hshut⟩
      · obtain ⟨hc, -, hmem⟩ := hagree j (hreach j hj)
        refine ih depth' hv hv' hp (by rw [hc, hp, hp']) hp' hmem (fun k hk => ?_)
          (List.nodup_cons.2 ⟨hunder, hnodup⟩) (List.nodup_cons.2 ⟨hunder', hnodup'⟩) hlive
          hlive' (by simp; omega) (by simp; omega)
        obtain ⟨hc, hshut, hmem⟩ := hagree k ((hreach j hj).trans hk)
        exact ⟨hc, hshut, by simp [hmem]⟩

/-- So do the texts of two objects that are lent, if behind the one the other comes back just
    where it does itself. -/
theorem textOf_matches {c c' : Contents} (hw : w.Looks c shut) (hw' : w'.Looks c' shut')
    (hi : c i = some o.payload) (hi' : c' i' = some o'.payload) (hsame : o'.payload = o.payload)
    (hagree : ∀ k, Relation.TransGen c.Holds i k →
      c' k = c k ∧ (shut' k ↔ shut k) ∧ (k = i' ↔ k = i)) :
    (∃ text, textOf i o w = .ok text w ∧ textOf i' o' w' = .ok text w') ∨
      ∃ e, textOf i o w = .error e w ∧ textOf i' o' w' = .error e w' := by
  obtain rfl := hw.contents
  obtain rfl := hw'.contents
  have hmatches := render_matches (w.heap.size + 1) (w'.heap.size + 1) hw hw' hi hi' hsame
    (by simp) (by simpa using hagree) .nil .nil (by simp) (by simp)
    (by simp) (by simp)
  have hheap : ∀ v : World σ, (Action.heap : Action σ Heap) v = .ok v.heap v := fun _ => rfl
  simp only [textOf, Action.bind_of_ok (hheap w), Action.bind_of_ok (hheap w')]
  refine hmatches.imp ?_ ?_
  · rintro ⟨text, hrun, hrun'⟩
    exact ⟨text, Action.bind_of_ok hrun _, Action.bind_of_ok hrun' _⟩
  · rintro ⟨e, hrun, hrun'⟩
    exact ⟨e, Action.bind_of_error hrun _, Action.bind_of_error hrun' _⟩

end Objects

/-! ## References -/

/-- Two objects, each in its world, that hold the same, with the same behind them that
    readers can have or not. -/
structure Alike (w w' : World σ) (i i' : ObjId) : Prop where
  contents : w'.heap.contents i' = w.heap.contents i
  beyond : ∀ k, Relation.TransGen w.heap.contents.Holds i k →
    w'.heap.contents k = w.heap.contents k ∧ (w'.Open k ↔ w.Open k)

/-- **Alike objects come to one text, or to one conflict**, if they are one object, or
    neither of the two comes back behind them. -/
theorem Alike.text {w w' : World σ} {i i' : ObjId} (h : Alike w w' i i') (hopen : w.Open i)
    (hopen' : w'.Open i') (hself : i = i' ∨ ¬Relation.TransGen w.heap.contents.Holds i i ∧
      ¬Relation.TransGen w.heap.contents.Holds i i') :
    (∃ text, Ref.text (some i) w = .ok text w ∧ Ref.text (some i') w' = .ok text w') ∨
      ∃ e, Ref.text (some i) w = .error e w ∧ Ref.text (some i') w' = .error e w' := by
  have hshut := hopen.not_shut
  obtain ⟨o, ho, -⟩ := hopen
  have hi : w.heap.contents i = some o.payload := Heap.contents_of_get? ho
  have hi' : w'.heap.contents i' = some o.payload := h.contents.trans hi
  have hbehind : ∀ k, Relation.TransGen w.heap.contents.Holds i k →
      w'.heap.contents k = w.heap.contents k ∧
      ((∃ o, w'.heap.get? k = some o ∧ o.loan = .exclusive) ↔
        ∃ o, w.heap.get? k = some o ∧ o.loan = .exclusive) ∧ (k = i' ↔ k = i) := by
    intro k hk
    obtain ⟨hsame, hreadable⟩ := h.beyond k hk
    refine ⟨hsame, by rw [World.shut_iff, World.shut_iff, hsame, hreadable], ?_⟩
    obtain rfl | ⟨hback, hback'⟩ := hself
    · rfl
    · refine iff_of_false ?_ ?_
      · rintro rfl
        exact hback' hk
      · rintro rfl
        exact hback hk
  obtain ⟨p, v, hp, hv, hread⟩ := w.looks.withRead_still hi hshut
  obtain ⟨p', v', hp', hv', hread'⟩ := w'.looks.withRead_still hi' hopen'.not_shut
  obtain ⟨hok, herror⟩ := hread textOf
  obtain ⟨hok', herror'⟩ := hread' textOf
  rw [← hp] at hi
  rw [← hp'] at hi'
  refine (textOf_matches hv hv' hi hi' (hp'.trans hp.symm) hbehind).imp ?_ ?_
  · rintro ⟨text, hrun, hrun'⟩
    exact ⟨text, hok _ hrun, hok' _ hrun'⟩
  · rintro ⟨e, hrun, hrun'⟩
    exact ⟨e, herror _ hrun, herror' _ hrun'⟩

end ValueEngine
