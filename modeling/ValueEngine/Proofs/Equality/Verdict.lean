/-
  Value engine — the verdict is one of the objects.

  The equality test reads what objects hold and nothing else of them. Who else has them
  and what the host makes of a failure play no part in the verdict.

  * `Concurs`: actions in two worlds that come to one result, and put both worlds back
    unless it is final.
  * `equality_concurs`: the test in two worlds that show the same.
  * `World.verdict`: what the test of two objects says in a world.
  * `judge_of_verdict`: it says so whoever reads the objects meanwhile.
-/
import ValueEngine.Proofs.Equality.Judged

namespace ValueEngine

variable {σ α β : Type}

/-! ## Two worlds -/

/-- Two actions, each in a world of its own, that come to one result. Unless it is final,
    both worlds are put back. -/
def Concurs (final : α → Prop) (x y : Action σ α) (w v : World σ) : Prop :=
  match x w with
  | .ok a w' => ∃ v', y v = .ok a v' ∧ (final a ∨ w' = w ∧ v' = v)
  | .error e _ => ∃ v', y v = .error e v'

namespace Concurs

variable {final : α → Prop} {final' : β → Prop} {x y : Action σ α} {w v : World σ}

theorem of_ok {a : α} {w' v' : World σ} (hx : x w = .ok a w') (hy : y v = .ok a v')
    (h : final a ∨ w' = w ∧ v' = v) : Concurs final x y w v := by
  simp only [Concurs, hx]
  exact ⟨v', hy, h⟩

theorem of_error {e : Abort} {w' v' : World σ} (hx : x w = .error e w')
    (hy : y v = .error e v') : Concurs final x y w v := by
  simp only [Concurs, hx]
  exact ⟨v', hy⟩

theorem pure (a : α) : Concurs final (Pure.pure a) (Pure.pure a) w v :=
  of_ok rfl rfl (.inr ⟨rfl, rfl⟩)

/-- What is final is only handed on. -/
theorem bind {f g : α → Action σ β} (hx : Concurs final x y w v)
    (hfinal : ∀ a, final a → ∃ b, final' b ∧ f a = Pure.pure b ∧ g a = Pure.pure b)
    (hf : ∀ a, ¬final a → Concurs final' (f a) (g a) w v) :
    Concurs final' (x >>= f) (y >>= g) w v := by
  unfold Concurs at hx
  cases hr : x w with
  | error e w' =>
    rw [hr] at hx
    obtain ⟨v', hy⟩ := hx
    exact of_error (Action.bind_of_error hr f) (Action.bind_of_error hy g)
  | ok a w' =>
    rw [hr] at hx
    obtain ⟨v', hy, hback⟩ := hx
    by_cases ha : final a
    · obtain ⟨b, hb, hfa, hga⟩ := hfinal a ha
      have hf' : (x >>= f) w = .ok b w' := by rw [Action.bind_of_ok hr, hfa, Action.pure_apply]
      have hg' : (y >>= g) v = .ok b v' := by rw [Action.bind_of_ok hy, hga, Action.pure_apply]
      exact of_ok hf' hg' (.inl hb)
    · obtain ⟨rfl, rfl⟩ := hback.resolve_left ha
      simpa only [Concurs, Action.bind_of_ok hr, Action.bind_of_ok hy] using hf a ha

/-- Another way to put the result. -/
theorem map (hx : Concurs final x y w v) {g : α → β} (hg : ∀ a, final a → final' (g a)) :
    Concurs final' (do return g (← x)) (do return g (← y)) w v :=
  hx.bind (fun a ha => ⟨g a, hg a ha, rfl, rfl⟩) fun a _ => pure (g a)

/-- Objects that hold the same are lent in both worlds, or in neither. -/
theorem withRead {c : Contents} {r : Ref} {body body' : ObjId → Object → Action σ α}
    (hw : w.Shows c) (hv : v.Shows c)
    (hb : ∀ i o p w' v', c i = some o.payload → c i = some p.payload → w'.Shows c → v'.Shows c →
      Concurs final (body i o) (body' i p) w' v') :
    Concurs final (withRead r body) (withRead r body') w v := by
  cases hr : r.bind c with
  | none =>
    have hdead : ∀ {u : World σ}, u.Shows c → r.bind u.heap.get? = none := by
      intro u hu
      cases r with
      | none => rfl
      | some i =>
        have hi : u.heap.contents i = none := by rw [hu.contents]; exact hr
        exact Option.map_eq_none_iff.1 hi
    exact of_error (lend_of_dead (hdead hw)) (lend_of_dead (hdead hv))
  | some a =>
    obtain ⟨i, rfl, hi⟩ := Option.bind_eq_some_iff.1 hr
    obtain ⟨o, w₁, ho, hw₁, hwback, hwread⟩ := hw.withRead hi
    obtain ⟨p, v₁, hp, hv₁, hvback, hvread⟩ := hv.withRead hi
    have h := hb i o p w₁ v₁ (ho ▸ hi) (hp ▸ hi) hw₁ hv₁
    unfold Concurs at h
    cases hx : body i o w₁ with
    | ok r w' =>
      rw [hx] at h
      obtain ⟨v', hy, hback⟩ := h
      refine of_ok (by rw [hwread, hx]) (by rw [hvread, hy]) (hback.imp_right ?_)
      rintro ⟨rfl, rfl⟩
      exact ⟨hwback, hvback⟩
    | error e w' =>
      rw [hx] at h
      obtain ⟨v', hy⟩ := h
      exact of_error (by rw [hwread, hx]) (by rw [hvread, hy])

end Concurs

/-! ## The test -/

section Test

variable {c : Contents} {hooks hooks' : Hooks σ} {w v : World σ} {pairs : List Pair}

/-- The elements of two sequences are tested in step, up to the first pair that is not
    equal. -/
theorem allEqual_concurs {test test' : Ref → Ref → Comparing σ Verdict} {ls rs : List Ref}
    (ht : ∀ l ∈ ls, ∀ r ∈ rs, ∀ pairs,
      Concurs (·.1.Failed) (test l r pairs) (test' l r pairs) w v) (pairs : List Pair) :
    Concurs (·.1.Failed) (allEqual test ls rs pairs) (allEqual test' ls rs pairs) w v := by
  induction ls generalizing rs pairs with
  | nil => exact .pure _
  | cons l ls ih =>
    cases rs with
    | nil => exact .pure _
    | cons r rs =>
      refine (ht l List.mem_cons_self r List.mem_cons_self pairs).bind ?_ ?_
      · rintro ⟨verdict, pairs'⟩ ⟨cause, rfl⟩
        exact ⟨_, ⟨cause, rfl⟩, rfl, rfl⟩
      · rintro ⟨verdict, pairs'⟩ hverdict
        cases verdict with
        | equal =>
          exact ih (fun l hl r hr => ht l (List.mem_cons_of_mem _ hl) r (List.mem_cons_of_mem _ hr))
            pairs'
        | unequal => exact .pure _
        | failed cause => exact absurd ⟨cause, rfl⟩ hverdict

/-- To refuse is to fail, in either world. -/
theorem refuse_concurs (hh : hooks.Returns) (hh' : hooks'.Returns) {a a' b b' : Object}
    (ha : a.payload = a'.payload) (hb : b.payload = b'.payload) (pairs : List Pair) :
    Concurs (·.1.Failed) (do return (← refuse hooks a b, pairs))
      (do return (← refuse hooks' a' b', pairs)) w v := by
  obtain ⟨w', hw'⟩ := refuse_eq_ok hh a b w
  obtain ⟨v', hv'⟩ := refuse_eq_ok hh' a' b' v
  rw [Object.kind, Object.kind, ← ha, ← hb] at hv'
  exact .of_ok (Action.bind_of_ok hw' _) (Action.bind_of_ok hv' _) (.inl ⟨_, rfl⟩)

/-- **The test says the same** in two worlds that show the same. -/
theorem equality_concurs (hh : hooks.Returns) (hh' : hooks'.Returns) (depth : Nat) {i j : ObjId}
    {a a' b b' : Object} (ha : a.payload = a'.payload) (hb : b.payload = b'.payload)
    (hw : w.Shows c) (hv : v.Shows c) :
    Concurs (·.1.Failed) (equality hooks depth i a j b pairs)
      (equality hooks' depth i a' j b' pairs) w v := by
  induction depth generalizing i j a a' b b' w v pairs with
  | zero => exact .of_error rfl rfl
  | succ depth ih =>
    simp only [equality, Object.kind, ← ha, ← hb]
    split
    · exact refuse_concurs hh hh' ha hb pairs
    split
    · exact .pure _
    split
    · exact .pure _
    · exact .pure _
    · split
      · exact .pure _
      split
      · exact .pure _
      refine (allEqual_concurs (fun l _ r _ pairs => ?_) _).map fun _ h => h
      refine .withRead hw hv fun k o p w₁ v₁ ho hp hw₁ hv₁ => ?_
      refine .withRead hw₁ hv₁ fun m q s w₂ v₂ hq hs hw₂ hv₂ => ?_
      exact ih (Option.some.inj (ho.symm.trans hp)) (Option.some.inj (hq.symm.trans hs)) hw₂ hv₂
    · exact refuse_concurs hh hh' ha hb pairs

theorem judge_concurs (hh : hooks.Returns) (hh' : hooks'.Returns) {i j : ObjId}
    {a a' b b' : Object} (ha : a.payload = a'.payload) (hb : b.payload = b'.payload)
    (hw : w.Shows c) (hv : v.Shows c) (hsize : v.heap.size = w.heap.size) :
    Concurs Verdict.Failed (judge hooks i a j b) (judge hooks' i a' j b') w v := by
  have hheap : ∀ u : World σ, (Action.heap : Action σ Heap) u = .ok u.heap u := fun _ => rfl
  have h : Concurs Verdict.Failed
      (do return (← equality hooks (w.heap.size * w.heap.size + 1) i a j b []).1)
      (do return (← equality hooks' (w.heap.size * w.heap.size + 1) i a' j b' []).1) w v :=
    (equality_concurs hh hh' _ ha hb hw hv).map fun _ h => h
  simp only [Concurs, judge, Action.bind_of_ok (hheap _), hsize] at h ⊢
  exact h

end Test

/-! ## Verdicts -/

/-- What the equality test of two objects says in a world, or the abort that stands in the
    place of a verdict. -/
def World.verdict (w : World σ) (i j : ObjId) : Except Abort Verdict :=
  match w.heap.get? i, w.heap.get? j with
  | some a, some b =>
    match judge {} i a j b w with
    | .ok verdict _ => .ok verdict
    | .error e _ => .error e
  | _, _ => .error .nullReference

section Verdicts

variable {hooks : Hooks σ} {w v : World σ} {i j : ObjId} {a b : Object}

/-- **The verdict stands** whoever reads the objects meanwhile, and whatever the host makes
    of a failure. -/
theorem judge_of_verdict (hh : hooks.Returns) (hu : w.heap.Unwritten)
    (hv : v.Shows w.heap.contents) (hsize : v.heap.size = w.heap.size)
    (ha : w.heap.contents i = some a.payload) (hb : w.heap.contents j = some b.payload) :
    match w.verdict i j with
    | .ok verdict => ∃ v', judge hooks i a j b v = .ok verdict v' ∧ (verdict.Failed ∨ v' = v)
    | .error e => ∃ v', judge hooks i a j b v = .error e v' := by
  obtain ⟨o, ho, hoa⟩ := Option.map_eq_some_iff.1 ha
  obtain ⟨p, hp, hpb⟩ := Option.map_eq_some_iff.1 hb
  have hnone : Hooks.Returns ({} : Hooks σ) := nofun
  have h : Concurs Verdict.Failed (judge {} i o j p) (judge hooks i a j b) w v :=
    judge_concurs hnone hh hoa hpb ⟨rfl, hu⟩ hv hsize
  simp only [World.verdict, ho, hp]
  unfold Concurs at h
  cases hr : judge {} i o j p w with
  | ok verdict w' =>
    rw [hr] at h
    obtain ⟨v', hrun, hback⟩ := h
    exact ⟨v', hrun, hback.imp_right And.right⟩
  | error e w' =>
    rw [hr] at h
    exact h

end Verdicts

end ValueEngine
