/-
  Value engine — the rules of the equality test.

  The verdict on a pair is there outright, or it is that of two lists of one length, which
  are tested element by element, up to the first pair of elements that is not equal. A pair
  of lists that is under way counts as equal. The rules say nothing of worlds, loans or
  depth, and what they say is unique.

  * `Contents.outright?`: the verdict on a pair that needs no other.
  * `Contents.Judged`: the verdict on a pair while some pairs are under way.
  * `Judged.unique`: there is no other verdict.
  * `Judges`: a comparison that comes to a verdict of some kind.
  * `judges_equality`, `judge_judged`: the test gives the verdict of the rules, within its
    depth.
-/
import ValueEngine.Equality
import ValueEngine.Proofs.Equality.Difference
import ValueEngine.Proofs.Reading.Counting
import ValueEngine.Proofs.Reading.Showing

namespace ValueEngine

variable {σ : Type}

namespace Contents

/-! ## The rules -/

/-- The verdict on a pair that needs no other: the kinds come first, then whether there is
    but one object, then the value, which for lists is their length. -/
def outright? (c : Contents) (p : Pair) : Option Verdict :=
  match c p.1, c p.2 with
  | some a, some b =>
    if a.kind ≠ b.kind ∨ a.kind.hasEquality = false then
      some (.failed (.incomparable a.kind b.kind))
    else if p.1 = p.2 then some .equal
    else
      match a, b with
      | .integer x, .integer y => some (.ofBool (x == y))
      | .string s, .string t => some (.ofBool (s == t))
      | .list ls, .list rs => if ls.length ≠ rs.length then some .unequal else none
      | _, _ => none
  | _, _ => none

/-- Two different lists of one length. -/
def Paired (c : Contents) (p : Pair) : Prop :=
  ∃ ls rs, p.1 ≠ p.2 ∧ c p.1 = some (.list ls) ∧ c p.2 = some (.list rs) ∧
    ls.length = rs.length

/-- The elements that stand at one place of two lists. -/
def At (c : Contents) (n : Nat) (p q : Pair) : Prop :=
  ∃ ls rs, c p.1 = some (.list ls) ∧ c p.2 = some (.list rs) ∧ ls[n]? = some (some q.1) ∧
    rs[n]? = some (some q.2)

/-- The verdict on a pair while some pairs are under way. -/
inductive Judged (c : Contents) : List Pair → Pair → Verdict → Prop
  | outright {pairs p verdict} : c.outright? p = some verdict → Judged c pairs p verdict
  | underWay {pairs p} : c.Paired p → p ∈ pairs → Judged c pairs p .equal
  | elements {pairs p} : c.Paired p → p ∉ pairs →
      (∀ n q, c.At n p q → Judged c (p :: pairs) q .equal) → Judged c pairs p .equal
  | first {pairs p n q verdict} : c.Paired p → p ∉ pairs →
      (∀ m r, m < n → c.At m p r → Judged c (p :: pairs) r .equal) → c.At n p q →
      Judged c (p :: pairs) q verdict → verdict ≠ .equal → Judged c pairs p verdict

variable {c : Contents} {p q q' : Pair} {n : Nat} {pairs : List Pair} {v v' : Verdict}

theorem At.eq (h : c.At n p q) (h' : c.At n p q') : q = q' := by
  obtain ⟨ls, rs, hl, hr, hk, hm⟩ := h
  obtain ⟨ls', rs', hl', hr', hk', hm'⟩ := h'
  rw [hl] at hl'
  rw [hr] at hr'
  cases hl'
  cases hr'
  rw [hk] at hk'
  rw [hm] at hm'
  cases q
  cases q'
  cases hk'
  cases hm'
  rfl

theorem Paired.child (hp : c.Paired p) (h : c.At n p q) : c.Child p q := by
  obtain ⟨ls, rs, hne, hl, hr, hlen⟩ := hp
  obtain ⟨ls', rs', hl', hr', hk, hm⟩ := h
  rw [hl] at hl'
  rw [hr] at hr'
  cases hl'
  cases hr'
  exact .element n hne hl hr hlen hk hm

theorem exists_at (h : c.Child p q) : ∃ n, c.At n p q := by
  obtain ⟨n, -, hl, hr, -, hk, hm⟩ := h
  exact ⟨n, _, _, hl, hr, hk, hm⟩

theorem Paired.agrees (hp : c.Paired p) : c.Agrees p := by
  obtain ⟨ls, rs, -, hl, hr, hlen⟩ := hp
  exact ⟨_, _, hl, hr, rfl, rfl, .inr hlen⟩

theorem Paired.not_outright (hp : c.Paired p) : c.outright? p = none := by
  obtain ⟨ls, rs, hne, hl, hr, hlen⟩ := hp
  simp [outright?, hl, hr, hne, hlen, Payload.kind, Kind.hasEquality]

/-- **The verdict is unique.** -/
theorem Judged.unique (h : c.Judged pairs p v) (h' : c.Judged pairs p v') : v = v' := by
  induction h generalizing v' with
  | outright ho =>
    cases h' with
    | outright ho' => exact Option.some.inj (ho.symm.trans ho')
    | underWay hp => rw [hp.not_outright] at ho; cases ho
    | elements hp => rw [hp.not_outright] at ho; cases ho
    | first hp => rw [hp.not_outright] at ho; cases ho
  | underWay hp hmem =>
    cases h' with
    | outright ho' => rw [hp.not_outright] at ho'; cases ho'
    | underWay => rfl
    | elements => rfl
    | first _ hmem' => exact absurd hmem hmem'
  | elements hp hmem _ ih =>
    cases h' with
    | outright ho' => rw [hp.not_outright] at ho'; cases ho'
    | underWay => rfl
    | elements => rfl
    | first _ _ _ hat hq hne => exact ih _ _ hat hq
  | @first pairs p n q v hp hmem _ hat _ hne ihequal ih =>
    cases h' with
    | outright ho' => rw [hp.not_outright] at ho'; cases ho'
    | underWay _ hmem' => exact absurd hmem' hmem
    | elements _ _ hall => exact ih (hall n q hat)
    | @first _ _ n' q' v' _ _ hequal' hat' hq' hne' =>
      -- of two places that are first to differ neither comes before the other
      obtain hlt | rfl | hlt := Nat.lt_trichotomy n n'
      · exact absurd (ih (hequal' n q hlt hat)) hne
      · exact ih (hat.eq hat' ▸ hq')
      · exact absurd (ihequal n' q' hlt hat' hq').symm hne'

end Contents

/-! ## Comparisons -/

/-- A verdict that ends a comparison with a failure. -/
def Verdict.Failed (verdict : Verdict) : Prop := ∃ cause, verdict = failed cause

theorem Verdict.not_failed_equal : ¬equal.Failed := by
  rintro ⟨cause, h⟩
  cases h

theorem Verdict.not_failed_unequal : ¬unequal.Failed := by
  rintro ⟨cause, h⟩
  cases h

/-- A comparison that comes to a verdict of some kind, and puts back the pairs that are
    under way and the world unless it fails. -/
def Judges (x : Comparing σ Verdict) (pairs : List Pair) (w : World σ) (Q : Verdict → Prop) :
    Prop :=
  Settles (x pairs) w (fun r => r.1.Failed) fun r => Q r.1 ∧ (r.1.Failed ∨ r.2 = pairs)

section Judging

variable {c : Contents} {w : World σ} {pairs : List Pair} {hooks : Hooks σ}

/-- To refuse is final. -/
theorem refuse_eq_ok (hh : hooks.Returns) (a b : Object) (w : World σ) :
    ∃ w', refuse hooks a b w = .ok (.failed (.incomparable a.kind b.kind)) w' := by
  obtain ⟨w', hw'⟩ := report_eq_ok hh (.incomparable a.kind b.kind) w
  exact ⟨w', Action.bind_of_ok hw' _⟩

section Elements

variable {test : Ref → Ref → Comparing σ Verdict} {l r : Ref} {ls rs : List Ref}
  {pairs' : List Pair} {w' : World σ}

theorem allEqual_of_equal (hx : test l r pairs w = .ok (.equal, pairs') w') :
    allEqual test (l :: ls) (r :: rs) pairs w = allEqual test ls rs pairs' w' :=
  Action.bind_of_ok hx _

theorem allEqual_of_ne_equal {verdict : Verdict} (hx : test l r pairs w = .ok (verdict, pairs') w')
    (hne : verdict ≠ .equal) :
    allEqual test (l :: ls) (r :: rs) pairs w = .ok (verdict, pairs') w' := by
  refine (Action.bind_of_ok hx _).trans ?_
  cases verdict with
  | equal => exact absurd rfl hne
  | unequal => rfl
  | failed cause => rfl

/-- Elements are tested in step, up to the first pair that is not equal. -/
theorem judges_allEqual {Q : Ref → Ref → Verdict → Prop}
    (ht : ∀ (n : Nat) l r, ls[n]? = some l → rs[n]? = some r → Judges (test l r) pairs w (Q l r)) :
    Judges (allEqual test ls rs) pairs w fun verdict =>
      (verdict = .equal → ∀ (n : Nat) l r, ls[n]? = some l → rs[n]? = some r → Q l r .equal) ∧
      (verdict ≠ .equal → ∃ (n : Nat) (l r : Ref), ls[n]? = some l ∧ rs[n]? = some r ∧
        Q l r verdict ∧
        ∀ (m : Nat) l r, m < n → ls[m]? = some l → rs[m]? = some r → Q l r .equal) := by
  induction ls generalizing rs with
  | nil => exact .pure ⟨⟨fun _ => by simp, fun h => absurd rfl h⟩, .inr rfl⟩
  | cons l ls ih =>
    cases rs with
    | nil => exact .pure ⟨⟨fun _ => by simp, fun h => absurd rfl h⟩, .inr rfl⟩
    | cons r rs =>
      obtain ⟨⟨verdict, pairs'⟩, w', hx, ⟨hQ, hpairs⟩, hw⟩ := ht 0 l r rfl rfl
      by_cases hverdict : verdict = .equal
      · subst hverdict
        have hpairs' : pairs' = pairs := hpairs.resolve_left Verdict.not_failed_equal
        have hw' : w' = w := hw.resolve_left Verdict.not_failed_equal
        subst hpairs' hw'
        have hrest := ih fun n l r (hl : ls[n]? = some l) (hr : rs[n]? = some r) =>
          ht (n + 1) l r hl hr
        obtain ⟨v, w'', hv, ⟨⟨he, hne⟩, hp⟩, hw''⟩ := hrest
        refine ⟨v, w'', (allEqual_of_equal hx).trans hv, ⟨⟨?_, ?_⟩, hp⟩, hw''⟩
        · intro hv' n l' r' hl' hr'
          cases n with
          | zero =>
            cases hl'
            cases hr'
            exact hQ
          | succ n => exact he hv' n l' r' hl' hr'
        · intro hv'
          obtain ⟨n, l', r', hl', hr', hq, hearlier⟩ := hne hv'
          refine ⟨n + 1, l', r', hl', hr', hq, fun m l₁ r₁ hm hl₁ hr₁ => ?_⟩
          cases m with
          | zero =>
            cases hl₁
            cases hr₁
            exact hQ
          | succ m => exact hearlier m l₁ r₁ (Nat.lt_of_succ_lt_succ hm) hl₁ hr₁
      · refine ⟨(verdict, pairs'), w', allEqual_of_ne_equal hx hverdict, ⟨⟨?_, ?_⟩, hpairs⟩, hw⟩
        · exact fun h => absurd h hverdict
        · exact fun _ => ⟨0, l, r, rfl, rfl, hQ, fun m _ _ hm => absurd hm (Nat.not_lt_zero m)⟩

end Elements

/-- The lists of a pair are tested by their elements, with the pair under way. -/
theorem judges_lists {test : Ref → Ref → Comparing σ Verdict} {ls rs : List Ref} {i j : ObjId}
    (hc : c.Filled) (hij : i ≠ j) (ha : c i = some (.list ls)) (hb : c j = some (.list rs))
    (hlen : ls.length = rs.length) (hmem : (i, j) ∉ pairs)
    (ht : ∀ k l, c.Child (i, j) (k, l) → Judges (test (some k) (some l)) ((i, j) :: pairs) w
      (c.Judged ((i, j) :: pairs) (k, l))) :
    Judges (fun pairs => do
      let (verdict, pairs) ← allEqual test ls rs ((i, j) :: pairs)
      return (verdict, pairs.tail)) pairs w (c.Judged pairs (i, j)) := by
  have hpaired : c.Paired (i, j) := ⟨ls, rs, hij, ha, hb, hlen⟩
  have helement : ∀ (n : Nat) l r, ls[n]? = some l → rs[n]? = some r →
      Judges (test l r) ((i, j) :: pairs) w fun verdict => ∃ k m, l = some k ∧ r = some m ∧
        c.Judged ((i, j) :: pairs) (k, m) verdict := by
    intro n l r hl hr
    obtain ⟨k, _, rfl, -⟩ := hc.slot ha (List.mem_of_getElem? hl)
    obtain ⟨m, _, rfl, -⟩ := hc.slot hb (List.mem_of_getElem? hr)
    have hchild : c.Child (i, j) (k, m) := .element n hij ha hb hlen hl hr
    exact (ht k m hchild).mono fun v hv => ⟨⟨k, m, rfl, rfl, hv.1⟩, hv.2⟩
  -- what is known of the elements, for the pairs that stand at a place
  have hplace : ∀ {m q verdict}, c.At m (i, j) q →
      (∀ l r, ls[m]? = some l → rs[m]? = some r → ∃ k m, l = some k ∧ r = some m ∧
        c.Judged ((i, j) :: pairs) (k, m) verdict) → c.Judged ((i, j) :: pairs) q verdict := by
    rintro m ⟨k, l⟩ verdict ⟨ls', rs', hls, hrs, hl, hr⟩ h
    rw [ha] at hls
    rw [hb] at hrs
    cases hls
    cases hrs
    obtain ⟨_, _, hk, hm, hjudged⟩ := h _ _ hl hr
    cases hk
    cases hm
    exact hjudged
  obtain ⟨⟨verdict, pairs'⟩, w', hx, ⟨⟨hequal, hother⟩, hpairs⟩, hw⟩ := judges_allEqual helement
  refine ⟨(verdict, pairs'.tail), w', Action.bind_of_ok hx _, ⟨?_, hpairs.imp_right ?_⟩, hw⟩
  · by_cases hverdict : verdict = .equal
    · subst hverdict
      exact .elements hpaired hmem fun n q hat => hplace hat (hequal rfl n)
    · obtain ⟨n, _, _, hl, hr, ⟨k, m, rfl, rfl, hjudged⟩, hearlier⟩ := hother hverdict
      exact .first hpaired hmem
        (fun m r hm hat => hplace hat fun l' r' => hearlier m l' r' hm)
        ⟨ls, rs, ha, hb, hl, hr⟩ hjudged hverdict
  · rintro rfl
    rfl

/-! ## The depth -/

/-- There are so many pairs, no more. -/
theorem length_le_of_nodup {n : Nat} (hn : ∀ i a, c i = some a → i.index < n)
    (hnodup : pairs.Nodup) (hp : ∀ p ∈ pairs, c.Paired p) : pairs.length ≤ n * n := by
  have hfinite := Contents.finite_live hn
  have hle := Contents.ncard_live_le hn
  have hmem : ∀ p ∈ pairs, p ∈ c.live ×ˢ c.live := by
    intro p hp'
    obtain ⟨ls, rs, -, ha, hb, -⟩ := hp p hp'
    exact ⟨Contents.mem_live ha, Contents.mem_live hb⟩
  calc pairs.length ≤ (c.live ×ˢ c.live).ncard :=
        length_le_ncard (hfinite.prod hfinite) hnodup hmem
    _ = c.live.ncard * c.live.ncard := Set.ncard_prod
    _ ≤ n * n := Nat.mul_le_mul hle hle

/-- **The test gives the verdict of the rules**, if its depth and the pairs that are under
    way are more than there are pairs. -/
theorem judges_equality {n : Nat} (hn : ∀ i a, c i = some a → i.index < n) (hc : c.Filled)
    (hh : hooks.Returns) (depth : Nat) {i j : ObjId} {a b : Object} (hw : w.Shows c)
    (hdepth : n * n < depth + pairs.length) (hnodup : pairs.Nodup)
    (hpairs : ∀ p ∈ pairs, c.Paired p) (ha : c i = some a.payload) (hb : c j = some b.payload) :
    Judges (equality hooks depth i a j b) pairs w (c.Judged pairs (i, j)) := by
  induction depth generalizing i j a b w pairs with
  | zero =>
    have := length_le_of_nodup hn hnodup hpairs
    omega
  | succ depth ih =>
    have hverdict : ∀ {verdict}, c.outright? (i, j) = some verdict →
        Judges (fun pairs => (return (verdict, pairs) : Action σ (Verdict × List Pair))) pairs w
          (c.Judged pairs (i, j)) := fun ho => .pure ⟨.outright ho, .inr rfl⟩
    simp only [equality]
    show Settles (ite _ _ _) w _ _
    split
    · rename_i hk
      obtain ⟨w', hw'⟩ := refuse_eq_ok hh a b w
      refine ⟨(.failed (.incomparable a.kind b.kind), pairs), w', ?_, ⟨?_, .inr rfl⟩, .inl ⟨_, rfl⟩⟩
      · simp [bind, EStateM.bind, hw']
      · refine .outright ?_
        simp only [Contents.outright?, ha, hb]
        exact if_pos hk
    rename_i hk
    have hkinds := hk
    rw [not_or, Bool.not_eq_false, not_not] at hkinds
    have houtright : c.outright? (i, j) = if i = j then some .equal else
        match a.payload, b.payload with
        | .integer x, .integer y => some (.ofBool (x == y))
        | .string s, .string t => some (.ofBool (s == t))
        | .list ls, .list rs => if ls.length ≠ rs.length then some .unequal else none
        | _, _ => none := by
      simp only [Contents.outright?, ha, hb]
      exact if_neg hk
    split
    · rename_i hij
      exact hverdict (by rw [houtright, if_pos hij])
    rename_i hij
    rw [if_neg hij] at houtright
    split
    · rename_i x y hx hy
      exact hverdict (by rw [houtright, hx, hy])
    · rename_i s t hs ht
      exact hverdict (by rw [houtright, hs, ht])
    · rename_i ls rs hls hrs
      rw [hls, hrs] at houtright
      rw [hls] at ha
      rw [hrs] at hb
      split
      · rename_i hmem
        exact .pure ⟨.underWay (hpairs _ hmem) hmem, .inr rfl⟩
      rename_i hmem
      split
      · rename_i hlen
        exact hverdict (houtright.trans (if_pos hlen))
      rename_i hlen
      rw [not_not] at hlen
      refine judges_lists hc hij ha hb hlen hmem fun k l hchild => ?_
      -- the elements are tested with one more pair under way
      obtain ⟨⟨a', ha'⟩, b', hb'⟩ := hc.child hchild
      refine Settles.withRead hw ha' fun o w' ho hw' => ?_
      refine Settles.withRead hw' hb' fun p w'' hp hw'' => ?_
      subst ho hp
      refine ih hw'' (by simp; omega) (List.nodup_cons.2 ⟨hmem, hnodup⟩) ?_ ha' hb'
      intro q hq
      obtain rfl | hq := List.mem_cons.1 hq
      · exact ⟨ls, rs, hij, ha, hb, hlen⟩
      · exact hpairs q hq
    · rename_i hi hs hl
      exfalso
      obtain ⟨x, y, hx, hy⟩ | ⟨s, t, hs', ht⟩ | ⟨ls, rs, hls, hrs⟩ :=
        Payload.cases_of_hasEquality hkinds.1 hkinds.2
      · exact hi x y hx hy
      · exact hs s t hs' ht
      · exact hl ls rs hls hrs

/-- The test of two objects comes to the verdict of the rules. -/
theorem judge_judged (hc : c.Filled) (hh : hooks.Returns) {i j : ObjId} {a b : Object}
    (hw : w.Shows c) (ha : c i = some a.payload) (hb : c j = some b.payload) :
    Settles (judge hooks i a j b) w Verdict.Failed (c.Judged [] (i, j)) := by
  have hn : ∀ i a, c i = some a → i.index < w.heap.size := by
    intro i a hi
    rw [← hw.contents] at hi
    exact Heap.lt_size_of_contents hi
  obtain ⟨⟨verdict, pairs⟩, w', hx, ⟨hjudged, -⟩, hw'⟩ :=
    judges_equality hn hc hh (w.heap.size * w.heap.size + 1) hw (by simp) .nil (by simp) ha hb
  refine ⟨verdict, w', ?_, hjudged, hw'⟩
  have hheap : (Action.heap : Action σ Heap) w = .ok w.heap w := rfl
  rw [judge, Action.bind_of_ok hheap, Action.bind_of_ok hx]
  rfl

end Judging

end ValueEngine
