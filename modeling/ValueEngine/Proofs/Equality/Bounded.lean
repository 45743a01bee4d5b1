/-
  Value engine — how deep the equality test goes.

  The pairs of lists that are under way are those that enclose the present pair, none of
  them twice, and all of them lists that can be reached from the operands. So there are no
  more of them than the square of the number of such lists, whatever circles the lists run
  in, whoever has lent them and whatever the host does; and a depth of one more is never
  used up.

  * `Restores`: comparisons that put the pairs under way back (`equality_restores`).
  * `Contents.listsFrom`: the lists that can be reached from two objects.
  * `Contents.Chained`: pairs of them, none twice (`Chained.length_le`).
  * `overseen`: the equality test with an onlooker, who sees these pairs whenever they may
    have changed.
  * `overseen_eq_equality`: the onlooker sees nothing else.
  * `equality_bounded`: all of this, of any two objects.
-/
import ValueEngine.Proofs.Equality.Structural
import ValueEngine.Proofs.Identity.Results
import ValueEngine.Proofs.Reading.Counting

namespace ValueEngine

variable {σ : Type} {hooks : Hooks σ} {w : World σ} {c : Contents} {i j k i' j' : ObjId}
  {a b : Object} {chain : List Pair} {n : Nat}

/-! ## What is put back -/

/-- A comparison that has put the pairs under way back when it comes to a verdict. -/
def Restores (x : Comparing σ Verdict) : Prop :=
  ∀ pairs w, (x pairs).Arrives w (fun answer _ => answer.2 = pairs) fun _ => True

theorem allEqual_restores {test : Ref → Ref → Comparing σ Verdict}
    (ht : ∀ l r, Restores (test l r)) (ls rs : List Ref) : Restores (allEqual test ls rs) := by
  induction ls generalizing rs with
  | nil => exact fun pairs w => .of_ok rfl rfl
  | cons l ls ih =>
    cases rs with
    | nil => exact fun pairs w => .of_ok rfl rfl
    | cons r rs =>
      intro pairs w
      refine .bind ((ht l r pairs w).mono ?_ fun _ h => h)
      rintro ⟨verdict, pairs'⟩ v rfl
      cases verdict with
      | equal => exact ih rs pairs' v
      | unequal => exact .of_ok rfl rfl
      | failed cause => exact .of_ok rfl rfl

theorem refuse_restores (a b : Object) :
    Restores fun pairs => (do return (← refuse hooks a b, pairs) : Action σ _) :=
  fun _ _ => .bind (.always (fun _ _ => .of_ok rfl rfl) fun _ => trivial)

theorem Restores.withReads {test : ObjId → Object → ObjId → Object → Comparing σ Verdict}
    (ht : ∀ k x m y, Restores (test k x m y)) (l r : Ref) :
    Restores fun pairs => withRead l fun k x => withRead r fun m y => test k x m y pairs :=
  fun pairs _ => .lend trivial fun k _ _ _ _ _ => .lend trivial fun m _ _ _ _ _ =>
    (ht k _ m _ pairs _).mono (fun _ _ h => h) fun _ _ => trivial

/-- **On every way to a verdict the pairs under way are put back**, at every depth. -/
theorem equality_restores (depth : Nat) (i : ObjId) (a : Object) (j : ObjId) (b : Object) :
    Restores (equality hooks depth i a j b) := by
  induction depth generalizing i a j b with
  | zero => exact fun _ _ => .of_error rfl trivial
  | succ depth ih =>
    intro pairs w
    simp only [equality]
    split
    · exact refuse_restores a b pairs w
    split
    · exact .of_ok rfl rfl
    split
    · exact .of_ok rfl rfl
    · exact .of_ok rfl rfl
    · split
      · exact .of_ok rfl rfl
      split
      · exact .of_ok rfl rfl
      refine .bind ((allEqual_restores (Restores.withReads ih) _ _ _ w).mono ?_ fun _ h => h)
      rintro ⟨verdict, _⟩ v rfl
      exact .of_ok rfl rfl
    · exact refuse_restores a b pairs w

/-! ## The lists that can be reached -/

namespace Contents

/-- The lists that can be reached through lists from either of two objects. -/
def listsFrom (c : Contents) (i j : ObjId) : Set ObjId :=
  {k | (∃ ls, c k = some (.list ls)) ∧
    (Relation.ReflTransGen c.Nests i k ∨ Relation.ReflTransGen c.Nests j k)}

/-- Pairs of lists that can be reached, none of them twice. -/
structure Chained (c : Contents) (i j : ObjId) (chain : List Pair) : Prop where
  nodup : chain.Nodup
  mem : ∀ p ∈ chain, p.1 ∈ c.listsFrom i j ∧ p.2 ∈ c.listsFrom i j

theorem Chained.nil : c.Chained i j [] := ⟨.nil, nofun⟩

theorem Chained.cons {p : Pair} (h : c.Chained i j chain) (hp : p ∉ chain)
    (hleft : p.1 ∈ c.listsFrom i j) (hright : p.2 ∈ c.listsFrom i j) :
    c.Chained i j (p :: chain) where
  nodup := h.nodup.cons hp
  mem := List.forall_mem_cons.2 ⟨⟨hleft, hright⟩, h.mem⟩

theorem listsFrom_subset : c.listsFrom i j ⊆ c.live := by
  rintro k ⟨⟨ls, hk⟩, -⟩
  exact mem_live hk

section Finite

variable (hn : ∀ i a, c i = some a → i.index < n)
include hn

theorem finite_listsFrom (i j : ObjId) : (c.listsFrom i j).Finite :=
  (finite_live hn).subset listsFrom_subset

/-- There are no more lists than objects. -/
theorem ncard_listsFrom_le (i j : ObjId) : (c.listsFrom i j).ncard ≤ n :=
  ncard_le_of_live hn listsFrom_subset

/-- There are so many pairs of lists, no more. -/
theorem Chained.length_le (h : c.Chained i j chain) :
    chain.length ≤ (c.listsFrom i j).ncard ^ 2 := by
  have hfinite := finite_listsFrom hn i j
  calc chain.length ≤ (c.listsFrom i j ×ˢ c.listsFrom i j).ncard :=
        length_le_ncard (hfinite.prod hfinite) h.nodup fun p hp => Set.mem_prod.2 (h.mem p hp)
    _ = (c.listsFrom i j).ncard ^ 2 := by rw [Set.ncard_prod, sq]

end Finite

end Contents

/-! ## The onlooker -/

/-- The equality test with an onlooker. It is told the pairs of lists that enclose the
    present one, innermost first, and the pairs that are under way: when the test of two
    objects begins, and after each time that a pair is put under way or taken back. What is
    to be done when the depth is used up is `spent`. -/
def overseen (hooks : Hooks σ) (watch : List Pair → List Pair → Action σ Unit)
    (spent : Action σ (Verdict × List Pair)) :
    Nat → List Pair → ObjId → Object → ObjId → Object → Comparing σ Verdict
  | 0, _, _, _, _, _ => fun _ => spent
  | depth + 1, chain, i, a, j, b => fun pairs => do
    watch chain pairs
    if a.kind ≠ b.kind ∨ a.kind.hasEquality = false then return (← refuse hooks a b, pairs)
    else if i = j then return (.equal, pairs)
    else
      match a.payload, b.payload with
      | .integer x, .integer y => return (.ofBool (x == y), pairs)
      | .string s, .string t => return (.ofBool (s == t), pairs)
      | .list ls, .list rs =>
        if pairs.contains (i, j) then return (.equal, pairs)
        else if ls.length ≠ rs.length then return (.unequal, pairs)
        else do
          watch ((i, j) :: chain) ((i, j) :: pairs)
          let test := fun l r pairs => withRead l fun k x => withRead r fun m y =>
            overseen hooks watch spent depth ((i, j) :: chain) k x m y pairs
          let (verdict, pairs) ← allEqual test ls rs ((i, j) :: pairs)
          watch chain pairs.tail
          return (verdict, pairs.tail)
      | _, _ => return (← refuse hooks a b, pairs)

section Onlooker

variable {watch : List Pair → List Pair → Action σ Unit} {spent : Action σ (Verdict × List Pair)}

/-- One step of the test goes on as it does without an onlooker, if the tests of elements
    do and the onlooker does nothing about this step. -/
theorem overseen_step {depth depth' : Nat} {pairs : List Pair}
    (hstart : watch chain pairs = pure ())
    (helements : ∀ ls rs, a.payload = .list ls → b.payload = .list rs → (i, j) ∉ pairs →
      watch ((i, j) :: chain) ((i, j) :: pairs) = pure () ∧
      allEqual (fun l r pairs => withRead l fun k x => withRead r fun m y =>
          overseen hooks watch spent depth ((i, j) :: chain) k x m y pairs)
        ls rs ((i, j) :: pairs) w =
      allEqual (fun l r pairs => withRead l fun k x => withRead r fun m y =>
          equality hooks depth' k x m y pairs) ls rs ((i, j) :: pairs) w) :
    overseen hooks watch spent (depth + 1) chain i a j b pairs w =
      equality hooks (depth' + 1) i a j b pairs w := by
  simp only [overseen, equality, hstart, pure_bind, List.contains_iff_mem]
  by_cases hkinds : a.kind ≠ b.kind ∨ a.kind.hasEquality = false
  · rw [if_pos hkinds, if_pos hkinds]
  rw [if_neg hkinds, if_neg hkinds]
  by_cases hij : i = j
  · rw [if_pos hij, if_pos hij]
  rw [if_neg hij, if_neg hij]
  rw [not_or, Bool.not_eq_false, not_not] at hkinds
  rcases Payload.cases_of_hasEquality hkinds.1 hkinds.2 with
    ⟨x, y, hx, hy⟩ | ⟨s, t, hs, ht⟩ | ⟨ls, rs, hls, hrs⟩
  · simp only [hx, hy]
  · simp only [hs, ht]
  simp only [hls, hrs]
  by_cases hmem : (i, j) ∈ pairs
  · rw [if_pos hmem, if_pos hmem]
  rw [if_neg hmem, if_neg hmem]
  by_cases hlen : ls.length ≠ rs.length
  · rw [if_pos hlen, if_pos hlen]
  rw [if_neg hlen, if_neg hlen]
  obtain ⟨hpush, hsame⟩ := helements ls rs hls hrs hmem
  rw [hpush, pure_bind]
  cases hrun : allEqual (fun l r pairs => withRead l fun k x => withRead r fun m y =>
      equality hooks depth' k x m y pairs) ls rs ((i, j) :: pairs) w with
  | error e v =>
    rw [hrun] at hsame
    exact (Action.bind_of_error hsame _).trans (Action.bind_of_error hrun _).symm
  | ok answer v =>
    rw [hrun] at hsame
    obtain ⟨verdict, pairs'⟩ := answer
    obtain rfl : pairs' = (i, j) :: pairs :=
      (allEqual_restores (Restores.withReads (equality_restores depth')) ls rs _ w).of_run hrun
    refine (Action.bind_of_ok hsame _).trans (Eq.trans ?_ (Action.bind_of_ok hrun _).symm)
    simp only [List.tail_cons, hstart, pure_bind]

/-- With an onlooker who does nothing it is the equality test. -/
theorem overseen_idle (hooks : Hooks σ) (depth : Nat) (chain : List Pair) (i : ObjId) (a : Object)
    (j : ObjId) (b : Object) :
    overseen hooks (fun _ _ => pure ()) (Action.abort .unfinished) depth chain i a j b =
      equality hooks depth i a j b := by
  induction depth generalizing chain i a j b with
  | zero => rfl
  | succ depth ih =>
    funext pairs w
    refine overseen_step rfl fun ls rs _ _ _ => ⟨rfl, ?_⟩
    simp only [ih]

/-! ## What the onlooker sees -/

/-- Tests that come to the same on elements do so on sequences of them. -/
theorem allEqual_congr {test test' : Ref → Ref → Comparing σ Verdict} {ls rs : List Ref}
    {pairs : List Pair} (hrestores : ∀ l r, Restores (test' l r))
    (hspotless : ∀ l r pairs, Spotless (·.1.finish) (test' l r pairs))
    (h : ∀ l r v, l ∈ ls → r ∈ rs → v.heap.contents = w.heap.contents →
      test l r pairs v = test' l r pairs v) :
    allEqual test ls rs pairs w = allEqual test' ls rs pairs w := by
  induction ls generalizing rs w with
  | nil => rfl
  | cons l ls ih =>
    cases rs with
    | nil => rfl
    | cons r rs =>
      have hfirst := h l r w List.mem_cons_self List.mem_cons_self rfl
      cases hr : test' l r pairs w with
      | error e v =>
        rw [hr] at hfirst
        exact (Action.bind_of_error hfirst _).trans (Action.bind_of_error hr _).symm
      | ok answer v =>
        rw [hr] at hfirst
        obtain ⟨verdict, pairs'⟩ := answer
        obtain rfl : pairs' = pairs := (hrestores l r pairs w).of_run hr
        by_cases hverdict : verdict = .equal
        · subst hverdict
          have hstill : Still w v := (hspotless l r _ w).of_run hr rfl
          rw [allEqual_of_equal hfirst, allEqual_of_equal hr]
          refine ih fun l' r' u hl' hr' hu => ?_
          refine h l' r' u (List.mem_cons_of_mem _ hl') (List.mem_cons_of_mem _ hr') ?_
          rw [hu]
          exact congrArg Heap.contents hstill
        · rw [allEqual_of_ne_equal hfirst hverdict, allEqual_of_ne_equal hr hverdict]

/-- **The onlooker sees nothing but chains**, and the depth is never used up. The induction is
    on the depth; what carries it is that the pairs under way are a chain of lists that lead
    to the present pair. -/
theorem overseen_eq_equality (hn : ∀ i a, c i = some a → i.index < n)
    (hwatch : ∀ chain, c.Chained i j chain → watch chain chain = pure ()) (depth depth' : Nat)
    (hw : w.heap.contents = c) (ha : c i' = some a.payload) (hb : c j' = some b.payload)
    (hi : Relation.ReflTransGen c.Nests i i') (hj : Relation.ReflTransGen c.Nests j j')
    (hchain : c.Chained i j chain) (hdepth : (c.listsFrom i j).ncard ^ 2 < depth + chain.length)
    (hdepth' : (c.listsFrom i j).ncard ^ 2 < depth' + chain.length) :
    overseen hooks watch spent depth chain i' a j' b chain w =
      equality hooks depth' i' a j' b chain w := by
  induction depth generalizing depth' i' j' a b w chain with
  | zero =>
    have hlength := hchain.length_le hn
    omega
  | succ depth ih =>
    cases depth' with
    | zero =>
      have hlength := hchain.length_le hn
      omega
    | succ depth' =>
      refine overseen_step (hwatch chain hchain) fun ls rs hls hrs hmem => ?_
      rw [hls] at ha
      rw [hrs] at hb
      have hnext : c.Chained i j ((i', j') :: chain) :=
        hchain.cons hmem ⟨⟨ls, ha⟩, .inl hi⟩ ⟨⟨rs, hb⟩, .inr hj⟩
      refine ⟨hwatch _ hnext, ?_⟩
      refine allEqual_congr (Restores.withReads (equality_restores depth'))
        (fun l r pairs => .lend fun k x => .lend fun m y => equality_spotless depth' k x m y pairs)
        fun l r v hl hr hv => ?_
      refine withRead_congr fun k x u hk hu hx => withRead_congr fun m y t hm ht hy => ?_
      subst hk hm
      rw [hv, hw] at hu hx
      rw [hu] at ht hy
      exact ih depth' ht hx hy (hi.tail ⟨ls, ha, hl⟩) (hj.tail ⟨rs, hb, hr⟩) hnext
        (by rw [List.length_cons]; omega) (by rw [List.length_cons]; omega)

end Onlooker

/-! ## The main result -/

/-- **The equality test is bounded**, in every world and with every host. Let an onlooker be
    told, whenever a test of two objects begins and whenever the pairs under way change,
    these pairs and the pairs of lists that enclose the present one. One who does nothing
    about it leaves the test as it is. What he is told is twice the same chain of pairs of
    lists that can be reached from the operands, none of them twice, so it is never longer
    than the square of the number of these lists: whatever else he would do about anything
    else, the test is as it is without him. It is so at every depth beyond this square, to
    which the depth makes no difference, so it is never used up. And the pairs that are
    under way are put back on every way to a verdict, whatever it is. -/
theorem equality_bounded (hooks : Hooks σ) (ha : w.heap.contents i = some a.payload)
    (hb : w.heap.contents j = some b.payload) :
    (∀ depth chain k x m y,
      overseen hooks (fun _ _ => pure ()) (Action.abort .unfinished) depth chain k x m y =
        equality hooks depth k x m y) ∧
    (w.heap.contents.listsFrom i j).Finite ∧
    (∀ chain, w.heap.contents.Chained i j chain →
      chain.length ≤ (w.heap.contents.listsFrom i j).ncard ^ 2) ∧
    (∀ watch spent,
      (∀ chain, w.heap.contents.Chained i j chain → watch chain chain = pure ()) →
      ∀ depth depth', (w.heap.contents.listsFrom i j).ncard ^ 2 + 1 ≤ depth →
        (w.heap.contents.listsFrom i j).ncard ^ 2 + 1 ≤ depth' →
        overseen hooks watch spent depth [] i a j b [] w = equality hooks depth' i a j b [] w) ∧
    (∀ depth, (w.heap.contents.listsFrom i j).ncard ^ 2 + 1 ≤ depth →
      judge hooks i a j b w =
        (do return (← equality hooks depth i a j b []).1 : Action σ Verdict) w) ∧
    ∀ depth k x m y pairs v verdict pairs' v',
      equality hooks depth k x m y pairs v = .ok (verdict, pairs') v' → pairs' = pairs := by
  have hn : ∀ k p, w.heap.contents k = some p → k.index < w.heap.size :=
    fun k p => Heap.lt_size_of_contents
  have hseen : ∀ watch spent,
      (∀ chain, w.heap.contents.Chained i j chain → watch chain chain = pure ()) →
      ∀ depth depth', (w.heap.contents.listsFrom i j).ncard ^ 2 + 1 ≤ depth →
        (w.heap.contents.listsFrom i j).ncard ^ 2 + 1 ≤ depth' →
        overseen hooks watch spent depth [] i a j b [] w =
          equality hooks depth' i a j b [] w := by
    intro watch spent hwatch depth depth' hdepth hdepth'
    exact overseen_eq_equality hn hwatch depth depth' rfl ha hb .refl .refl .nil hdepth hdepth'
  refine ⟨overseen_idle hooks, Contents.finite_listsFrom hn i j, fun chain h => h.length_le hn,
    hseen, ?_, ?_⟩
  · intro depth hdepth
    have hsize : (w.heap.contents.listsFrom i j).ncard ^ 2 + 1 ≤ w.heap.size * w.heap.size + 1 := by
      rw [← sq]
      exact Nat.succ_le_succ (Nat.pow_le_pow_left (Contents.ncard_listsFrom_le hn i j) 2)
    have hsame : equality hooks (w.heap.size * w.heap.size + 1) i a j b [] w =
        equality hooks depth i a j b [] w := by
      rw [← hseen (fun _ _ => pure ()) (Action.abort .unfinished) (fun _ _ => rfl) _ _ hsize hdepth,
        overseen_idle]
    have hheap : (Action.heap : Action σ Heap) w = .ok w.heap w := rfl
    refine (Action.bind_of_ok hheap _).trans ?_
    simp only [bind, EStateM.bind, hsame]
  · intro depth k x m y pairs v verdict pairs' v' hrun
    exact (equality_restores depth k x m y pairs v).of_run hrun

/-- An onlooker who puts up with nothing but pairs that are the chain of those that enclose
    the present one, none of them twice, and four of them at most. -/
def strict (chain pairs : List Pair) : Action Unit Unit :=
  if pairs = chain ∧ pairs.Nodup ∧ pairs.length ≤ 4 then pure () else Action.abort .nullReference

/-- Of two lists that hold themselves he sees nothing to object to, at a depth of five, and
    they come out equal as they do at any greater depth. -/
theorem equality_bounded_selfLists :
    let o : Object := { payload := .list [some ⟨0⟩], type := none }
    let p : Object := { payload := .list [some ⟨1⟩], type := none }
    ∀ depth, 5 ≤ depth →
      overseen {} strict (Action.abort .unfinished) 5 [] ⟨0⟩ o ⟨1⟩ p [] selfLists =
        equality {} depth ⟨0⟩ o ⟨1⟩ p [] selfLists := by
  intro o p depth hdepth
  obtain ⟨-, -, hlength, hseen, -⟩ := equality_bounded {} (w := selfLists) (i := ⟨0⟩) (j := ⟨1⟩)
    (a := o) (b := p) rfl rfl
  have hcard : (selfLists.heap.contents.listsFrom ⟨0⟩ ⟨1⟩).ncard ^ 2 ≤ 2 ^ 2 := by
    refine Nat.pow_le_pow_left (Contents.ncard_listsFrom_le (fun k q => ?_) _ _) 2
    exact Heap.lt_size_of_contents
  refine hseen strict _ (fun chain hchain => ?_) 5 depth (by omega) (by omega)
  exact if_pos ⟨rfl, hchain.nodup, (hlength chain hchain).trans hcard⟩

end ValueEngine
