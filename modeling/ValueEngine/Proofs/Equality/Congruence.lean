/-
  Value engine — equality as programs see it.

  The verdict that two objects are equal is an equivalence, and what lists are made into
  does not tell equal lists apart.

  * `Equals`: a comparison that gives true.
  * `equals_iff`: it does so just if the two are the same.
  * `Gives`: an action that succeeds with a value, in a world that shows something.
  * `gives_element`, `gives_selection`, `gives_sum`: what indices, slices and sums give.
  * `equals_congruence`: equality is an equivalence and a congruence.
-/
import ValueEngine.Collection.Item
import ValueEngine.Operator.Apply
import ValueEngine.Proofs.Equality.Equivalence
import ValueEngine.Proofs.Equality.Judged

namespace ValueEngine

variable {σ : Type} {c : Contents} {w : World σ} {hooks : Hooks σ}

/-! ## Values of operations -/

/-- An action that succeeds with a value in a world that shows some contents. -/
def Gives (x : Action σ Outcome) (w : World σ) (Q : ObjId → Contents → Prop) : Prop :=
  ∃ t w' d, x w = .ok (.success t) w' ∧ w'.Shows d ∧ Q t d

namespace Gives

variable {Q : ObjId → Contents → Prop}

theorem mono {x : Action σ Outcome} {Q' : ObjId → Contents → Prop} (h : Gives x w Q)
    (hq : ∀ t d, Q t d → Q' t d) : Gives x w Q' := by
  obtain ⟨t, w', d, hx, hw', hQ⟩ := h
  exact ⟨t, w', d, hx, hw', hq t d hQ⟩

theorem withRead {i : ObjId} {a : Payload} {body : ObjId → Object → Action σ Outcome}
    (hw : w.Shows c) (hi : c i = some a)
    (hb : ∀ o w', o.payload = a → w'.Shows c → Gives (body i o) w' Q) :
    Gives (withRead (some i) body) w Q := by
  obtain ⟨o, w₁, ho, hw₁, -, hread⟩ := hw.withRead hi
  obtain ⟨t, w', d, hx, hw', hQ⟩ := hb o w₁ ho hw₁
  exact ⟨t, w'.endLoan .read i, d, by rw [hread, hx], hw'.endLoan i, hQ⟩

/-- A new object is no other, and holds what it is made to hold. -/
theorem freshValue (payload : Payload) (hw : w.Shows c) (hp : payload.missingPart? = none) :
    Gives (freshValue payload) w fun t d => c.Grows d t payload := by
  let o : Object := { payload, type := some payload.kind.typeId }
  have hx : ValueEngine.freshValue payload w =
      .ok (.success (w.heap.allocate o).1) { w with heap := (w.heap.allocate o).2 } := by
    simp [ValueEngine.freshValue, fresh, hp, make, bind, EStateM.bind, o]
    rfl
  refine ⟨_, _, _, hx, ⟨rfl, hw.unwritten.allocate nofun⟩, ⟨?_, ?_, ?_⟩⟩
  · intro j a hj
    rw [← hw.contents] at hj
    obtain ⟨p, hp, rfl⟩ := Option.map_eq_some_iff.1 hj
    exact Heap.contents_of_get? (Heap.get?_allocate_of_some hp o)
  · exact Heap.contents_of_get? (Heap.get?_allocate_self w.heap o)
  · intro j a hj
    obtain ⟨p, hp, rfl⟩ := Option.map_eq_some_iff.1 hj
    by_cases hji : j = (w.heap.allocate o).1
    · subst hji
      rw [Heap.get?_allocate_self] at hp
      cases hp
      exact .inr rfl
    · rw [Heap.get?_allocate_of_ne hji] at hp
      rw [← hw.contents]
      exact .inl (Heap.contents_of_get? hp)

end Gives

/-! ## The comparison -/

/-- The comparison of two objects gives true. -/
def Equals (hooks : Hooks σ) (w : World σ) (i j : ObjId) : Prop :=
  ∃ t w', Ref.equal hooks (some i) (some j) w = .ok (.success t) w' ∧
    w'.heap.contents t = some (.boolean true)

/-- A comparison that succeeds with a truth value. -/
def Decides (x : Action σ Outcome) (w : World σ) (truth : Bool) : Prop :=
  Gives x w fun t d => d t = some (.boolean truth)

/-- A comparison that fails for a cause. -/
def Refuses (x : Action σ Outcome) (w : World σ) (cause : Failure) : Prop :=
  ∃ w', x w = .ok (.failure cause) w'

/-- What a comparison makes of a verdict, of which `answer` makes a truth value. -/
def Verdict.Shown (x : Action σ Outcome) (w : World σ) (answer : Bool → Bool) : Verdict → Prop
  | equal => Decides x w (answer true)
  | unequal => Decides x w (answer false)
  | failed cause => Refuses x w cause

/-- The rules give a verdict on any two objects. -/
theorem exists_judged {i j : ObjId} {a b : Payload} (hw : w.Shows c) (hc : c.Filled)
    (ha : c i = some a) (hb : c j = some b) : ∃ verdict, c.Judged [] (i, j) verdict := by
  rw [← hw.contents] at ha hb
  obtain ⟨o, ho, rfl⟩ := Option.map_eq_some_iff.1 ha
  obtain ⟨p, hp, rfl⟩ := Option.map_eq_some_iff.1 hb
  rw [hw.contents] at ha hb
  have hnone : Hooks.Returns ({} : Hooks σ) := nofun
  obtain ⟨verdict, w', -, hjudged, -⟩ := judge_judged hc hnone hw ha hb
  exact ⟨verdict, hjudged⟩

/-- Every comparison of two objects shows the verdict of the rules. -/
theorem shown_of_judged {i j : ObjId} {a b : Payload} {verdict : Verdict} (hw : w.Shows c)
    (hc : c.Filled) (hh : hooks.Returns) (ha : c i = some a) (hb : c j = some b)
    (hverdict : c.Judged [] (i, j) verdict) (answer : Bool → Bool) :
    verdict.Shown (withRead (some i) fun i x => withRead (some j) fun j y => do
      (← judge hooks i x j y).outcome answer) w answer := by
  obtain ⟨o, w₁, rfl, hw₁, -, hread⟩ := hw.withRead ha
  obtain ⟨p, w₂, rfl, hw₂, -, hread'⟩ := hw₁.withRead hb
  obtain ⟨v, w₃, hx, hjudged, hw₃⟩ := judge_judged hc hh hw₂ ha hb
  cases hverdict.unique hjudged
  have hdecides : ∀ truth : Bool, verdict.outcome (σ := σ) answer = freshValue (.boolean truth) →
      w₃ = w₂ → Decides (withRead (some i) fun i x => withRead (some j) fun j y => do
        (← judge hooks i x j y).outcome answer) w truth := by
    rintro truth houtcome rfl
    obtain ⟨t, w₄, d, hy, hw₄, hd⟩ := Gives.freshValue (.boolean truth) hw₂ rfl
    refine ⟨t, _, d, ?_, (hw₄.endLoan j).endLoan i, hd.new⟩
    rw [hread, hread', Action.bind_of_ok hx, houtcome, hy]
  cases verdict with
  | equal => exact hdecides _ rfl (hw₃.resolve_left Verdict.not_failed_equal)
  | unequal => exact hdecides _ rfl (hw₃.resolve_left Verdict.not_failed_unequal)
  | failed cause =>
    refine ⟨(w₃.endLoan .read j).endLoan .read i, ?_⟩
    rw [hread, hread', Action.bind_of_ok hx]
    rfl

/-- What the comparison comes to, by what its verdict means. -/
theorem equal_of_answers {i j : ObjId} {a b : Payload} (hw : w.Shows c) (hc : c.Filled)
    (hh : hooks.Returns) (ha : c i = some a) (hb : c j = some b) :
    ∃ verdict, c.Answers [] (i, j) verdict ∧
      ((∃ cause w', verdict = .failed cause ∧
          Ref.equal hooks (some i) (some j) w = .ok (.failure cause) w') ∨
        Decides (Ref.equal hooks (some i) (some j)) w (verdict = .equal)) := by
  obtain ⟨verdict, hjudged⟩ := exists_judged hw hc ha hb
  have hshown : verdict.Shown (Ref.equal hooks (some i) (some j)) w id :=
    shown_of_judged hw hc hh ha hb hjudged id
  refine ⟨verdict, hjudged.answers (by simp), ?_⟩
  cases verdict with
  | equal => exact .inr hshown
  | unequal => exact .inr hshown
  | failed cause =>
    obtain ⟨w', hx⟩ := hshown
    exact .inl ⟨cause, w', rfl, hx⟩

/-- **The comparison gives true** just if no difference can be reached. -/
theorem equals_iff {i j : ObjId} {a b : Payload} (hw : w.Shows c) (hc : c.Filled)
    (hh : hooks.Returns) (ha : c i = some a) (hb : c j = some b) :
    Equals hooks w i j ↔ c.Same i j := by
  obtain ⟨verdict, hanswer, hrun⟩ := equal_of_answers hw hc hh ha hb
  constructor
  · rintro ⟨t, w', hx, ht⟩
    obtain ⟨cause, w₁, -, hx'⟩ | ⟨t', w₁, d, hx', hw₁, ht'⟩ := hrun
    · rw [hx] at hx'
      cases hx'
    rw [hx] at hx'
    cases hx'
    rw [hw₁.contents, ht'] at ht
    have hv : verdict = .equal := by simpa using ht
    subst hv
    rwa [Contents.Answers, Contents.reachesAround_nil] at hanswer
  · intro hs
    have hv : verdict = .equal := by
      cases verdict with
      | equal => rfl
      | unequal =>
        obtain ⟨q, hq, hd⟩ := hanswer
        exact absurd (hs q hq) (Contents.not_agrees_of_differs hd)
      | failed cause =>
        obtain ⟨q, left, right, hq, hclash, -⟩ := hanswer
        exact absurd (hs q hq) (Contents.not_agrees_of_clashes hclash)
    subst hv
    obtain ⟨cause, _, hcause, -⟩ | ⟨t, w', d, hx, hw', ht⟩ := hrun
    · cases hcause
    · exact ⟨t, w', hx, by simpa [hw'.contents] using ht⟩

/-! ## What is made of lists -/

section Lists

variable {i k : ObjId} {ls : List Ref}

/-- An index that means a place gives the element there. -/
theorem item_of_place {n : Int32} {place : Nat} {x : ObjId} (hw : w.Shows c)
    (hi : c i = some (.list ls)) (hk : c k = some (.integer n))
    (hplace : position? n ls.length = some place) (hx : ls[place]? = some (some x)) :
    Ref.item hooks (some i) (some k) w = .ok (.success x) w := by
  obtain ⟨o, w₁, ho, hw₁, hback, hread⟩ := hw.withRead hi
  obtain ⟨p, w₂, hp, hw₂, hback', hread'⟩ := hw₁.withRead hk
  rw [Ref.item, hread, hread', ho, hp]
  simp only [itemOf, sequenceItem, hplace, hx]
  show EStateM.Result.ok _ ((w₂.endLoan .read k).endLoan .read i) = _
  rw [hback', hback]

/-- An index that means no place is out of range. -/
theorem item_of_no_place {n : Int32} (hw : w.Shows c) (hh : hooks.Returns)
    (hi : c i = some (.list ls)) (hk : c k = some (.integer n))
    (hplace : position? n ls.length = none) :
    ∃ w', Ref.item hooks (some i) (some k) w = .ok (.failure (.indexOutOfRange .list)) w' := by
  obtain ⟨o, w₁, ho, hw₁, -, hread⟩ := hw.withRead hi
  obtain ⟨p, w₂, hp, hw₂, -, hread'⟩ := hw₁.withRead hk
  obtain ⟨w₃, hw₃⟩ := fail_eq_ok hh (.indexOutOfRange .list) w₂
  refine ⟨(w₃.endLoan .read k).endLoan .read i, ?_⟩
  rw [Ref.item, hread, hread', ho, hp]
  simp only [itemOf, sequenceItem, hplace]
  rw [show (Payload.list []).kind = Kind.list from rfl, hw₃]

/-- A slice gives a new list of what it selects. -/
theorem gives_selection {bounds : SliceBounds} {selected : List Ref} (hw : w.Shows c)
    (hi : c i = some (.list ls)) (hk : c k = some (.slice bounds))
    (hs : bounds.select? ls = some selected) (hnull : none ∉ selected) :
    Gives (Ref.item hooks (some i) (some k)) w fun t d =>
      c.Grows d t (.list selected) := by
  refine .withRead hw hi fun o w₁ ho hw₁ => .withRead hw₁ hk fun p w₂ hp hw₂ => ?_
  rw [ho, hp]
  simp only [itemOf, sequenceItem, hs]
  refine .freshValue _ hw₂ ?_
  simpa [Payload.missingPart?] using hnull

/-- A sum gives a new list of the elements of both. -/
theorem gives_sum {ks : List Ref} (hw : w.Shows c) (hi : c i = some (.list ls))
    (hk : c k = some (.list ks)) (hnull : none ∉ ls ++ ks) :
    Gives (Ref.add hooks (some i) (some k)) w fun t d =>
      c.Grows d t (.list (ls ++ ks)) := by
  obtain ⟨o, w₁, ho, hw₁, -, hread⟩ := hw.withRead hi
  obtain ⟨p, w₂, hp, hw₂, -, hread'⟩ := hw₁.withRead hk
  have hw₃ := hw₂.traced operatorLevel (Operator.add.tracedAs o.kind p.kind)
  obtain ⟨t, w₄, d, hx, hw₄, hd⟩ := Gives.freshValue (.list (ls ++ ks)) hw₃
    (by simpa [Payload.missingPart?] using hnull)
  refine ⟨t, (w₄.endLoan .read k).endLoan .read i, d, ?_, (hw₄.endLoan k).endLoan i, hd⟩
  have hserved : Operator.add.applyBuiltin hooks (some i) (some k) w =
      .ok (.ok (.success t)) ((w₄.endLoan .read k).endLoan .read i) := by
    rw [Operator.applyBuiltin, hread, hread', ho, hp]
    simp [builtin?, trace, bind, EStateM.bind, hx]
  rw [Ref.add, Operator.apply, Action.bind_of_ok hserved]
  rfl

theorem none_not_mem_of_live (h : ∀ r ∈ ls, (r.bind c).isSome) : none ∉ ls := fun hn => by
  simpa using h none hn

/-- Two operations in turn that give matching lists give equal ones. -/
theorem equals_of_gives {xs ys : List Ref} {x y : Action σ Outcome}
    (hc : c.Filled) (hh : hooks.Returns) (hm : c.Match xs ys)
    (hx : Gives x w fun t d => c.Grows d t (.list xs))
    (hy : ∀ {s d w₁}, c.Grows d s (.list xs) → w₁.Shows d →
      Gives y w₁ fun t e => d.Grows e t (.list ys)) :
    ∃ s w₁ t w₂, x w = .ok (.success s) w₁ ∧ y w₁ = .ok (.success t) w₂ ∧
      Equals hooks w₂ s t := by
  obtain ⟨s, w₁, d, hx, hw₁, hd⟩ := hx
  obtain ⟨t, w₂, e, hy, hw₂, he⟩ := hy hd hw₁
  refine ⟨s, w₁, t, w₂, hx, hy, ?_⟩
  have hm₁ : d.Match xs ys := hm.grow hd
  have hfilled : e.Filled := (hc.grow hd hm.live.1).grow he hm₁.live.2
  have hsame : e.Same s t := Contents.same_of_match (he.old hd.new) he.new (hm₁.grow he)
  exact (equals_iff hw₂ hfilled hh (he.old hd.new) he.new).2 hsame

end Lists

/-! ## The congruence -/

/-- An object of a kind that has equality. -/
def Heap.Comparable (h : Heap) (i : ObjId) : Prop :=
  ∃ a, h.contents i = some a ∧ a.kind.hasEquality = true

/-- **Equality is an equivalence and a congruence.** In a world without null slots where
    no object is lent for writing, between objects that can be compared it is reflexive,
    symmetric and transitive; and two different lists that are equal have one length, the
    same indices, equal elements and equal selections, and, with two more such lists,
    equal sums. -/
theorem equals_congruence {w : World σ} {hooks : Hooks σ} (hc : w.heap.contents.Filled)
    (hu : w.heap.Unwritten) (hh : hooks.Returns) :
    (∀ i, w.heap.Comparable i → Equals hooks w i i) ∧
    (∀ i j, w.heap.Comparable i → w.heap.Comparable j → Equals hooks w i j →
      Equals hooks w j i) ∧
    (∀ i j k, w.heap.Comparable i → w.heap.Comparable j → w.heap.Comparable k →
      Equals hooks w i j → Equals hooks w j k → Equals hooks w i k) ∧
    ∀ i j ls rs, i ≠ j → w.heap.contents i = some (.list ls) →
      w.heap.contents j = some (.list rs) → Equals hooks w i j →
      ls.length = rs.length ∧
      (∀ k n, w.heap.contents k = some (.integer n) →
        (∃ w₁ w₂, Ref.item hooks (some i) (some k) w = .ok (.failure (.indexOutOfRange .list)) w₁ ∧
          Ref.item hooks (some j) (some k) w = .ok (.failure (.indexOutOfRange .list)) w₂) ∨
        ∃ x y, Ref.item hooks (some i) (some k) w = .ok (.success x) w ∧
          Ref.item hooks (some j) (some k) w = .ok (.success y) w ∧ Equals hooks w x y) ∧
      (∀ k bounds, w.heap.contents k = some (.slice bounds) → bounds.step ≠ some 0 →
        ∃ x w₁ y w₂, Ref.item hooks (some i) (some k) w = .ok (.success x) w₁ ∧
          Ref.item hooks (some j) (some k) w₁ = .ok (.success y) w₂ ∧ Equals hooks w₂ x y) ∧
      ∀ k l ks ms, k ≠ l → w.heap.contents k = some (.list ks) →
        w.heap.contents l = some (.list ms) → Equals hooks w k l →
        ∃ x w₁ y w₂, Ref.add hooks (some i) (some k) w = .ok (.success x) w₁ ∧
          Ref.add hooks (some j) (some l) w₁ = .ok (.success y) w₂ ∧ Equals hooks w₂ x y := by
  have hw : w.Shows w.heap.contents := ⟨rfl, hu⟩
  have hiff : ∀ {i j a b}, w.heap.contents i = some a → w.heap.contents j = some b →
      (Equals hooks w i j ↔ w.heap.contents.Same i j) := fun ha hb => equals_iff hw hc hh ha hb
  refine ⟨?_, ?_, ?_, ?_⟩
  · rintro i ⟨a, ha, hk⟩
    exact (hiff ha ha).2 (.refl ha hk)
  · rintro i j ⟨a, ha, -⟩ ⟨b, hb, -⟩ h
    exact (hiff hb ha).2 ((hiff ha hb).1 h).symm
  · rintro i j k ⟨a, ha, -⟩ ⟨b, hb, -⟩ ⟨d, hd, -⟩ h h'
    exact (hiff ha hd).2 (((hiff ha hb).1 h).trans hc ((hiff hb hd).1 h'))
  intro i j ls rs hij hi hj h
  have hmatch : ∀ {i j ls rs}, i ≠ j → w.heap.contents i = some (.list ls) →
      w.heap.contents j = some (.list rs) → Equals hooks w i j →
      w.heap.contents.Match ls rs := by
    intro i j ls rs hij hi hj h
    obtain ⟨rs', hj', hm⟩ := Contents.match_of_same hc ((hiff hi hj).1 h) hij hi
    rw [hj] at hj'
    cases hj'
    exact hm
  have hm := hmatch hij hi hj h
  refine ⟨hm.length_eq, ?_, ?_, ?_⟩
  · intro k n hk
    cases hplace : position? n ls.length with
    | none =>
      obtain ⟨w₁, hx⟩ := item_of_no_place hw hh hi hk hplace
      obtain ⟨w₂, hy⟩ := item_of_no_place hw hh hj hk (hm.length_eq ▸ hplace)
      exact .inl ⟨w₁, w₂, hx, hy⟩
    | some place =>
      obtain ⟨x, y, hx, hy, hs⟩ := hm.place (position?_lt hplace)
      obtain ⟨a, b, ha, hb, -⟩ := (Contents.closed_same _).agrees hs
      exact .inr ⟨x, y, item_of_place hw hi hk hplace hx,
        item_of_place hw hj hk (hm.length_eq ▸ hplace) hy, (hiff ha hb).2 hs⟩
  · intro k bounds hk hstep
    obtain ⟨hzero, -, -⟩ | ⟨ls', rs', hls, hrs, hm'⟩ := hm.select? bounds
    · exact absurd hzero hstep
    obtain ⟨hlive, hlive'⟩ := hm'.live
    refine equals_of_gives hc hh hm'
      (gives_selection hw hi hk hls (none_not_mem_of_live hlive)) fun hd hw₁ => ?_
    exact gives_selection hw₁ (hd.old hj) (hd.old hk) hrs (none_not_mem_of_live hlive')
  · intro k l ks ms hkl hk hl h'
    have hsum := hm.append (hmatch hkl hk hl h')
    obtain ⟨hlive, hlive'⟩ := hsum.live
    refine equals_of_gives hc hh hsum (gives_sum hw hi hk (none_not_mem_of_live hlive))
      fun hd hw₁ => ?_
    exact gives_sum hw₁ (hd.old hj) (hd.old hl) (none_not_mem_of_live hlive')

/-- Two lists that hold themselves are equal either way round, and so are their doubles. -/
theorem equals_selfLists : Equals {} selfLists ⟨0⟩ ⟨0⟩ ∧ Equals {} selfLists ⟨1⟩ ⟨0⟩ ∧
    ∃ x w₁ y w₂, Ref.add {} (some ⟨0⟩) (some ⟨0⟩) selfLists = .ok (.success x) w₁ ∧
      Ref.add {} (some ⟨1⟩) (some ⟨1⟩) w₁ = .ok (.success y) w₂ ∧ Equals {} w₂ x y := by
  have hh : Hooks.Returns ({} : Hooks Unit) := nofun
  have hequals : Equals {} selfLists ⟨0⟩ ⟨1⟩ :=
    (equals_iff ⟨rfl, unwritten_selfLists⟩ filled_selfLists hh rfl rfl).2 same_selfLists
  obtain ⟨hrefl, hsymm, -, hlists⟩ :=
    equals_congruence filled_selfLists unwritten_selfLists hh
  have h₀ : selfLists.heap.Comparable ⟨0⟩ := ⟨_, rfl, rfl⟩
  have h₁ : selfLists.heap.Comparable ⟨1⟩ := ⟨_, rfl, rfl⟩
  obtain ⟨-, -, -, hsum⟩ := hlists ⟨0⟩ ⟨1⟩ _ _ nofun rfl rfl hequals
  exact ⟨hrefl _ h₀, hsymm _ _ h₀ h₁ hequals, hsum ⟨0⟩ ⟨1⟩ _ _ nofun rfl rfl hequals⟩

end ValueEngine
