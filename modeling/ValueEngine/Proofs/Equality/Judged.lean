/-
  Value engine — what the equality test decides.

  The test takes a pair that is under way for equal. It is right to do so: a difference
  that can be reached at all is reached on a path that goes through no pair twice, and
  the pairs that are under way are those of the path that leads to where the test is.

  * `Contents.Answers`: what a verdict means while some pairs are under way.
  * `Judged.answers`: it means that when it is the verdict of the rules.
  * `judge_decides`: equal just if no difference can be reached.
-/
import ValueEngine.Proofs.Equality.Rules

namespace ValueEngine

variable {σ : Type}

namespace Contents

/-! ## Meanings -/

/-- What a verdict about a pair means while some pairs are under way. -/
def Answers (c : Contents) (pairs : List Pair) (p : Pair) : Verdict → Prop
  | .equal => ∀ q, c.ReachesAround pairs p q → c.Agrees q
  | .unequal => ∃ q, c.Reaches p q ∧ c.Differs q
  | .failed cause => ∃ q left right,
      c.Reaches p q ∧ c.Clashes q left right ∧ cause = .incomparable left right

variable {c : Contents} {p q : Pair} {pairs : List Pair} {v : Verdict}

/-- A verdict on a pair from which nothing else is reached. -/
theorem answers_ofBool {same : Bool} (hchild : ∀ q, ¬c.Child p q)
    (hequal : same = true → c.Agrees p) (hunequal : same = false → c.Differs p) :
    c.Answers pairs p (.ofBool same) := by
  cases same with
  | true =>
    intro q hq
    rw [eq_of_not_child hchild hq]
    exact hequal rfl
  | false => exact ⟨p, .refl, hunequal rfl⟩

theorem answers_outright (h : c.outright? p = some v) : c.Answers pairs p v := by
  obtain ⟨i, j⟩ := p
  unfold outright? at h
  split at h
  · rename_i a b ha hb
    split at h
    · rename_i hk
      cases h
      exact ⟨(i, j), a.kind, b.kind, .refl, ⟨a, b, ha, hb, rfl, rfl, hk⟩, rfl⟩
    rename_i hk
    rw [not_or, Bool.not_eq_false, not_not] at hk
    obtain ⟨hkind, heq⟩ := hk
    split at h
    · -- one object on both sides
      rename_i hij
      cases h
      cases (hij : i = j)
      intro q hq
      rw [eq_of_not_child (fun _ => not_child_self) hq]
      exact ⟨a, b, ha, hb, hkind, heq, .inl rfl⟩
    split at h
    · rename_i x y
      cases h
      exact answers_ofBool (fun _ => not_child_of_kind ha nofun)
        (fun h => ⟨_, _, ha, hb, rfl, rfl, .inr (by simpa using h)⟩)
        fun h => ⟨_, _, ha, hb, by simpa using h⟩
    · rename_i s t
      cases h
      exact answers_ofBool (fun _ => not_child_of_kind ha nofun)
        (fun h => ⟨_, _, ha, hb, rfl, rfl, .inr (by simpa using h)⟩)
        fun h => ⟨_, _, ha, hb, by simpa using h⟩
    · split at h
      · rename_i hlen
        cases h
        exact ⟨(i, j), .refl, _, _, ha, hb, hlen⟩
      · cases h
    · cases h
  · cases h

/-- **The verdict of the rules means what it says**, if the pairs that are under way agree
    by themselves. -/
theorem Judged.answers (h : c.Judged pairs p v) (hpairs : ∀ q ∈ pairs, c.Agrees q) :
    c.Answers pairs p v := by
  induction h with
  | outright ho => exact answers_outright ho
  | underWay _ hmem =>
    intro q hq
    rw [eq_of_reachesAround hmem hq]
    exact hpairs _ hmem
  | @elements pairs p hp _ _ ih =>
    intro q hq
    obtain rfl | ⟨r, hchild, hpath⟩ := reachesAround_cases hq
    · exact hp.agrees
    obtain ⟨n, hat⟩ := exists_at hchild
    exact ih n r hat (List.forall_mem_cons.2 ⟨hp.agrees, hpairs⟩) q hpath
  | @first pairs p n q v hp _ _ hat _ hne _ ih =>
    have hq := ih (List.forall_mem_cons.2 ⟨hp.agrees, hpairs⟩)
    cases v with
    | equal => exact absurd rfl hne
    | unequal =>
      obtain ⟨r, hr, hd⟩ := hq
      exact ⟨r, .head (hp.child hat) hr, hd⟩
    | failed cause =>
      obtain ⟨r, left, right, hr, hcause⟩ := hq
      exact ⟨r, left, right, .head (hp.child hat) hr, hcause⟩

end Contents

/-! ## Decisions -/

theorem settles_judge {c : Contents} {w : World σ} {hooks : Hooks σ} (hc : c.Filled)
    (hh : hooks.Returns) {i j : ObjId} {a b : Object} (hw : w.Shows c)
    (ha : c i = some a.payload) (hb : c j = some b.payload) :
    Settles (judge hooks i a j b) w Verdict.Failed (c.Answers [] (i, j)) :=
  (judge_judged hc hh hw ha hb).mono fun _ h => h.answers (by simp)

/-- **The test decides.** In a world without null slots where no object is lent for
    writing, the test of two objects comes to a verdict. It is that they are equal just
    if every pair that can be reached from them agrees; that they are unequal only if one
    differs; and a failure only if one clashes, whose kinds it names. -/
theorem judge_decides {w : World σ} {hooks : Hooks σ} {i j : ObjId} {a b : Object}
    (hc : w.heap.contents.Filled) (hu : w.heap.Unwritten) (hh : hooks.Returns)
    (ha : w.heap.contents i = some a.payload) (hb : w.heap.contents j = some b.payload) :
    ∃ verdict w', judge hooks i a j b w = .ok verdict w' ∧
      (verdict = .equal ↔
        ∀ q, w.heap.contents.Reaches (i, j) q → w.heap.contents.Agrees q) ∧
      (verdict = .unequal →
        ∃ q, w.heap.contents.Reaches (i, j) q ∧ w.heap.contents.Differs q) ∧
      ∀ cause, verdict = .failed cause →
        ∃ q left right, w.heap.contents.Reaches (i, j) q ∧
          w.heap.contents.Clashes q left right ∧ cause.kind? = some .wrongType ∧
          cause.message = Bytes.ofString "'==' not supported between instances of " ++
            Bytes.quoted left.name ++ Bytes.ofString " and " ++ Bytes.quoted right.name := by
  obtain ⟨verdict, w', hx, hanswer, -⟩ := settles_judge hc hh ⟨rfl, hu⟩ ha hb
  refine ⟨verdict, w', hx, ?_⟩
  cases verdict with
  | equal =>
    simp only [Contents.Answers, Contents.reachesAround_nil] at hanswer
    exact ⟨⟨fun _ => hanswer, fun _ => rfl⟩, nofun, nofun⟩
  | unequal =>
    obtain ⟨q, hq, hd⟩ := hanswer
    refine ⟨⟨nofun, fun hall => ?_⟩, fun _ => ⟨q, hq, hd⟩, nofun⟩
    exact absurd (hall q hq) (Contents.not_agrees_of_differs hd)
  | failed cause =>
    obtain ⟨q, left, right, hq, hclash, rfl⟩ := hanswer
    refine ⟨⟨nofun, fun hall => ?_⟩, nofun, ?_⟩
    · exact absurd (hall q hq) (Contents.not_agrees_of_clashes hclash)
    · rintro _ ⟨⟩
      exact ⟨q, left, right, hq, hclash, rfl, rfl⟩

/-- Two lists each of which is its own only element. -/
def selfLists : World Unit where
  heap := ⟨#[some { payload := .list [some ⟨0⟩], type := none },
    some { payload := .list [some ⟨1⟩], type := none }]⟩
  host := ()

theorem filled_selfLists : selfLists.heap.contents.Filled := Heap.filled_of_cells (by decide)

theorem unwritten_selfLists : selfLists.heap.Unwritten := Heap.unwritten_of_cells (by decide)

/-- The only pair that is reached is the one to begin with. -/
theorem same_selfLists : selfLists.heap.contents.Same ⟨0⟩ ⟨1⟩ := by
  refine Contents.same_iff.2 ⟨fun i j => i = ⟨0⟩ ∧ j = ⟨1⟩, ⟨?_, ?_⟩, rfl, rfl⟩
  · rintro i j ⟨rfl, rfl⟩
    exact ⟨_, _, rfl, rfl, rfl, rfl, .inr rfl⟩
  · rintro i j k l ⟨rfl, rfl⟩ ⟨n, -, hls, hrs, -, hl, hr⟩
    cases hls
    cases hrs
    cases n <;> cases hl
    cases hr
    exact ⟨rfl, rfl⟩

theorem judge_selfLists : ∃ w', judge {} ⟨0⟩ { payload := .list [some ⟨0⟩], type := none }
    ⟨1⟩ { payload := .list [some ⟨1⟩], type := none } selfLists = .ok .equal w' := by
  have hh : Hooks.Returns ({} : Hooks Unit) := nofun
  obtain ⟨verdict, w', hx, hequal, -⟩ :=
    judge_decides filled_selfLists unwritten_selfLists hh
      (i := ⟨0⟩) (j := ⟨1⟩) (a := { payload := .list [some ⟨0⟩], type := none })
      (b := { payload := .list [some ⟨1⟩], type := none }) rfl rfl
  rw [hequal.2 same_selfLists] at hx
  exact ⟨w', hx⟩

end ValueEngine
