/-
  Value engine — equality by structure.

  Where no list reaches itself, the pairs that are under way never matter: the test comes to
  the verdict of the plain recursion over the two lists, which is that of the leftmost
  difference, at whatever depth it stands. Lists may be shared at will.

  * `Contents.Structural`: the verdict of the plain recursion.
  * `Contents.Unwound`: nothing that is reached through lists reaches itself.
  * `Judged.structural`: on such objects no pair is met under way.
  * `judge_structural`: the test and the plain recursion come to one verdict.
-/
import ValueEngine.Proofs.Equality.Rules

namespace ValueEngine

variable {σ : Type}

namespace Contents

/-! ## Plain recursion -/

/-- The verdict of the plain recursion: the kinds first, then whether there is but one
    object, then the value; lists by their length, then from left to right up to the first
    pair of elements that is not equal, whose verdict it is. -/
inductive Structural (c : Contents) : Pair → Verdict → Prop
  | outright {p verdict} : c.outright? p = some verdict → Structural c p verdict
  | elements {p} : c.Paired p → (∀ n q, c.At n p q → Structural c q .equal) →
      Structural c p .equal
  | first {p n q verdict} : c.Paired p → (∀ m r, m < n → c.At m p r → Structural c r .equal) →
      c.At n p q → Structural c q verdict → verdict ≠ .equal → Structural c p verdict

variable {c : Contents} {p q : Pair} {i j : ObjId} {pairs : List Pair} {v v' : Verdict}

/-- The plain recursion comes to one verdict. -/
theorem Structural.unique (h : c.Structural p v) (h' : c.Structural p v') : v = v' := by
  induction h generalizing v' with
  | outright ho =>
    cases h' with
    | outright ho' => exact Option.some.inj (ho.symm.trans ho')
    | elements hp => rw [hp.not_outright] at ho; cases ho
    | first hp => rw [hp.not_outright] at ho; cases ho
  | elements hp _ ih =>
    cases h' with
    | outright ho' => rw [hp.not_outright] at ho'; cases ho'
    | elements => rfl
    | first _ _ hat hq => exact ih _ _ hat hq
  | @first p n q v hp _ hat _ hne ihequal ih =>
    cases h' with
    | outright ho' => rw [hp.not_outright] at ho'; cases ho'
    | elements _ hall => exact ih (hall n q hat)
    | @first _ n' q' v' _ hequal' hat' hq' hne' =>
      obtain hlt | rfl | hlt := Nat.lt_trichotomy n n'
      · exact absurd (ih (hequal' n q hlt hat)) hne
      · exact ih (hat.eq hat' ▸ hq')
      · exact absurd (ihequal n' q' hlt hat' hq').symm hne'

/-! ## Lists that do not reach themselves -/

/-- An object is an element of a list. -/
def Nests (c : Contents) (i j : ObjId) : Prop := ∃ ls, c i = some (.list ls) ∧ some j ∈ ls

/-- No list that is reached through lists from an object reaches itself through lists. -/
def Unwound (c : Contents) (i : ObjId) : Prop :=
  ∀ k, Relation.ReflTransGen c.Nests i k → ¬Relation.TransGen c.Nests k k

theorem nests_of_child (h : c.Child p q) : c.Nests p.1 q.1 ∧ c.Nests p.2 q.2 := by
  obtain ⟨n, -, hl, hr, -, hk, hm⟩ := h
  exact ⟨⟨_, hl, List.mem_of_getElem? hk⟩, _, hr, List.mem_of_getElem? hm⟩

/-- Where lists do not reach themselves on one side, pairs do not either. -/
theorem not_transGen_child (h : c.Unwound i ∨ c.Unwound j) (hp : c.Reaches (i, j) p) :
    ¬Relation.TransGen c.Child p p := by
  intro hcycle
  obtain h | h := h
  · exact h p.1 (hp.lift Prod.fst fun _ _ hq => (nests_of_child hq).1)
      (hcycle.lift Prod.fst fun _ _ hq => (nests_of_child hq).1)
  · exact h p.2 (hp.lift Prod.snd fun _ _ hq => (nests_of_child hq).2)
      (hcycle.lift Prod.snd fun _ _ hq => (nests_of_child hq).2)

/-- **No pair is met under way** where pairs do not reach themselves, since those that are
    under way all reach the pair that is tested. -/
theorem Judged.structural (h : c.Judged pairs p v)
    (hpairs : ∀ q ∈ pairs, Relation.TransGen c.Child q p)
    (hacyclic : ∀ q, c.Reaches p q → ¬Relation.TransGen c.Child q q) : c.Structural p v := by
  -- what is under way for the elements, and that nothing reaches itself from them either
  have helement : ∀ {pairs p q n}, c.Paired p → c.At n p q →
      (∀ q ∈ pairs, Relation.TransGen c.Child q p) →
      (∀ q, c.Reaches p q → ¬Relation.TransGen c.Child q q) →
      (∀ r ∈ p :: pairs, Relation.TransGen c.Child r q) ∧
        ∀ r, c.Reaches q r → ¬Relation.TransGen c.Child r r := by
    intro pairs p q n hp hat hpairs hacyclic
    have hchild : c.Child p q := hp.child hat
    refine ⟨fun r hr => ?_, fun r hr => hacyclic r (.head hchild hr)⟩
    obtain rfl | hr := List.mem_cons.1 hr
    · exact .single hchild
    · exact (hpairs r hr).tail hchild
  induction h with
  | outright ho => exact .outright ho
  | @underWay pairs p _ hmem => exact absurd (hpairs p hmem) (hacyclic p .refl)
  | elements hp _ _ ih =>
    refine .elements hp fun n q hat => ?_
    obtain ⟨hpairs', hacyclic'⟩ := helement hp hat hpairs hacyclic
    exact ih n q hat hpairs' hacyclic'
  | first hp _ _ hat _ hne ihequal ih =>
    obtain ⟨hpairs', hacyclic'⟩ := helement hp hat hpairs hacyclic
    refine .first hp (fun m r hm hr => ?_) hat (ih hpairs' hacyclic') hne
    obtain ⟨hpairs'', hacyclic''⟩ := helement hp hr hpairs hacyclic
    exact ihequal m r hm hr hpairs'' hacyclic''

end Contents

/-- **Equality goes by structure** where lists do not reach themselves. In a world without
    null slots where no object is lent for writing, if no list that is reached from one of
    two objects reaches itself, the test comes to the verdict of the plain recursion, with
    its failure. So the leftmost pair of elements that is not equal decides, whether by a
    difference or by kinds that cannot be compared. -/
theorem judge_structural {w : World σ} {hooks : Hooks σ} {i j : ObjId} {a b : Object}
    (hc : w.heap.contents.Filled) (hu : w.heap.Unwritten) (hh : hooks.Returns)
    (ha : w.heap.contents i = some a.payload) (hb : w.heap.contents j = some b.payload)
    (hacyclic : w.heap.contents.Unwound i ∨ w.heap.contents.Unwound j) :
    ∃ verdict w', judge hooks i a j b w = .ok verdict w' ∧
      (∀ v, w.heap.contents.Structural (i, j) v ↔ v = verdict) ∧
      ∀ n q v, w.heap.contents.Paired (i, j) →
        (∀ m r, m < n → w.heap.contents.At m (i, j) r →
          w.heap.contents.Structural r .equal) →
        w.heap.contents.At n (i, j) q → w.heap.contents.Structural q v → v ≠ .equal →
        verdict = v := by
  obtain ⟨verdict, w', hx, hjudged, -⟩ := judge_judged hc hh ⟨rfl, hu⟩ ha hb
  have hverdict : w.heap.contents.Structural (i, j) verdict :=
    hjudged.structural (by simp) fun q hq => Contents.not_transGen_child hacyclic hq
  refine ⟨verdict, w', hx, fun v => ⟨fun hv => hv.unique hverdict, ?_⟩, ?_⟩
  · rintro rfl
    exact hverdict
  · intro n q v hp hearlier hat hq hne
    exact hverdict.unique (.first hp hearlier hat hq hne)

/-- Lists that share elements, with a difference and a clash of kinds on two levels: in the
    first two lists the difference comes first, in the fifth and sixth the clash does. -/
def sharedLists : World Unit where
  heap := ⟨#[some { payload := .list [some ⟨2⟩], type := none },
    some { payload := .list [some ⟨3⟩], type := none },
    some { payload := .list [some ⟨6⟩, some ⟨6⟩, some ⟨8⟩, some ⟨9⟩], type := none },
    some { payload := .list [some ⟨7⟩, some ⟨7⟩, some ⟨10⟩, some ⟨11⟩], type := none },
    some { payload := .list [some ⟨6⟩, some ⟨9⟩, some ⟨8⟩], type := none },
    some { payload := .list [some ⟨7⟩, some ⟨11⟩, some ⟨10⟩], type := none },
    some { payload := .list [some ⟨8⟩], type := none },
    some { payload := .list [some ⟨8⟩], type := none },
    some { payload := .integer 1, type := none },
    some { payload := .integer 2, type := none },
    some { payload := .integer 3, type := none },
    some { payload := .string (.ofString "s"), type := none }]⟩
  host := ()

/-- In them every element was made after its list. -/
theorem unwound_sharedLists (i : ObjId) : sharedLists.heap.contents.Unwound i := by
  have hlater : ∀ i j, sharedLists.heap.contents.Nests i j → i.index < j.index := by
    rintro i j ⟨ls, hls, hj⟩
    obtain ⟨o, ho, ho'⟩ := Option.map_eq_some_iff.1 hls
    have hall : ∀ i : Fin 12, ∀ r ∈ ((sharedLists.heap.get? ⟨i⟩).map fun o =>
        o.payload.slots).getD [], ∀ j ∈ r, i.1 < j.index := by decide
    refine hall ⟨i.index, Heap.lt_size_of_get? ho⟩ (some j) ?_ j rfl
    show some j ∈ ((sharedLists.heap.get? i).map fun o => o.payload.slots).getD []
    rw [ho, Option.map_some, ho', Option.getD_some]
    exact hj
  intro k _ hcycle
  have hlt := hcycle.lift ObjId.index hlater
  rw [Relation.transGen_eq_self] at hlt
  exact Nat.lt_irrefl _ hlt

/-- A difference before a clash is a difference, and a clash before a difference is a
    failure. -/
theorem judge_structural_sharedLists :
    (∃ w', judge {} ⟨0⟩ { payload := .list [some ⟨2⟩], type := none }
      ⟨1⟩ { payload := .list [some ⟨3⟩], type := none } sharedLists = .ok .unequal w') ∧
    ∃ w', judge {} ⟨4⟩ { payload := .list [some ⟨6⟩, some ⟨9⟩, some ⟨8⟩], type := none }
      ⟨5⟩ { payload := .list [some ⟨7⟩, some ⟨11⟩, some ⟨10⟩], type := none } sharedLists =
        .ok (.failed (.incomparable .integer .string)) w' := by
  have hc : sharedLists.heap.contents.Filled := Heap.filled_of_cells (by decide)
  have hu : sharedLists.heap.Unwritten := Heap.unwritten_of_cells (by decide)
  have hh : Hooks.Returns ({} : Hooks Unit) := nofun
  -- the two lists of one element each, which they share
  have hshared : sharedLists.heap.contents.Structural (⟨6⟩, ⟨7⟩) .equal := by
    refine .elements ⟨_, _, by decide, rfl, rfl, rfl⟩ fun n q hat => ?_
    cases n with
    | zero =>
      have hone : sharedLists.heap.contents.At 0 (⟨6⟩, ⟨7⟩) (⟨8⟩, ⟨8⟩) :=
        ⟨_, _, rfl, rfl, rfl, rfl⟩
      rw [hat.eq hone]
      exact .outright rfl
    | succ n =>
      obtain ⟨_, _, hl, -, hk, -⟩ := hat
      cases hl
      cases hk
  have hinner : sharedLists.heap.contents.Structural (⟨2⟩, ⟨3⟩) .unequal := by
    refine .first (n := 2) (q := (⟨8⟩, ⟨10⟩)) ⟨_, _, by decide, rfl, rfl, rfl⟩ ?_
      ⟨_, _, rfl, rfl, rfl, rfl⟩ (.outright rfl) nofun
    intro m r hm hat
    have hearlier : sharedLists.heap.contents.At m (⟨2⟩, ⟨3⟩) (⟨6⟩, ⟨7⟩) := by
      obtain rfl | rfl : m = 0 ∨ m = 1 := by omega
      · exact ⟨_, _, rfl, rfl, rfl, rfl⟩
      · exact ⟨_, _, rfl, rfl, rfl, rfl⟩
    rwa [hat.eq hearlier]
  constructor
  · obtain ⟨verdict, w', hx, -, hfirst⟩ :=
      judge_structural hc hu hh (i := ⟨0⟩) (j := ⟨1⟩)
        (a := { payload := .list [some ⟨2⟩], type := none })
        (b := { payload := .list [some ⟨3⟩], type := none }) rfl rfl (.inl (unwound_sharedLists _))
    have hverdict := hfirst 0 (⟨2⟩, ⟨3⟩) .unequal ⟨_, _, by decide, rfl, rfl, rfl⟩
      (fun m _ hm => absurd hm (Nat.not_lt_zero m)) ⟨_, _, rfl, rfl, rfl, rfl⟩ hinner nofun
    exact ⟨w', hverdict ▸ hx⟩
  · obtain ⟨verdict, w', hx, -, hfirst⟩ :=
      judge_structural hc hu hh (i := ⟨4⟩) (j := ⟨5⟩)
        (a := { payload := .list [some ⟨6⟩, some ⟨9⟩, some ⟨8⟩], type := none })
        (b := { payload := .list [some ⟨7⟩, some ⟨11⟩, some ⟨10⟩], type := none }) rfl rfl
        (.inl (unwound_sharedLists _))
    have hverdict := hfirst 1 (⟨9⟩, ⟨11⟩) (.failed (.incomparable .integer .string))
      ⟨_, _, by decide, rfl, rfl, rfl⟩ (fun m r hm hat => by
        obtain rfl : m = 0 := by omega
        have hearlier : sharedLists.heap.contents.At 0 (⟨4⟩, ⟨5⟩) (⟨6⟩, ⟨7⟩) :=
          ⟨_, _, rfl, rfl, rfl, rfl⟩
        rwa [hat.eq hearlier])
      ⟨_, _, rfl, rfl, rfl, rfl⟩ (.outright rfl) nofun
    exact ⟨w', hverdict ▸ hx⟩

end ValueEngine
