/-
  Value engine — texts through guards.

  A guard shows its object without a further loan, but what the object holds is lent slot by
  slot, before it is known whether it is under way already. So the text through a guard is
  the one that the object has when nobody has anything, with one exception: an object that
  reaches itself is lent to itself, which a guard for writing stands in the way of.

  * `Guard.text`: the text of an object as its guard shows it.
  * `lends_iff_not_reaches`: the slots of all that is reached are lent, unless the object
    is among them and shut.
  * `textOf_of_text`: a text that is there at all is the one that nobody's loans change.
  * `text_through_guard`: the text through a guard, or the conflict.
-/
import ValueEngine.Proofs.Loans.Transparency
import ValueEngine.Proofs.Rendering.Refusal

namespace ValueEngine

variable {σ : Type}

/-- The text of an object as its guard shows it. -/
def Guard.text (g : Guard) : Action σ Bytes := do
  let (i, o) ← g.object
  textOf i o

section Guarded

variable {w : World σ} {gs : List Guard} {g : Guard} {i : ObjId} {o : Object} {text : Bytes}

theorem Guard.text_eq (hi : g.held = some i) (ho : w.heap.get? i = some o) :
    g.text w = textOf i o w := Action.bind_of_ok (g.object_eq hi ho) _

/-! ## Loans -/

theorem Loan.one_lighter {l : Loan} (h : l ≠ .free) : (shared 1).Lighter l := by
  cases l with
  | shared n =>
    refine Loan.lighter_shared.2 (Nat.pos_of_ne_zero fun hn => h ?_)
    rw [hn]
    rfl
  | exclusive => exact Loan.lighter_exclusive _

/-- What a guard holds is lent. -/
theorem Exact.loan_ne_free (he : Exact gs w.heap) (hg : g ∈ gs) (hi : g.held = some i)
    (ho : w.heap.get? i = some o) : o.loan ≠ .free := by
  intro hfree
  have htally := he.loans i o ho
  rw [hfree] at htally
  have hzero : Guard.tally gs i g.access = 0 := by
    cases g.access
    · exact htally.1
    · exact htally.2
  refine List.count_eq_zero.1 hzero ?_
  rwa [← hi]

/-- The contents are the same with nobody having any object. -/
theorem Heap.contents_unlent (h : Heap) : h.unlent.contents = h.contents := by
  funext i
  simp only [contents, get?_unlent, Option.map_map]
  rfl

/-! ## What is lent on the way -/

/-- **The slots of all that is reached are lent** unless the object of a writer reaches
    itself, if nobody else writes. -/
theorem lends_iff_not_reaches {c : Contents} {shut : ObjId → Prop} (writes : Prop)
    (hshut : ∀ k, shut k ↔ k = i ∧ writes)
    (hfilled : ∀ j a, Relation.ReflTransGen c.Holds i j → c j = some a →
      ∀ r ∈ a.slots, (r.bind c).isSome) :
    (∀ k, Relation.ReflTransGen c.Holds i k → c.Lends shut k) ↔
      ¬(writes ∧ Relation.TransGen c.Holds i i) := by
  constructor
  · rintro hlends ⟨hwrites, hcycle⟩
    obtain ⟨k, hk, a, ha, hslot⟩ := Relation.TransGen.tail'_iff.1 hcycle
    obtain ⟨_, hi, -, hopen⟩ := hlends k hk a ha _ hslot
    cases hi
    exact hopen ((hshut i).2 ⟨rfl, hwrites⟩)
  · intro hno k hk a ha r hr
    obtain ⟨b, hb⟩ := Option.isSome_iff_exists.1 (hfilled k a hk ha r hr)
    obtain ⟨j, rfl, hj⟩ := Option.bind_eq_some_iff.1 hb
    refine ⟨j, rfl, by rw [hj]; rfl, fun hs => ?_⟩
    obtain ⟨rfl, hwrites⟩ := (hshut j).1 hs
    exact hno ⟨hwrites, .tail' hk ⟨a, ha, hr⟩⟩

/-! ## Texts -/

/-- The world in which an object is lent to a single reader and nothing else is lent is
    lighter than any in which a guard holds the object. -/
theorem lent_once_lighter (ho : w.heap.get? i = some o) (hloan : o.loan ≠ .free) :
    (w.unlent.lent i { o with loan := .free } (.shared 1)).Lighter w := by
  refine ⟨⟨by simp [World.lent, World.unlent], fun j => ?_⟩, rfl, rfl, rfl⟩
  by_cases hji : j = i
  · subst hji
    have hfree : w.unlent.heap.get? j = some { o with loan := .free } := by
      rw [World.unlent, Heap.get?_unlent, ho]
      rfl
    rw [World.get?_lent_self hfree, ho]
    exact .some ⟨_, rfl, Loan.one_lighter hloan⟩
  · rw [World.lent, Heap.get?_set_of_ne hji]
    exact w.unlent_lighter.heap.objects j

/-- **Whatever text there is** is the one that the object has when nobody has anything, and
    there is none only for a conflict between loans. -/
theorem textOf_of_text (ho : w.heap.get? i = some o) (hloan : o.loan ≠ .free)
    (htext : Ref.text (some i) w.unlent = .ok text w.unlent) :
    (∀ text' w', textOf i o w = .ok text' w' → text' = text) ∧
      ∀ e w', textOf i o w = .error e w' → e.isLoanConflict = true := by
  have hfree : w.unlent.heap.get? i = some { o with loan := .free } := by
    rw [World.unlent, Heap.get?_unlent, ho]
    rfl
  have hread : lend .read (some i) textOf w.unlent = .ok text w.unlent := htext
  rw [lend_of_granted hfree rfl] at hread
  have hprocedure : Procedure (fun _ => False) False (textOf i o : Action σ Bytes) :=
    (textOf_values i o).procedure
  have htransparent : Transparent (textOf i o : Action σ Bytes) := hprocedure.transparent False.elim
  have h := htransparent _ w (lent_once_lighter ho hloan)
  -- the same run in the lighter world comes to the text
  have hone : ∃ v, textOf i o (w.unlent.lent i { o with loan := .free } (.shared 1)) =
      .ok text v := by
    rw [(textOf_sees i).loan, (textOf_sees i).loan] at hread
    show ∃ v, textOf i o { w.unlent with
      heap := w.unlent.heap.set i { o with loan := .shared 1 } } = .ok text v
    split at hread
    · rename_i t v ht
      obtain ⟨rfl, -⟩ := EStateM.Result.ok.inj hread
      exact ⟨v, ht⟩
    · cases hread
  obtain ⟨v, hv⟩ := hone
  constructor
  · intro text' w' hok
    rw [hok] at h
    obtain ⟨v', hv', -⟩ := h
    cases hv.symm.trans hv'
    rfl
  · intro e w' herror
    rw [herror] at h
    obtain hconflict | ⟨v', hv', -⟩ := h
    · exact hconflict
    · cases hv.symm.trans hv'

end Guarded

/-- **Texts through guards.** Where all loans are those of guards, no slot that is reached
    from the object of one of them is null, and no other guard is for writing, the object
    has a text when nobody has anything. The guard shows the same text if it is for reading
    or its object does not reach itself. To a writer an object that reaches itself shows no
    text, and the rendering is left for the conflict with the guard itself. Nothing is
    changed in any case. -/
theorem text_through_guard {w : World σ} {gs : List Guard} {g : Guard} {i : ObjId}
    (he : Exact gs w.heap) (hg : g ∈ gs) (hi : g.held = some i)
    (hothers : ∀ g' ∈ gs, ∀ j, g'.held = some j → g'.access = .write → g' = g)
    (hfilled : ∀ j a, Relation.ReflTransGen w.heap.contents.Holds i j →
      w.heap.contents j = some a → ∀ r ∈ a.slots, (r.bind w.heap.contents).isSome) :
    ∃ text, Ref.text (some i) w.unlent = .ok text w.unlent ∧
      (g.access = .read ∨ ¬Relation.TransGen w.heap.contents.Holds i i →
        g.text w = .ok text w) ∧
      (g.access = .write → Relation.TransGen w.heap.contents.Holds i i →
        g.text w = .error .exclusivelyLent w) := by
  obtain ⟨o, ho⟩ := Option.isSome_iff_exists.1 (he.held g hg i hi)
  -- with nobody having anything all can be read
  have hcontents : w.unlent.heap.contents = w.heap.contents := w.heap.contents_unlent
  have hfree : (w.unlent.heap.get? i).isSome := by
    rw [World.unlent, Heap.get?_unlent, ho]
    rfl
  have hreadable : w.unlent.Readable i := by
    refine (World.readable_iff_lends hfree).2 ⟨?_, ?_⟩
    · rintro ⟨p, hp, hl⟩
      rw [World.unlent, Heap.get?_unlent, ho] at hp
      cases hp
      cases hl
    · rw [hcontents]
      refine (lends_iff_not_reaches False (fun k => ?_) hfilled).2 (by simp)
      refine iff_of_false ?_ fun h => h.2
      rintro ⟨p, hp, hl⟩
      rw [World.unlent, Heap.get?_unlent] at hp
      obtain ⟨q, -, rfl⟩ := Option.map_eq_some_iff.1 hp
      cases hl
  obtain ⟨-, text, htext⟩ | ⟨hno, -⟩ := text_cases hfree
  swap
  · exact absurd hreadable hno
  -- the guard is the only one in the way
  have hshut : ∀ k, (∃ o, w.heap.get? k = some o ∧ o.loan = .exclusive) ↔
      k = i ∧ g.access = .write := by
    intro k
    constructor
    · rintro ⟨p, hp, hl⟩
      have hwriter := hothers _ ((he.exclusive_iff hp).1 hl) k rfl rfl
      rw [← hwriter] at hi ⊢
      exact ⟨Option.some.inj hi, rfl⟩
    · rintro ⟨rfl, hwrite⟩
      refine ⟨o, ho, (he.exclusive_iff ho).2 ?_⟩
      rwa [← hi, ← hwrite]
  have hlends := lends_iff_not_reaches _ hshut hfilled
  obtain ⟨hsame, hconflict⟩ := textOf_of_text ho (he.loan_ne_free hg hi ho) htext
  have hcases := textOf_cases w.looks (Heap.contents_of_get? ho)
  rw [hlends, ← Guard.text_eq hi ho] at hcases
  rw [← Guard.text_eq hi ho] at hsame hconflict
  refine ⟨text, htext, fun h => ?_, fun hwrite hcycle => ?_⟩
  · obtain ⟨-, text', hok⟩ | ⟨hno, -⟩ := hcases
    · rw [hok, hsame text' w hok]
    · refine absurd (fun hboth => ?_) hno
      obtain hread | hacyclic := h
      · rw [hread] at hboth
        cases hboth.1
      · exact hacyclic hboth.2
  · obtain ⟨hno, -⟩ | ⟨-, e, herror, rfl | rfl⟩ := hcases
    · exact absurd ⟨hwrite, hcycle⟩ hno
    · exact herror
    · cases hconflict _ w herror

/-- A list that holds a dictionary, which holds a tuple, which holds the list. -/
def knot : World Unit where
  heap := ⟨#[some { payload := .list [some ⟨1⟩], type := none },
    some { payload := .dict [([97], some ⟨2⟩)], type := none },
    some { payload := .tuple [some ⟨0⟩], type := none }]⟩
  host := ()

/-- The knot with its list lent to one guard. -/
def heldKnot (loan : Loan) : World Unit :=
  knot.lent ⟨0⟩ { payload := .list [some ⟨1⟩], type := none } loan

theorem unlent_knot : knot.unlent = knot := by simp [World.unlent, Heap.unlent, knot, Loan.free]

theorem unlent_heldKnot (loan : Loan) : (heldKnot loan).unlent = knot := by
  simp [World.unlent, Heap.unlent, heldKnot, World.lent, Heap.set, knot, Loan.free]

theorem exact_heldKnot (access : Access) {loan : Loan} (h : access.acquire .free = .ok loan) :
    Exact [{ held := some ⟨0⟩, access }] (heldKnot loan).heap := by
  have hfree : Exact [] knot.unlent.heap := exact_unlent knot.heap
  rw [unlent_knot] at hfree
  exact hfree.acquire (i := ⟨0⟩) (o := { payload := .list [some ⟨1⟩], type := none }) rfl h

theorem filled_heldKnot (loan : Loan) : (heldKnot loan).heap.contents.Filled := by
  rw [heldKnot, World.contents_lent rfl]
  exact Heap.filled_of_cells (by decide)

/-- Round the knot there are three steps. -/
theorem heldKnot_reaches (loan : Loan) :
    Relation.TransGen (heldKnot loan).heap.contents.Holds ⟨0⟩ ⟨0⟩ := by
  rw [heldKnot, World.contents_lent rfl]
  have h₁ : knot.heap.contents.Holds ⟨0⟩ ⟨1⟩ := ⟨_, rfl, by decide⟩
  have h₂ : knot.heap.contents.Holds ⟨1⟩ ⟨2⟩ := ⟨_, rfl, by decide⟩
  have h₃ : knot.heap.contents.Holds ⟨2⟩ ⟨0⟩ := ⟨_, rfl, by decide⟩
  exact .head h₁ (.head h₂ (.single h₃))

/-- To a reader the knot shows as an ellipsis inside itself, to a writer it shows not at
    all. -/
theorem text_through_guard_heldKnot :
    Guard.text { held := some ⟨0⟩, access := .read } (heldKnot (.shared 1)) =
        .ok (.ofString "[\x7b'a': \x7b[...]\x7d\x7d]") (heldKnot (.shared 1)) ∧
      Guard.text { held := some ⟨0⟩, access := .write } (heldKnot .exclusive) =
        .error .exclusivelyLent (heldKnot .exclusive) := by
  have hfilled := fun loan j a
    (_ : Relation.ReflTransGen (heldKnot loan).heap.contents.Holds ⟨0⟩ j) =>
      filled_heldKnot loan j a
  constructor
  · obtain ⟨text, htext, hshown, -⟩ :=
      text_through_guard (exact_heldKnot .read rfl) (List.mem_singleton_self _) rfl
        (fun _ hg _ _ _ => List.mem_singleton.1 hg) (hfilled _)
    have hunlent : Ref.text (some ⟨0⟩) (heldKnot (.shared 1)).unlent =
        .ok (.ofString "[\x7b'a': \x7b[...]\x7d\x7d]") (heldKnot (.shared 1)).unlent := by
      rw [unlent_heldKnot]
      rfl
    cases htext.symm.trans hunlent
    exact hshown (.inl rfl)
  · obtain ⟨text, -, -, hrefused⟩ :=
      text_through_guard (exact_heldKnot .write rfl) (List.mem_singleton_self _) rfl
        (fun _ hg _ _ _ => List.mem_singleton.1 hg) (hfilled _)
    exact hrefused rfl (heldKnot_reaches _)

/-- **A guard for writing does re-enter its own loan**: the knot has a text when nobody has
    it, and none for the only guard there is. -/
theorem text_refused_to_writer :
    Exact [{ held := some ⟨0⟩, access := .write }] (heldKnot .exclusive).heap ∧
      (heldKnot .exclusive).heap.contents.Filled ∧
      Ref.text (some ⟨0⟩) (heldKnot .exclusive).unlent =
        .ok (.ofString "[\x7b'a': \x7b[...]\x7d\x7d]") (heldKnot .exclusive).unlent ∧
      Guard.text { held := some ⟨0⟩, access := .write } (heldKnot .exclusive) =
        .error .exclusivelyLent (heldKnot .exclusive) := by
  refine ⟨exact_heldKnot .write rfl, filled_heldKnot _, ?_, rfl⟩
  rw [unlent_heldKnot]
  rfl

end ValueEngine
