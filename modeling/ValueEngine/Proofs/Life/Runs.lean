/-
  Value engine — references over whole runs of a script.

  In every session that a script comes to, what can be counted is what there is: an
  object has as many references as registers, guards, the engine and live objects have to
  it; it is there just if that is at least one. What a step leaves behind is reclaimed,
  and in which order that is done, or registers are dropped, does not matter.

  * `Session.Accounted`: sessions in which the references add up.
  * `Heap.Reclaimed`: a heap after the objects that have lost their references.
  * `Reached.accounted`, `runSingle_reclaimed`: after every step.
  * `runAll_unbind`: dropping registers, in as many steps as one likes.
  * `references_exact_over_runs`: all of this together.
-/
import ValueEngine.Proofs.Life.Counts
import ValueEngine.Proofs.Soundness.Sessions

namespace ValueEngine

open Relation

/-- A heap without the objects that have lost their references: what is left is what can
    be reached from a root or a circle, as it was; one comes to it by reclaiming objects
    without a reference one at a time, and whoever does so comes to it in the end. -/
structure Heap.Reclaimed (roots : List ObjId) (h h' : Heap) : Prop where
  live_iff : ∀ i, h'.Live i ↔ h.Kept roots i
  get? : ∀ i, h'.Live i → h'.get? i = h.get? i
  frees : ReflTransGen (Frees roots) h h'
  ends : ∀ h₁, ReflTransGen (Frees roots) h h₁ → (∀ h₂, ¬Frees roots h₁ h₂) → h₁ = h'

theorem Heap.reclaimed_collect (h : Heap) (roots : List ObjId) :
    Reclaimed roots h (h.collect roots) where
  live_iff _ := live_collect_iff
  get? _ hi := (within_collect h roots).get?_of_live hi
  frees := frees_collect h roots
  ends h₁ hfrees hend := by
    refine collect_of_frees hfrees fun i hi => Nat.one_le_iff_ne_zero.2 fun hzero => ?_
    exact hend _ ⟨i, hi, hzero, rfl⟩

namespace Script.Session

variable {s : Session}

/-- A session in which the references add up: an object has as many as the session and
    the live objects have to it, which is what a script is told, and it is live just if
    that is at least one. -/
structure Accounted (s : Session) : Prop where
  count : ∀ i, s.world.heap.referenceCount s.roots i = s.mentions i + s.world.heap.mentions i
  live_iff : ∀ i, s.world.heap.Live i ↔ 1 ≤ s.mentions i + s.world.heap.mentions i
  canonical : ∀ i ∈ canonicalIds, s.world.heap.Live i
  told : ∀ name i, s.scope.resolve name = some i → (runStep (.referenceCount name) s).1 =
    .of (.number (s.mentions i + s.world.heap.mentions i : Nat)) [] []

theorem referenceCount_eq_mentions (s : Session) (i : ObjId) :
    s.world.heap.referenceCount s.roots i = s.mentions i + s.world.heap.mentions i := by
  rw [Heap.referenceCount_eq, count_roots]

/-- After each step every object is referred to. -/
theorem Reached.held (hs : s.Reached) : s.world.heap.Held s.roots := by
  cases hs with
  | start =>
    intro i hi
    have hids : ∀ i ∈ Heap.initial.ids, i ∈ canonicalIds := by decide
    exact List.mem_append_left _ (canonicalIds_subset_roots _ i (hids i (Heap.mem_ids.2 hi)))
  | step hs one =>
    rw [runSingle_eq_collected]
    exact Heap.held_collect _ _

/-- What a sound session or a live object refers to is live. -/
theorem Sound.live_of_mem_holders (hs : s.Sound) {i : ObjId}
    (hi : i ∈ s.world.heap.holders s.roots) : s.world.heap.Live i := by
  rcases Heap.mem_holders.1 hi with hroot | ⟨j, o, ho, hj⟩
  · simp only [roots, List.mem_append, List.mem_filterMap] at hroot
    rcases hroot with (hi | ⟨r, hr, hri⟩) | ⟨g, hg, hgi⟩
    · exact hs.world.heap.canonical i hi
    · have hadmits := hs.scope r hr
      rwa [show r = some i from hri] at hadmits
    · exact hs.guards g hg i hgi
  · exact hs.world.heap.live_of_mem_references ho hj

theorem Reached.accounted (hs : s.Reached) : s.Accounted where
  count := s.referenceCount_eq_mentions
  live_iff i := by
    rw [← referenceCount_eq_mentions]
    constructor
    · exact Heap.held_iff_forall_referenceCount.1 hs.held i
    · intro hpos
      refine hs.sound.live_of_mem_holders (Classical.byContradiction fun hnot => ?_)
      rw [Heap.referenceCount_eq_zero_iff.2 hnot] at hpos
      exact absurd hpos (by decide)
  canonical := hs.sound.world.heap.canonical
  told name i hname := by
    rw [← referenceCount_eq_mentions]
    show (s.cleared.runSingle (.referenceCount name)).1 = _
    have hperform : perform s.cleared (.referenceCount name) s.cleared.world =
        .ok (.number (s.world.heap.referenceCount s.roots i), id) s.cleared.world := by
      show EStateM.Result.ok (Reply.number ((s.scope.resolve name).elim 0 _), id) _ = _
      rw [hname]
      rfl
    unfold runSingle
    rw [hperform]
    rfl

/-- What a step leaves behind is reclaimed, and it takes no object away itself. -/
theorem runSingle_reclaimed (s : Session) (one : Step) :
    Heap.Reclaimed (s.performed one).roots (s.performed one).world.heap
      (s.runSingle one).2.world.heap := by
  rw [runSingle_eq_collected]
  exact Heap.reclaimed_collect _ _

/-! ## Dropping registers -/

theorem unbind_append (names names' : List Bytes) (s : Session) :
    s.unbind (names ++ names') = (s.unbind names).unbind names' := by
  simp [unbind]

theorem unbind_perm {names names' : List Bytes} (hp : names.Perm names') (s : Session) :
    s.unbind names = s.unbind names' := by
  simp only [unbind]
  rw [hp.foldl_eq' fun a _ b _ t => Table.erase_comm a b t]

theorem roots_unbind_subset (names : List Bytes) (s : Session) :
    ∀ i ∈ (s.unbind names).roots, i ∈ s.roots := by
  intro i hi
  simp only [roots, List.mem_append, List.mem_filterMap] at hi ⊢
  rcases hi with (hi | ⟨r, hr, hri⟩) | hi
  · exact .inl (.inl hi)
  · exact .inl (.inr ⟨r, mem_values_of_foldl_erase names hr, hri⟩)
  · exact .inr hi

theorem collected_unbind_collected (names : List Bytes) (s : Session) :
    (s.collected.unbind names).collected = (s.unbind names).collected := by
  have hheap : (s.world.heap.collect s.roots).collect (s.unbind names).roots =
      s.world.heap.collect (s.unbind names).roots :=
    Heap.collect_collect (roots_unbind_subset names s)
  show ({ s.unbind names with
    world.heap := (s.world.heap.collect s.roots).collect (s.unbind names).roots } : Session) = _
  rw [hheap]
  rfl

/-- Registers may be dropped in one step or in many. -/
theorem runAll_unbind (names : List Bytes) (groups : List (List Bytes)) (s : Session) :
    (runAll ((names :: groups).map .unbind) s).2 =
      (s.cleared.unbind (names ++ groups.flatten)).collected := by
  induction groups generalizing names s with
  | nil =>
    rw [List.flatten_nil, List.append_nil]
    rfl
  | cons next groups ih =>
    show (runAll ((next :: groups).map .unbind) (s.cleared.unbind names).collected).2 = _
    rw [ih, List.flatten_cons, unbind_append names]
    exact collected_unbind_collected _ (s.cleared.unbind names)

/-- **References are exact over whole runs.** In every session that a script comes to, the
    references to an object are those from registers, guards, the engine and the live
    objects, which is what a script is told; there is at least one to each live object,
    and none to what is gone. A step takes no object away but those that lose their last
    reference by it, and what they alone refer to: circles and what hangs on them stay.
    Registers that are dropped one by one or many at once, in any order, leave the same
    session. -/
theorem references_exact_over_runs :
    (∀ steps, Reached (runAll steps .initial).2) ∧
    (∀ s, Reached s → s.Accounted ∧ ∀ one : Step,
      Survives s.world (s.cleared.performed one).world ∧
      Heap.Reclaimed (s.cleared.performed one).roots (s.cleared.performed one).world.heap
        (s.cleared.runSingle one).2.world.heap) ∧
    ∀ (s : Session) (names names' : List Bytes) (groups groups' : List (List Bytes)),
      (names ++ groups.flatten).Perm (names' ++ groups'.flatten) →
      (runAll ((names :: groups).map .unbind) s).2 =
        (runAll ((names' :: groups').map .unbind) s).2 := by
  refine ⟨fun steps => Reached.start.runAll steps, fun s hs => ⟨hs.accounted, fun one => ?_⟩, ?_⟩
  · exact ⟨(hs.sound.cleared.performed one).2.survives, runSingle_reclaimed s.cleared one⟩
  · intro s names names' groups groups' hp
    rw [runAll_unbind, runAll_unbind, unbind_perm hp]

/-- A list that holds itself and a string, which has a register and a guard as well; then
    the register of the list is dropped. -/
def knot : List Step :=
  [.bind (.fresh (.list [])) [1],
    .operate (.binary .append (.named [1]) (.named [1])) none,
    .bind (.fresh (.string [])) [2],
    .operate (.binary .append (.named [1]) (.named [2])) none,
    .guard .read (.named [2]) [3],
    .unbind [[1]]]

def knotted : Session := (runAll knot .initial).2

/-- Only the list itself refers to the list, which is there; a register, a guard and the
    list refer to the string. -/
theorem references_exact_over_runs_knotted :
    knotted.world.heap.Live ⟨16⟩ ∧ knotted.world.heap.referenceCount knotted.roots ⟨16⟩ = 1 ∧
      knotted.world.heap.referenceCount knotted.roots ⟨17⟩ = 3 ∧
      (runAll [.unbind [[1]], .unbind [[2]]] knotted).2 =
        (runAll [.unbind [[2], [1]]] knotted).2 := by
  obtain ⟨hreached, haccounted, horder⟩ := references_exact_over_runs
  obtain ⟨hknotted, -⟩ := haccounted knotted (hreached knot)
  refine ⟨(hknotted.live_iff _).2 ?_, ?_, ?_, horder knotted [[1]] [[2], [1]] [[[2]]] [] ?_⟩
  · decide +kernel
  · rw [hknotted.count]
    decide +kernel
  · rw [hknotted.count]
    decide +kernel
  · exact List.Perm.swap _ _ _

end Script.Session

end ValueEngine
