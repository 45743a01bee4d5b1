/-
  Value engine — what a collection keeps.

  A collection sweeps away what nothing refers to until nothing is left to sweep. What it
  keeps is what can be reached from a root or from a circle of objects; and that is what
  is left, too, when objects without a reference are reclaimed one at a time, in whatever
  order.

  * `Heap.Refers`: one object refers to another.
  * `Heap.Kept`: what can be reached from a root or from a circle.
  * `Heap.Within`: a heap that lacks some of the objects of another.
  * `kept_of_held`: in a finite heap where every object is referred to, every object can
    be reached so.
  * `live_collect_iff`: a collection keeps these objects and no other.
  * `Heap.Frees`, `collect_of_frees`: reclaiming objects one at a time.
  * `collect_collect`: collecting with fewer roots and again with fewer still.
-/
import Mathlib.Data.Fintype.Card
import Mathlib.Data.Fintype.EquivFin
import Mathlib.Logic.Relation
import Mathlib.Order.WellFounded
import ValueEngine.Proofs.Soundness.Basic

namespace ValueEngine

open Relation

namespace Heap

/-- A live object refers to another. -/
def Refers (h : Heap) (i j : ObjId) : Prop := ∃ o, h.get? i = some o ∧ j ∈ o.references

/-- A live object that can be reached from a root or from a circle of objects. -/
def Kept (h : Heap) (roots : List ObjId) (i : ObjId) : Prop :=
  h.Live i ∧ ∃ k, (k ∈ roots ∨ TransGen h.Refers k k) ∧ ReflTransGen h.Refers k i

/-- A heap that lacks some of the objects of another, and has the others as they are
    there. -/
structure Within (h' h : Heap) : Prop where
  size : h'.size = h.size
  get? : ∀ i o, h'.get? i = some o → h.get? i = some o

/-- Every live object is referred to. -/
def Held (h : Heap) (roots : List ObjId) : Prop := ∀ i, h.Live i → i ∈ h.holders roots

variable {h h' : Heap} {roots : List ObjId} {i j : ObjId}

theorem mem_holders : i ∈ h.holders roots ↔ i ∈ roots ∨ ∃ j, h.Refers j i := by
  rw [holders, List.mem_append, mem_references]
  rfl

theorem Refers.live (hr : h.Refers i j) : h.Live i := by
  obtain ⟨o, ho, -⟩ := hr
  exact live_of_get? ho

/-- On the way to a live object all objects are live. -/
theorem live_of_reaches (hr : ReflTransGen h.Refers i j) (hj : h.Live j) : h.Live i := by
  rcases hr.cases_head with rfl | ⟨k, hk, -⟩
  · exact hj
  · exact hk.live

/-! ## Kept objects are held, held objects are kept -/

theorem Kept.mem_holders (hi : h.Kept roots i) : i ∈ h.holders roots := by
  obtain ⟨-, k, hk, hreach⟩ := hi
  rw [Heap.mem_holders]
  rcases hreach.cases_tail with rfl | ⟨j, -, hj⟩
  · rcases hk with hroot | hcycle
    · exact .inl hroot
    · obtain ⟨j, -, hj⟩ := TransGen.tail'_iff.1 hcycle
      exact .inr ⟨j, hj⟩
  · exact .inr ⟨j, hj⟩

/-- Going back from a live object to what refers to it, and so on, one comes to a root or
    goes round in a circle, since there are only so many objects. -/
theorem kept_of_held (hheld : h.Held roots) (hi : h.Live i) : h.Kept roots i := by
  refine ⟨hi, Classical.byContradiction fun hno => ?_⟩
  -- the objects from which `i` can be reached, by number
  let r (a b : Fin h.size) : Prop := h.Refers ⟨a⟩ ⟨b⟩ ∧ ReflTransGen h.Refers ⟨b⟩ i
  have htrans : ∀ {a b}, TransGen r a b →
      TransGen h.Refers ⟨a⟩ ⟨b⟩ ∧ ReflTransGen h.Refers ⟨b⟩ i := by
    intro a b hab
    induction hab with
    | single hab => exact ⟨.single hab.1, hab.2⟩
    | tail _ hbc ih => exact ⟨ih.1.tail hbc.1, hbc.2⟩
  have : Std.Irrefl (TransGen r) :=
    ⟨fun a ha => hno ⟨⟨a⟩, .inr (htrans ha).1, (htrans ha).2⟩⟩
  have hwf : WellFounded r := Subrelation.wf TransGen.single
    (Finite.wellFounded_of_trans_of_irrefl (TransGen r))
  obtain ⟨a, ha, hfirst⟩ := hwf.has_min {a | ReflTransGen h.Refers ⟨a⟩ i}
    ⟨⟨i.index, hi.lt_size⟩, .refl⟩
  rcases Heap.mem_holders.1 (hheld _ (live_of_reaches ha hi)) with hroot | ⟨j, hj⟩
  · exact hno ⟨_, .inl hroot, ha⟩
  · exact hfirst ⟨j.index, hj.live.lt_size⟩ (.head hj ha) ⟨hj, ha⟩

/-! ## Smaller heaps -/

namespace Within

theorem refl (h : Heap) : h.Within h := ⟨rfl, fun _ _ ho => ho⟩

theorem trans {h'' : Heap} (hw : h''.Within h') (hw' : h'.Within h) : h''.Within h :=
  ⟨hw.size.trans hw'.size, fun i o ho => hw'.get? i o (hw.get? i o ho)⟩

variable (hw : h'.Within h)
include hw

theorem live (hi : h'.Live i) : h.Live i := by
  obtain ⟨o, ho⟩ := Option.isSome_iff_exists.1 hi
  exact live_of_get? (hw.get? i o ho)

theorem get?_of_live (hi : h'.Live i) : h'.get? i = h.get? i := by
  obtain ⟨o, ho⟩ := Option.isSome_iff_exists.1 hi
  rw [ho, hw.get? i o ho]

theorem refers (hr : h'.Refers i j) : h.Refers i j := by
  obtain ⟨o, ho, hj⟩ := hr
  exact ⟨o, hw.get? i o ho, hj⟩

/-- What is kept of a smaller heap is kept of the larger one. -/
theorem kept (hi : h'.Kept roots i) : h.Kept roots i := by
  obtain ⟨hlive, k, hk, hreach⟩ := hi
  have hle : h'.Refers ≤ h.Refers := fun _ _ => hw.refers
  exact ⟨hw.live hlive, k, hk.imp_right (TransGen.mono hle k k), ReflTransGen.mono hle k i hreach⟩

/-- If what is kept is there, so is all that it takes to keep it. -/
theorem kept_of_kept (hkeep : ∀ i, h.Kept roots i → h'.Live i)
    (hi : h.Kept roots i) : h'.Kept roots i := by
  obtain ⟨hlive, k, hk, hreach⟩ := hi
  -- every object that is reached from `k` on is kept
  have hkept : ∀ j, ReflTransGen h.Refers k j → h.Live j → h'.Live j := fun j hj hl =>
    hkeep j ⟨hl, k, hk, hj⟩
  have hstep : ∀ j l, ReflTransGen h.Refers k j → h.Refers j l → h'.Refers j l := by
    rintro j l hj ⟨o, ho, hl⟩
    have hj' := hkept j hj (live_of_get? ho)
    exact ⟨o, (hw.get?_of_live hj').trans ho, hl⟩
  have hpath : ∀ j, ReflTransGen h.Refers k j → ReflTransGen h'.Refers k j := by
    intro j hj
    induction hj with
    | refl => exact .refl
    | tail hj hjl ih => exact ih.tail (hstep _ _ hj hjl)
  refine ⟨hkept i hreach hlive, k, hk.imp_right fun hcycle => ?_, hpath i hreach⟩
  obtain ⟨j, hj, hjk⟩ := TransGen.tail'_iff.1 hcycle
  exact TransGen.tail' (hpath j hj) (hstep j k hj hjk)

end Within

/-- A smaller heap in which every object is held, and that has all that was kept, has just
    that. -/
theorem live_iff_kept (hw : h'.Within h) (hheld : h'.Held roots)
    (hkeep : ∀ i, h.Kept roots i → h'.Kept roots i) : h'.Live i ↔ h.Kept roots i :=
  ⟨fun hi => hw.kept (kept_of_held hheld hi), fun hi => (hkeep i hi).1⟩

/-- Two parts of a heap with the same objects are the same. -/
theorem Within.ext {h₁ h₂ : Heap} (hw₁ : h₁.Within h) (hw₂ : h₂.Within h)
    (hlive : ∀ i, h₁.Live i ↔ h₂.Live i) : h₁ = h₂ := by
  refine ext_get? (hw₁.size.trans hw₂.size.symm) fun i => ?_
  by_cases hi : h₁.Live i
  · rw [hw₁.get?_of_live hi, hw₂.get?_of_live ((hlive i).1 hi)]
  · rw [get?_of_not_live hi, get?_of_not_live (mt (hlive i).2 hi)]

/-! ## Sweeps -/

theorem size_remove (h : Heap) (i : ObjId) : (h.remove i).size = h.size := by
  simp [remove, size]

theorem size_sweep (h : Heap) (roots : List ObjId) : (h.sweep roots).size = h.size := by
  have hfold : ∀ (is : List ObjId) (h : Heap), (is.foldl remove h).size = h.size := by
    intro is
    induction is with
    | nil => exact fun _ => rfl
    | cons i is ih => exact fun h => (ih _).trans (size_remove h i)
  exact hfold _ h

theorem within_sweep (h : Heap) (roots : List ObjId) : (h.sweep roots).Within h := by
  refine ⟨size_sweep h roots, fun i o ho => ?_⟩
  rw [get?_sweep] at ho
  split at ho
  · exact ho
  · cases ho

theorem live_sweep_iff : (h.sweep roots).Live i ↔ h.Live i ∧ i ∈ h.holders roots := by
  by_cases hi : i ∈ h.holders roots <;> simp [Live, get?_sweep, hi]

theorem held_iff_loose_eq_nil : h.Held roots ↔ h.loose roots = [] := by
  simp only [List.eq_nil_iff_forall_not_mem, mem_loose, Held, Live, not_and, not_not]

/-- A sweep that finds something leaves fewer objects. -/
theorem length_ids_sweep_lt (hheld : ¬h.Held roots) :
    (h.sweep roots).ids.length < h.ids.length := by
  have hids : (h.sweep roots).ids = h.ids.filter fun i => i ∈ h.holders roots := by
    simp only [ids, size_sweep, List.filter_filter]
    refine List.filter_congr fun i _ => ?_
    have hlive : (h.sweep roots).Live i ↔ h.Live i ∧ i ∈ h.holders roots := live_sweep_iff
    simp only [Live] at hlive
    rw [Bool.eq_iff_iff]
    simpa [and_comm] using hlive
  obtain ⟨i, hi⟩ : ∃ i, i ∈ h.loose roots :=
    List.exists_mem_of_ne_nil _ (mt held_iff_loose_eq_nil.2 hheld)
  obtain ⟨hlive, hnot⟩ := mem_loose.1 hi
  rw [hids, List.length_filter_lt_length_iff_exists]
  exact ⟨i, mem_ids.2 hlive, by simpa using hnot⟩

/-- Enough rounds of sweeping leave a part of the heap in which every object is held and
    nothing that was kept is missing. -/
theorem collectWithin_spec (rounds : Nat) (h : Heap) (hrounds : h.ids.length ≤ rounds) :
    (h.collectWithin roots rounds).Within h ∧ (h.collectWithin roots rounds).Held roots ∧
      ∀ i, h.Kept roots i → (h.collectWithin roots rounds).Kept roots i := by
  induction rounds generalizing h with
  | zero =>
    refine ⟨.refl h, fun i hi => ?_, fun _ hi => hi⟩
    have hnil : h.ids = [] := List.length_eq_zero_iff.1 (Nat.le_zero.1 hrounds)
    have hmem := mem_ids.2 hi
    simp only [collectWithin] at hmem
    rw [hnil] at hmem
    cases hmem
  | succ rounds ih =>
    simp only [collectWithin]
    split
    · rename_i hempty
      exact ⟨.refl h, held_iff_loose_eq_nil.2 (List.isEmpty_iff.1 hempty), fun _ hi => hi⟩
    · rename_i hsome
      have hfewer := length_ids_sweep_lt (mt held_iff_loose_eq_nil.1 (by simpa using hsome))
      obtain ⟨hwithin, hheld, hkept⟩ := ih (h.sweep roots) (by omega)
      refine ⟨hwithin.trans (within_sweep h roots), hheld, fun i hi => hkept i ?_⟩
      exact (within_sweep h roots).kept_of_kept
        (fun j hj => live_sweep_iff.2 ⟨hj.1, hj.mem_holders⟩) hi

/-! ## Collections -/

theorem collect_spec (h : Heap) (roots : List ObjId) : (h.collect roots).Within h ∧
    (h.collect roots).Held roots ∧ ∀ i, h.Kept roots i → (h.collect roots).Kept roots i := by
  refine collectWithin_spec h.size h ?_
  exact (List.length_filter_le ..).trans (by simp)

theorem within_collect (h : Heap) (roots : List ObjId) : (h.collect roots).Within h :=
  (collect_spec h roots).1

/-- After a collection every object is referred to. -/
theorem held_collect (h : Heap) (roots : List ObjId) : (h.collect roots).Held roots :=
  (collect_spec h roots).2.1

/-- **A collection keeps what can be reached from a root or from a circle**, and nothing
    else. -/
theorem live_collect_iff : (h.collect roots).Live i ↔ h.Kept roots i :=
  live_iff_kept (within_collect h roots) (held_collect h roots) (collect_spec h roots).2.2

/-- A part of a heap that has just what is kept is the heap after a collection. -/
theorem eq_collect (hw : h'.Within h) (hlive : ∀ i, h'.Live i ↔ h.Kept roots i) :
    h' = h.collect roots :=
  hw.ext (within_collect h roots) fun i => (hlive i).trans live_collect_iff.symm

/-- Only which objects are roots matters. -/
theorem collect_congr {roots' : List ObjId} (hroots : ∀ i, i ∈ roots ↔ i ∈ roots') :
    h.collect roots = h.collect roots' := by
  refine eq_collect (within_collect h roots) fun i => live_collect_iff.trans ?_
  simp only [Kept, hroots]

/-- **Collecting twice**, the second time with no more roots, is as good as once. -/
theorem collect_collect {roots' : List ObjId} (hroots : ∀ i ∈ roots', i ∈ roots) :
    (h.collect roots).collect roots' = h.collect roots' := by
  have hw := within_collect h roots
  refine eq_collect ((within_collect _ roots').trans hw) fun i =>
    live_collect_iff.trans ⟨hw.kept, hw.kept_of_kept fun j hj => live_collect_iff.2 ?_⟩
  -- with more roots more is kept
  obtain ⟨hlive, k, hk, hreach⟩ := hj
  exact ⟨hlive, k, hk.imp_left (hroots k), hreach⟩

/-! ## One object at a time -/

/-- An object to which there is no reference is reclaimed. -/
def Frees (roots : List ObjId) (h h' : Heap) : Prop :=
  ∃ i, h.Live i ∧ h.referenceCount roots i = 0 ∧ h' = h.remove i

theorem referenceCount_eq_zero_iff : h.referenceCount roots i = 0 ↔ i ∉ h.holders roots :=
  List.count_eq_zero

theorem held_iff_forall_referenceCount :
    h.Held roots ↔ ∀ i, h.Live i → 1 ≤ h.referenceCount roots i := by
  simp only [Held, Nat.one_le_iff_ne_zero, ne_eq, referenceCount_eq_zero_iff, not_not]

theorem within_remove (h : Heap) (i : ObjId) : (h.remove i).Within h := by
  refine ⟨size_remove h i, fun j o ho => ?_⟩
  by_cases hji : j = i
  · rw [hji, get?_remove_self] at ho
    cases ho
  · rwa [get?_remove_of_ne hji] at ho

theorem length_ids_remove_lt (hi : h.Live i) : (h.remove i).ids.length < h.ids.length := by
  have hids : (h.remove i).ids = h.ids.filter fun j => j ≠ i := by
    simp only [ids, size_remove, List.filter_filter]
    refine List.filter_congr fun j _ => ?_
    by_cases hji : j = i
    · simp [hji, get?_remove_self]
    · simp [hji, get?_remove_of_ne hji]
  rw [hids, List.length_filter_lt_length_iff_exists]
  exact ⟨i, mem_ids.2 hi, by simp⟩

/-- Reclaiming objects one at a time loses nothing that is kept. -/
theorem kept_of_frees (hf : ReflTransGen (Frees roots) h h') :
    h'.Within h ∧ ∀ i, h.Kept roots i → h'.Kept roots i := by
  induction hf with
  | refl => exact ⟨.refl h, fun _ hi => hi⟩
  | tail _ hstep ih =>
    obtain ⟨j, -, hzero, rfl⟩ := hstep
    refine ⟨(within_remove _ j).trans ih.1, fun i hi => ?_⟩
    refine (within_remove _ j).kept_of_kept (fun k hk => ?_) (ih.2 i hi)
    -- what is kept is referred to, so it is not the object that goes
    have hne : k ≠ j := by
      rintro rfl
      exact referenceCount_eq_zero_iff.1 hzero hk.mem_holders
    rw [Live, get?_remove_of_ne hne]
    exact hk.1

/-- **Objects can be reclaimed one at a time, in any order**: once each of those that are
    left is referred to, they are those that a collection leaves. -/
theorem collect_of_frees (hf : ReflTransGen (Frees roots) h h')
    (hcount : ∀ i, h'.Live i → 1 ≤ h'.referenceCount roots i) : h' = h.collect roots := by
  obtain ⟨hw, hkept⟩ := kept_of_frees hf
  exact eq_collect hw fun i => live_iff_kept hw (held_iff_forall_referenceCount.2 hcount) hkept

/-- Whatever is reclaimed first, a collection does the rest. -/
theorem collect_eq_of_frees (hf : ReflTransGen (Frees roots) h h') :
    h'.collect roots = h.collect roots := by
  obtain ⟨hw, hkept⟩ := kept_of_frees hf
  refine eq_collect ((within_collect h' roots).trans hw) fun i => live_collect_iff.trans ?_
  exact ⟨hw.kept, hkept i⟩

/-- Reclaiming objects one at a time comes to an end, which is what a collection
    leaves. -/
theorem frees_collect (h : Heap) (roots : List ObjId) :
    ReflTransGen (Frees roots) h (h.collect roots) := by
  induction hn : h.ids.length using Nat.strong_induction_on generalizing h with
  | _ n ih =>
    by_cases hheld : h.Held roots
    · rw [← collect_of_frees .refl (held_iff_forall_referenceCount.1 hheld)]
    · simp only [Held, not_forall] at hheld
      obtain ⟨i, hlive, hnot⟩ := hheld
      have hfree : Frees roots h (h.remove i) :=
        ⟨i, hlive, referenceCount_eq_zero_iff.2 hnot, rfl⟩
      rw [← collect_eq_of_frees (.single hfree)]
      refine .head hfree (ih _ ?_ _ rfl)
      rw [← hn]
      exact length_ids_remove_lt hlive

end Heap

end ValueEngine
