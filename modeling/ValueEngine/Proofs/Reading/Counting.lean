/-
  Value engine — how many objects there are.

  A walk that goes to no object twice goes to no more objects than there are, so the depth
  of a recursion is bounded by what it can come to.

  * `length_le_ncard`: a list without repetition is no longer than what it is taken from.
  * `Contents.live`: the objects that there are, finitely many (`finite_live`), as many as a
    heap has places at most (`ncard_live_le`).
-/
import Mathlib.Data.Set.Card
import ValueEngine.Proofs.Reading.Contents

namespace ValueEngine

theorem ObjId.index_injective : Function.Injective ObjId.index :=
  fun ⟨_⟩ ⟨_⟩ h => congrArg ObjId.mk h

/-- A list without repetition is no longer than a set it is taken from. -/
theorem length_le_ncard {α : Type} {s : Set α} {l : List α} (hs : s.Finite) (hl : l.Nodup)
    (hmem : ∀ a ∈ l, a ∈ s) : l.length ≤ s.ncard := by
  classical
  have hsub : (l.toFinset : Set α) ⊆ s := fun a ha => hmem a (List.mem_toFinset.1 ha)
  calc l.length = (l.toFinset : Set α).ncard := by
        rw [Set.ncard_coe_finset, List.toFinset_card_of_nodup hl]
    _ ≤ s.ncard := Set.ncard_le_ncard hsub hs

namespace Contents

variable {c : Contents} {n : Nat}

/-- The objects that there are. -/
def live (c : Contents) : Set ObjId := {k | (c k).isSome}

theorem mem_live {k : ObjId} {a : Payload} (h : c k = some a) : k ∈ c.live :=
  Option.isSome_iff_exists.2 ⟨a, h⟩

section Finite

variable (hn : ∀ i a, c i = some a → i.index < n)
include hn

theorem index_mem_range {k : ObjId} (hk : k ∈ c.live) : k.index ∈ (Finset.range n : Set Nat) := by
  obtain ⟨a, ha⟩ := Option.isSome_iff_exists.1 hk
  rw [Finset.mem_coe, Finset.mem_range]
  exact hn k a ha

theorem finite_live : c.live.Finite :=
  Set.Finite.of_finite_image ((Finset.range n).finite_toSet.subset
    (Set.image_subset_iff.2 fun _ => index_mem_range hn)) ObjId.index_injective.injOn

/-- There are no more objects than places for them. -/
theorem ncard_live_le : c.live.ncard ≤ n :=
  calc c.live.ncard ≤ (Finset.range n : Set Nat).ncard :=
        Set.ncard_le_ncard_of_injOn ObjId.index (fun _ => index_mem_range hn)
          ObjId.index_injective.injOn (Finset.range n).finite_toSet
    _ = n := by rw [Set.ncard_coe_finset, Finset.card_range]

/-- Nor are there more of some kind. -/
theorem ncard_le_of_live {s : Set ObjId} (hs : s ⊆ c.live) : s.ncard ≤ n :=
  (Set.ncard_le_ncard hs (finite_live hn)).trans (ncard_live_le hn)

end Finite

end Contents

end ValueEngine
