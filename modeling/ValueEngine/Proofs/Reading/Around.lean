/-
  Value engine — walks that do not go on from given places.

  A traversal that does not enter an object again which is under way still comes to all
  that can be reached: what is reached at all is reached without going through the place to
  begin with twice.

  * `Around`: what is reached without going on from given places.
  * `Around.cases`: a walk goes through its first place once.
  * `Around.eq_of_mem`: from a place that must not be gone on from, nothing else is reached.
-/
import Mathlib.Logic.Relation

namespace ValueEngine

variable {α : Type} {r : α → α → Prop} {p q : α} {avoided : List α}

/-- What is reached along a relation without going on from given places. -/
def Around (r : α → α → Prop) (avoided : List α) : α → α → Prop :=
  Relation.ReflTransGen fun p q => p ∉ avoided ∧ r p q

theorem around_nil : Around r [] = Relation.ReflTransGen r := by
  simp [Around]

namespace Around

/-- **A walk goes through its first place once**: what is reached from a place is that
    place, or is reached from one of the next without going on from the place. -/
theorem cases (h : Around r avoided p q) : q = p ∨ ∃ k, r p k ∧ Around r (p :: avoided) k q := by
  induction h with
  | refl => exact .inl rfl
  | @tail b q _ hstep ih =>
    obtain ⟨hb, hr⟩ := hstep
    by_cases hbp : b = p
    · subst hbp
      exact .inr ⟨q, hr, .refl⟩
    · obtain hbp' | ⟨k, hk, hwalk⟩ := ih
      · exact absurd hbp' hbp
      · refine .inr ⟨k, hk, hwalk.tail ⟨?_, hr⟩⟩
        simp [hbp, hb]

/-- From a place that must not be gone on from, only itself is reached. -/
theorem eq_of_mem (hp : p ∈ avoided) (h : Around r avoided p q) : q = p := by
  induction h with
  | refl => rfl
  | tail _ hstep ih =>
    rw [ih] at hstep
    exact absurd hp hstep.1

/-- What is reached around more places is reached around fewer. -/
theorem of_cons {k : α} (h : Around r (k :: avoided) p q) : Around r avoided p q :=
  Relation.ReflTransGen.mono (fun _ _ hstep => ⟨fun hmem => hstep.1 (List.mem_cons_of_mem k hmem),
    hstep.2⟩) _ _ h

end Around

end ValueEngine
