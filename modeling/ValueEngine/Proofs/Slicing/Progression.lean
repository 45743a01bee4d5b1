/-
  Value engine — the places that a slice selects.

  A slice of a sequence means an arithmetic progression: it starts at a place, goes on in
  equal steps and stops before another place. The walk that the engine takes comes to just
  the places of this progression, ends by itself, and stays among numbers of 64 bits.

  * `Progression`: a start, a stop and a step, with the places between them.
  * `SliceBounds.progression`: the progression that a slice means.
  * `positions?_eq`: what the engine selects are the places of the progression.
  * `mem_places_iff`, `pairwise_places`, `lt_of_mem_places`: which places these are.
  * `SliceBounds.Passes`, `SliceBounds.Meets`: what the walk passes, and the numbers that
    it comes across (`passes_iff`, `word_of_meets`).
-/
import Mathlib.Data.Rat.Floor
import ValueEngine.Collection.Position

namespace ValueEngine

/-- Places in equal steps from `start` on, strictly before `stop` in the direction of the
    step. -/
structure Progression where
  start : Int
  stop : Int
  step : Int

namespace Progression

variable (p : Progression)

/-- The place after so many steps. -/
def place (k : Nat) : Int := p.start + k * p.step

/-- Whether a place lies strictly before the stop, in the direction of the step. -/
def Before (place : Int) : Prop := if 0 < p.step then place < p.stop else p.stop < place

/-- The number of places: the way from the start to the stop, counted in steps and rounded
    up, or none if it leads the other way. -/
def count : Nat := ⌈((p.stop - p.start : Int) : ℚ) / (p.step : ℚ)⌉₊

/-- The places, in order. -/
def places : List Nat := (List.range p.count).map fun k => (p.place k).toNat

variable {p}

@[simp] theorem length_places : p.places.length = p.count := by simp [places]

/-- The places before the stop are the first `count` ones. -/
theorem before_place_iff (hp : p.step ≠ 0) {k : Nat} : p.Before (p.place k) ↔ k < p.count := by
  rw [count, Nat.lt_ceil, Before, place]
  have hcast : (k : ℚ) * (p.step : ℚ) = ((k * p.step : Int) : ℚ) := by push_cast; rfl
  split
  · rename_i hup
    have hup' : (0 : ℚ) < p.step := by exact_mod_cast hup
    rw [lt_div_iff₀ hup', hcast, Int.cast_lt]
    omega
  · rename_i hdown
    have hdown' : (p.step : ℚ) < 0 := by exact_mod_cast (by omega : p.step < 0)
    rw [lt_div_iff_of_neg hdown', hcast, Int.cast_lt]
    omega

end Progression

namespace SliceBounds

variable {b : SliceBounds} {n : Nat}

/-- The place that a bound means: a negative one counts from the end, and no bound leads
    out of the range from `lower` to `upper`. -/
def resolve (bound length lower upper : Int) : Int :=
  max lower (min upper (if bound < 0 then bound + length else bound))

/-- The progression that a slice means in a sequence of `n` elements. Going up, bounds lie
    between `0` and `n`, going down between `-1` and `n - 1`; the slice goes from one end
    of this range to the other as far as its bounds do not say otherwise. -/
def progression (b : SliceBounds) (n : Nat) : Progression :=
  let step := (b.step.map Int32.toInt).getD 1
  if 0 < step then
    { start := (b.start.map fun v => resolve v.toInt n 0 n).getD 0
      stop := (b.stop.map fun v => resolve v.toInt n 0 n).getD n
      step }
  else
    { start := (b.start.map fun v => resolve v.toInt n (-1) (n - 1)).getD (n - 1)
      stop := (b.stop.map fun v => resolve v.toInt n (-1) (n - 1)).getD (-1)
      step }

/-! ## The walk follows the progression -/

theorem clamp_eq_resolve {bound length lower upper : Int} (hlower : lower ≤ 0)
    (hle : lower ≤ upper) (hlength : length - 1 ≤ upper) :
    clamp bound length lower upper = resolve bound length lower upper := by
  unfold clamp resolve
  split <;> omega

theorem stride_ne_zero (hs : b.step ≠ some 0) : b.stride ≠ 0 := by
  unfold stride
  cases hb : b.step with
  | none => simp
  | some v =>
    rw [hb] at hs
    simpa [← Int32.toInt_inj] using hs

@[simp] theorem progression_step (b : SliceBounds) (n : Nat) :
    (b.progression n).step = b.stride := by
  simp only [progression, stride]
  split <;> rfl

theorem clamp_up (bound : Int) (n : Nat) : clamp bound n 0 n = resolve bound n 0 n :=
  clamp_eq_resolve le_rfl (by omega) (by omega)

theorem clamp_down (bound : Int) (n : Nat) :
    clamp bound n (-1) (n - 1) = resolve bound n (-1) (n - 1) :=
  clamp_eq_resolve (by omega) (by omega) le_rfl

theorem progression_start (hs : b.stride ≠ 0) : (b.progression n).start = b.first n := by
  unfold progression first lower upper
  change (if 0 < b.stride then (_ : Progression) else _).start = _
  by_cases hup : 0 < b.stride
  · have hdown : ¬b.stride < 0 := by omega
    cases b.start <;> simp [hup, hdown, clamp_up]
  · have hdown : b.stride < 0 := by omega
    cases b.start <;> simp [hup, hdown, clamp_down]

theorem progression_stop (hs : b.stride ≠ 0) : (b.progression n).stop = b.last n := by
  unfold progression last lower upper
  change (if 0 < b.stride then (_ : Progression) else _).stop = _
  by_cases hup : 0 < b.stride
  · have hdown : ¬b.stride < 0 := by omega
    cases b.stop <;> simp [hup, hdown, clamp_up]
  · have hdown : b.stride < 0 := by omega
    cases b.stop <;> simp [hup, hdown, clamp_down]

theorem before_iff (hs : b.stride ≠ 0) {place : Int} :
    before b.stride place (b.last n) = true ↔ (b.progression n).Before place := by
  rw [before, Progression.Before, progression_step, progression_stop hs]
  split <;> simp

/-- A walk comes to as many places as lie before its stop, if it is allowed to. -/
theorem walk_eq_map_range {step stop place : Int} {total count : Nat}
    (hbefore : ∀ k : Nat, before step (place + k * step) stop = true ↔ k < total)
    (hcount : total ≤ count) :
    walk step stop count place =
      (List.range total).map fun k : Nat => (place + k * step).toNat := by
  induction count generalizing place total with
  | zero =>
    obtain rfl : total = 0 := by omega
    rfl
  | succ count ih =>
    have hfirst := hbefore 0
    rw [Nat.cast_zero, zero_mul, add_zero] at hfirst
    cases total with
    | zero =>
      have hstop : before step place stop = false := by simpa using hfirst
      simp [walk, hstop]
    | succ total =>
      have hnext : ∀ k : Nat, place + step + k * step = place + (k + 1 : Nat) * step := by
        intro k
        push_cast
        ring
      have hrest : walk step stop count (place + step) =
          (List.range total).map fun k : Nat => (place + step + k * step).toNat :=
        ih (fun k => by rw [hnext, hbefore]; omega) (by omega)
      rw [walk, if_pos (hfirst.2 total.succ_pos), hrest, List.range_succ_eq_map]
      simp only [List.map_cons, List.map_map, Nat.cast_zero, zero_mul, add_zero, hnext]
      rfl

/-- What is before the stop lies in the sequence, and so does what is after the start. -/
theorem progression_mem (hs : b.stride ≠ 0) :
    if 0 < b.stride then 0 ≤ (b.progression n).start ∧ (b.progression n).stop ≤ n
    else (b.progression n).start < n ∧ -1 ≤ (b.progression n).stop := by
  have hfirst := b.first_mem n
  have hlast := b.last_mem n
  rw [progression_start hs, progression_stop hs]
  unfold lower upper at hfirst hlast
  split <;> omega

/-- No more places than elements. -/
theorem count_progression_le (hs : b.stride ≠ 0) : (b.progression n).count ≤ n := by
  have hmem := b.progression_mem (n := n) hs
  -- the place after `n` steps is not before the stop
  have hn : ¬(b.progression n).Before ((b.progression n).place n) := by
    rw [Progression.Before, Progression.place, progression_step]
    split at hmem
    · rename_i hup
      have hle : (n : Int) ≤ n * b.stride := le_mul_of_one_le_right (by omega) hup
      rw [if_pos hup]
      omega
    · rename_i hdown
      have hle : (n : Int) * b.stride ≤ n * (-1) :=
        mul_le_mul_of_nonneg_left (by omega) (by omega)
      rw [if_neg hdown]
      omega
  rw [Progression.before_place_iff (by rwa [progression_step])] at hn
  omega

/-- **The engine selects the places of the progression**, however many more steps it
    would be allowed to take. -/
theorem walk_eq_places (hs : b.stride ≠ 0) {allowed : Nat} (h : n ≤ allowed) :
    walk b.stride (b.last n) allowed (b.first n) = (b.progression n).places := by
  have hstep : (b.progression n).step ≠ 0 := by rwa [progression_step]
  have hbefore : ∀ k : Nat, before b.stride (b.first n + k * b.stride) (b.last n) = true ↔
      k < (b.progression n).count := by
    intro k
    rw [before_iff hs, ← Progression.before_place_iff hstep, Progression.place,
      progression_start hs, progression_step]
  rw [walk_eq_map_range hbefore ((count_progression_le hs).trans h)]
  simp only [Progression.places, Progression.place, progression_start hs, progression_step]

theorem positions?_eq (hs : b.step ≠ some 0) :
    b.positions? n = some (b.progression n).places := by
  have hstride := stride_ne_zero hs
  rw [positions?, if_neg hstride, walk_eq_places hstride le_rfl]

/-! ## Which places these are -/

/-- The places that lie before the stop lie in the sequence. -/
theorem place_mem (hs : b.stride ≠ 0) {k : Nat} (hk : k < (b.progression n).count) :
    0 ≤ (b.progression n).place k ∧ (b.progression n).place k < n := by
  have hmem := b.progression_mem (n := n) hs
  have hbefore := (Progression.before_place_iff (by rwa [progression_step])).2 hk
  rw [Progression.Before, progression_step] at hbefore
  have hplace : (b.progression n).place k = (b.progression n).start + k * b.stride := by
    rw [Progression.place, progression_step]
  split at hmem
  · rename_i hup
    have hle : (0 : Int) ≤ k * b.stride := mul_nonneg (by omega) (by omega)
    rw [if_pos hup] at hbefore
    omega
  · rename_i hdown
    have hle : (k : Int) * b.stride ≤ 0 :=
      mul_nonpos_of_nonneg_of_nonpos (by omega) (by omega)
    rw [if_neg hdown] at hbefore
    omega

theorem lt_of_mem_places (hs : b.stride ≠ 0) {place : Nat}
    (h : place ∈ (b.progression n).places) : place < n := by
  obtain ⟨k, hk, rfl⟩ := List.mem_map.1 h
  have := place_mem hs (List.mem_range.1 hk)
  omega

/-- The places are those that are so many steps from the start and before the stop. -/
theorem mem_places_iff (hs : b.stride ≠ 0) {place : Nat} :
    place ∈ (b.progression n).places ↔
      ∃ k : Nat, (place : Int) = (b.progression n).place k ∧ (b.progression n).Before place := by
  have hbefore : ∀ k, (b.progression n).Before ((b.progression n).place k) ↔
      k < (b.progression n).count :=
    fun k => Progression.before_place_iff (by rwa [progression_step])
  simp only [Progression.places, List.mem_map, List.mem_range]
  constructor
  · rintro ⟨k, hk, rfl⟩
    have hcast : (((b.progression n).place k).toNat : Int) = (b.progression n).place k :=
      Int.toNat_of_nonneg (place_mem hs hk).1
    exact ⟨k, hcast, by rw [hcast, hbefore]; exact hk⟩
  · rintro ⟨k, hk, hb⟩
    rw [hk, hbefore] at hb
    exact ⟨k, hb, by omega⟩

/-- Going up every place is above those before it, going down below. -/
theorem pairwise_places (hs : b.stride ≠ 0) : (b.progression n).places.Pairwise
    fun place later => if 0 < b.stride then place < later else later < place := by
  rw [Progression.places, List.pairwise_map]
  refine List.Pairwise.imp_of_mem ?_ List.pairwise_lt_range
  intro j k hj hk hjk
  have hplace := place_mem hs (List.mem_range.1 hj)
  have hlater := place_mem hs (List.mem_range.1 hk)
  simp only [Progression.place, progression_step] at hplace hlater ⊢
  split
  · have : (j : Int) * b.stride < k * b.stride := mul_lt_mul_of_pos_right (by omega) (by assumption)
    omega
  · have : (k : Int) * b.stride < j * b.stride :=
      mul_lt_mul_of_neg_right (by omega) (by omega)
    omega

/-! ## The numbers on the way -/

/-- The places that the walk passes, one step at a time, up to the one at which it ends. -/
inductive Passes (b : SliceBounds) (n : Nat) : Int → Prop
  | first : Passes b n (b.first n)
  | next {place : Int} : Passes b n place → before b.stride place (b.last n) = true →
      Passes b n (place + b.stride)

/-- The walk passes the places of the progression and ends one step after the last. -/
theorem passes_iff (hs : b.stride ≠ 0) {place : Int} : b.Passes n place ↔
    ∃ k, k ≤ (b.progression n).count ∧ place = (b.progression n).place k := by
  have hstep : (b.progression n).step ≠ 0 := by rwa [progression_step]
  have hnext : ∀ k, (b.progression n).place (k + 1) = (b.progression n).place k + b.stride := by
    intro k
    simp only [Progression.place, progression_step]
    push_cast
    ring
  constructor
  · intro h
    induction h with
    | first => exact ⟨0, Nat.zero_le _, by simp [Progression.place, progression_start hs]⟩
    | next _ hb ih =>
      obtain ⟨k, -, rfl⟩ := ih
      rw [before_iff hs, Progression.before_place_iff hstep] at hb
      exact ⟨k + 1, hb, (hnext k).symm⟩
  · rintro ⟨k, hk, rfl⟩
    induction k with
    | zero =>
      have hzero : (b.progression n).place 0 = b.first n := by
        simp [Progression.place, progression_start hs]
      rw [hzero]
      exact .first
    | succ k ih =>
      rw [hnext]
      refine .next (ih (by omega)) ?_
      rw [before_iff hs, Progression.before_place_iff hstep]
      exact hk

/-- The numbers that come up while a selection is worked out: the length, the step, the
    ends of the range, the bounds before and after a negative one was counted from the
    end, the start, the stop, and all that the walk passes. -/
inductive Meets (b : SliceBounds) (n : Nat) : Int → Prop
  | length : Meets b n n
  | stride : Meets b n b.stride
  | lower : Meets b n b.lower
  | upper : Meets b n (b.upper n)
  | bound {v : Int32} : b.start = some v ∨ b.stop = some v → Meets b n v.toInt
  | counted {v : Int32} : b.start = some v ∨ b.stop = some v → Meets b n (v.toInt + n)
  | first : Meets b n (b.first n)
  | last : Meets b n (b.last n)
  | place {place : Int} : b.Passes n place → Meets b n place

theorem int32_mem (v : Int32) : -2 ^ 31 ≤ v.toInt ∧ v.toInt < 2 ^ 31 :=
  ⟨Int32.le_toInt v, Int32.toInt_lt v⟩

theorem stride_mem (b : SliceBounds) : -2 ^ 31 ≤ b.stride ∧ b.stride < 2 ^ 31 := by
  unfold stride
  cases b.step with
  | none => simp
  | some v => exact int32_mem v

/-- A walk passes no place that is more than one step away from the sequence. -/
theorem passes_mem {place : Int} (h : b.Passes n place) :
    -1 - 2 ^ 31 ≤ place ∧ place < n + 2 ^ 31 := by
  have hfirst := b.first_mem n
  have hlast := b.last_mem n
  have hstride := b.stride_mem
  unfold lower upper at hfirst hlast
  induction h with
  | first => split at hfirst <;> omega
  | next _ hb ih =>
    simp only [before] at hb
    split at hb <;> rw [decide_eq_true_eq] at hb <;> split at hfirst <;> omega

/-- **No number on the way leaves the range of 64 bits**, for any sequence of less than
    `2 ^ 31` elements. -/
theorem word_of_meets (hn : n < 2 ^ 31) {v : Int} (h : b.Meets n v) :
    -2 ^ 63 ≤ v ∧ v < 2 ^ 63 := by
  have hfirst := b.first_mem n
  have hlast := b.last_mem n
  have hstride := b.stride_mem
  unfold SliceBounds.lower SliceBounds.upper at hfirst hlast
  cases h with
  | length => omega
  | stride => omega
  | lower => unfold SliceBounds.lower; split <;> omega
  | upper => unfold SliceBounds.upper; split <;> omega
  | @bound v _ => have := int32_mem v; omega
  | @counted v _ => have := int32_mem v; omega
  | first => split at hfirst <;> omega
  | last => split at hlast <;> omega
  | place hp => have := passes_mem hp; omega

end SliceBounds

end ValueEngine
