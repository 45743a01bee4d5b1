/-
  Value engine — the algebra of slices.

  What slices of one sequence hold fits together, whatever their bounds are: two that meet
  make up the whole, one backwards is the reverse, one of another is one of the first, and
  those with a common step share the places out among them.

  * `SliceBounds.upTo`, `since`, `backwards`, `everyFrom`: the slices in question.
  * `SliceBounds.selected`: what a slice selects of some units, with `selected_upTo`,
    `selected_since`, `selected_backwards` and `progression_everyFrom`.
  * `World.Sequence`, `World.Bounds`: sequences and slices that readers can have.
  * `World.Sequence.item`, `World.Sequence.add`: a slice, and the sum of two sequences.
  * `slices_make_an_algebra`: the laws.
-/
import Mathlib.Data.List.Sort
import ValueEngine.Proofs.Operator.Dispatch
import ValueEngine.Proofs.Reading.Looking
import ValueEngine.Proofs.Slicing.Selection

namespace ValueEngine

variable {σ α : Type} {hooks : Hooks σ} {w : World σ} {s t key : ObjId} {kind : Kind}
  {units units' : List (UInt8 ⊕ Ref)} {b : SliceBounds} {n : Nat}

/-! ## What slices select -/

/-- What stands at the places of a progression, one by one. -/
theorem Progression.filterMap_places {p : Progression} {xs ys : List α}
    (hcount : p.count = ys.length) (h : ∀ k < ys.length, xs[(p.place k).toNat]? = ys[k]?) :
    p.places.filterMap (xs[·]?) = ys := by
  rw [places, List.filterMap_map, hcount]
  refine (List.filterMap_congr fun k hk => ?_).trans (filterMap_range ys)
  exact h k (List.mem_range.1 hk)

namespace SliceBounds

/-- All before a bound. -/
def upTo (i : Int32) : SliceBounds := { start := none, stop := some i, step := none }

/-- All from a bound on. -/
def since (i : Int32) : SliceBounds := { start := some i, stop := none, step := none }

/-- Everything, the last first. -/
def backwards : SliceBounds := { start := none, stop := none, step := some (-1) }

/-- Everything from a bound on, in steps. -/
def everyFrom (i k : Int32) : SliceBounds := { start := some i, stop := none, step := some k }

/-- What a slice selects. -/
def selected (b : SliceBounds) (xs : List α) : List α :=
  (b.progression xs.length).places.filterMap (xs[·]?)

/-- In a progression there are as many places as lie before its stop. -/
theorem count_eq {p : Progression} {m : Nat} (hp : p.step ≠ 0)
    (h : ∀ k : Nat, p.Before (p.place k) ↔ k < m) : p.count = m :=
  eq_of_forall_lt_iff fun k => by rw [← Progression.before_place_iff hp, h]

/-- Where a bound cuts a sequence in two. -/
def cut (i : Int32) (n : Nat) : Nat := (resolve i.toInt n 0 n).toNat

theorem coe_cut (i : Int32) (n : Nat) : (cut i n : Int) = resolve i.toInt n 0 n := by
  rw [cut, Int.toNat_of_nonneg]
  unfold resolve
  omega

theorem cut_le (i : Int32) (n : Nat) : cut i n ≤ n := by
  have hcut := coe_cut i n
  unfold resolve at hcut
  omega

theorem cut_of_nonneg {i : Int32} (hi : 0 ≤ i.toInt) (n : Nat) : cut i n = min i.toInt.toNat n := by
  have hcut := coe_cut i n
  unfold resolve at hcut
  rw [if_neg (by omega)] at hcut
  omega

/-- A progression in single steps has as many places as lie between its ends. -/
theorem count_of_single (start stop : Nat) :
    ({ start, stop, step := 1 } : Progression).count = stop - start := by
  refine count_eq one_ne_zero fun k => ?_
  simp only [Progression.Before, Progression.place]
  rw [if_pos Int.one_pos]
  omega

theorem selected_upTo (i : Int32) (xs : List α) :
    (upTo i).selected xs = xs.take (cut i xs.length) := by
  have hle := cut_le i xs.length
  have hprogression : (upTo i).progression xs.length =
      { start := (0 : Nat), stop := cut i xs.length, step := 1 } := by
    simp [progression, upTo, coe_cut]
  rw [selected, hprogression]
  refine Progression.filterMap_places ?_ fun k hk => ?_
  · rw [count_of_single, List.length_take, Nat.sub_zero, Nat.min_eq_left hle]
  · rw [List.length_take, Nat.min_eq_left hle] at hk
    rw [List.getElem?_take_of_lt hk]
    congr 1
    simp only [Progression.place]
    omega

theorem selected_since (i : Int32) (xs : List α) :
    (since i).selected xs = xs.drop (cut i xs.length) := by
  have hprogression : (since i).progression xs.length =
      { start := cut i xs.length, stop := xs.length, step := 1 } := by
    simp [progression, since, coe_cut]
  rw [selected, hprogression]
  refine Progression.filterMap_places ?_ fun k _ => ?_
  · rw [count_of_single, List.length_drop]
  · rw [List.getElem?_drop]
    congr 1
    simp only [Progression.place]
    omega

theorem selected_since_of_nonneg {i : Int32} (hi : 0 ≤ i.toInt) (xs : List α) :
    (since i).selected xs = xs.drop i.toInt.toNat := by
  rw [selected_since, cut_of_nonneg hi]
  rcases Nat.le_total i.toInt.toNat xs.length with hle | hge
  · rw [Nat.min_eq_left hle]
  · rw [Nat.min_eq_right hge, List.drop_length, List.drop_eq_nil_of_le hge]

theorem selected_backwards (xs : List α) : backwards.selected xs = xs.reverse := by
  have hprogression : backwards.progression xs.length =
      { start := xs.length - 1, stop := -1, step := -1 } := by
    simp [progression, backwards]
  rw [selected, hprogression]
  refine Progression.filterMap_places (count_eq (by simp) fun k => ?_) fun k hk => ?_
  · simp only [Progression.Before, Progression.place, List.length_reverse]
    rw [if_neg (by decide)]
    omega
  · rw [List.length_reverse] at hk
    rw [List.getElem?_reverse hk]
    congr 1
    simp only [Progression.place]
    omega

/-- The places that leave a remainder. -/
def residues (k n j : Nat) : List Nat := (List.range n).filter fun place => place % k = j

theorem mem_residues {k n j place : Nat} : place ∈ residues k n j ↔ place < n ∧ place % k = j := by
  simp [residues]

/-- Every place leaves just one remainder. -/
theorem residues_perm {k : Nat} (hk : 0 < k) (n : Nat) :
    ((List.range k).flatMap (residues k n)).Perm (List.range n) := by
  have hnodup : ∀ j, (residues k n j).Nodup := fun j => List.nodup_range.filter _
  refine (List.perm_ext_iff_of_nodup (List.nodup_flatMap.2 ⟨fun j _ => hnodup j, ?_⟩)
    List.nodup_range).2 fun place => ?_
  · refine List.nodup_range.imp fun {j j'} hne place hj hj' => hne ?_
    exact (mem_residues.1 hj).2.symm.trans (mem_residues.1 hj').2
  · simp only [List.mem_flatMap, List.mem_range, mem_residues]
    constructor
    · rintro ⟨j, -, hlt, -⟩
      exact hlt
    · intro hlt
      exact ⟨place % k, Nat.mod_lt place hk, hlt, rfl⟩

/-- From a start below the step on, all that leaves the start for a remainder is taken. -/
theorem exists_step_iff {i k n place : Nat} (hik : i < k) :
    (∃ m : Nat, (place : Int) = min i n + m * k ∧ place < n) ↔ place < n ∧ place % k = i := by
  constructor
  · rintro ⟨m, hplace, hlt⟩
    have hm : place = min i n + m * k := by exact_mod_cast hplace
    have hmin : min i n = i := by omega
    rw [hmin] at hm
    refine ⟨hlt, ?_⟩
    rw [hm, Nat.add_mul_mod_self_right, Nat.mod_eq_of_lt hik]
  · rintro ⟨hlt, rfl⟩
    have hle := Nat.mod_le place k
    have hdiv := Nat.mod_add_div' place k
    rw [Nat.min_eq_left (hle.trans hlt.le)]
    exact ⟨place / k, by exact_mod_cast hdiv.symm, hlt⟩

/-- Slices with a common step take the places that leave one remainder each. -/
theorem places_everyFrom {i k : Int32} (hi : 0 ≤ i.toInt) (hik : i.toInt < k.toInt) (n : Nat) :
    ((everyFrom i k).progression n).places = residues k.toInt.toNat n i.toInt.toNat := by
  have hk : 0 < k.toInt := by omega
  have hstride : (everyFrom i k).stride = k.toInt := rfl
  have hprogression : (everyFrom i k).progression n =
      { start := cut i n, stop := n, step := k.toInt } := by
    simp [progression, everyFrom, coe_cut, hk]
  refine List.Pairwise.eq_of_mem_iff (r := (· < ·)) ?_ (List.pairwise_lt_range.filter _)
    fun place => ?_
  · have hpairwise := pairwise_places (b := everyFrom i k) (n := n) (by omega)
    simpa only [hstride, if_pos hk] using hpairwise
  · have hcast : (k.toInt.toNat : Int) = k.toInt := Int.toNat_of_nonneg hk.le
    rw [mem_places_iff (by omega), mem_residues, hprogression, cut_of_nonneg hi,
      ← exists_step_iff (by omega)]
    refine exists_congr fun m => ?_
    rw [Progression.Before, Progression.place, if_pos hk, hcast]
    simp

end SliceBounds

/-! ## Sequences and slices -/

/-- A string, a list or a tuple that readers can have, with no null slots. -/
structure World.Sequence (w : World σ) (s : ObjId) (kind : Kind) (units : List (UInt8 ⊕ Ref)) :
    Prop where
  readable : w.Open s
  contents : ∃ p, w.heap.contents s = some p ∧ p.kind = kind ∧ p.units? = some units
  filled : .inr none ∉ units

/-- A slice that readers can have. -/
structure World.Bounds (w : World σ) (key : ObjId) (b : SliceBounds) : Prop where
  readable : w.Open key
  contents : w.heap.contents key = some (.slice b)

theorem World.Open.added (h : w.Open s) (o : Object) : (w.added o).Open s := by
  obtain ⟨p, hp, hopen⟩ := h
  exact ⟨p, Heap.get?_allocate_of_some hp o, hopen⟩

theorem World.Sequence.added (h : w.Sequence s kind units) (o : Object) :
    (w.added o).Sequence s kind units := by
  obtain ⟨p, hp, hshape⟩ := h.contents
  exact ⟨h.readable.added o, ⟨p, Heap.contents_allocate_of_some hp o, hshape⟩, h.filled⟩

theorem World.Bounds.added (h : w.Bounds key b) (o : Object) : (w.added o).Bounds key b :=
  ⟨h.readable.added o, Heap.contents_allocate_of_some h.contents o⟩

/-- A sequence that was just made. -/
theorem World.sequence_newborn {q : Payload} (hkind : q.kind = kind)
    (hunits : q.units? = some units) (hfilled : .inr none ∉ units) (w : World σ) :
    (w.added q.newborn).Sequence w.nextId kind units where
  readable := ⟨_, World.get?_added_nextId .., nofun⟩
  contents := ⟨q, Heap.contents_of_get? (World.get?_added_nextId ..), hkind, hunits⟩
  filled := hfilled

variable (hooks)

/-- **A slice is a new sequence** of the same kind, of what it selects. -/
theorem World.Sequence.item (hs : w.Sequence s kind units) (hkey : w.Bounds key b)
    (hstep : b.step ≠ some 0) : ∃ q : Payload,
      Ref.item hooks (some s) (some key) w = .ok (.success w.nextId) (w.added q.newborn) ∧
      (w.added q.newborn).Sequence w.nextId kind (b.selected units) := by
  obtain ⟨o, ho, hopen⟩ := hs.readable
  obtain ⟨k, hk, hkopen⟩ := hkey.readable
  obtain ⟨p, hp, rfl, hunits⟩ := hs.contents
  obtain rfl := Heap.payload_of_contents ho hp
  have hbounds := Heap.payload_of_contents hk hkey.contents
  refine ⟨_, item_slice_eq ho hk hbounds hopen hkopen hunits
    (mt (Payload.null_mem_units hunits).2 hs.filled) hstep, ?_⟩
  exact World.sequence_newborn (Payload.kind_restricted ..)
    (Payload.units?_of_restricted hunits _) (not_mem_filterMap hs.filled _) w

/-- What the table makes of the sum of two sequences. -/
theorem Operator.tabled_add {p q : Payload} {limit : Nat} (hp : p.units? = some units)
    (hq : q.units? = some units') (hkind : q.kind = p.kind)
    (h : p.kind = .list ∨ p.kind = .string ∧ (units ++ units').length ≤ limit) :
    ∃ r : Payload, Operator.add.tabled limit p q = some (.ok r) ∧ r.kind = p.kind ∧
      r.units? = some (units ++ units') ∧ (Operator.add, p.kind, q.kind) ∈ Operator.entries := by
  cases p with
  | string xs =>
    cases q with
    | string ys =>
      cases hp
      cases hq
      have hlimit : (xs ++ ys).length ≤ limit := by
        simpa using (h.resolve_left nofun).2
      refine ⟨.string (xs ++ ys), ?_, rfl, by simp [Payload.units?], .tail _ (.head _)⟩
      simp only [tabled, limited, if_pos hlimit]
    | _ => cases hkind
  | list xs =>
    cases q with
    | list ys =>
      cases hp
      cases hq
      exact ⟨.list (xs ++ ys), rfl, rfl, by simp [Payload.units?], .tail _ (.tail _ (.head _))⟩
    | _ => cases hkind
  | tuple => exact absurd h (by simp [Payload.kind])
  | _ => cases hp

/-- **The sum of two sequences** is a new one of the units of both, if it is a list, or a
    string that is not too long. -/
theorem World.Sequence.add (hs : w.Sequence s kind units) (ht : w.Sequence t kind units')
    (h : kind = .list ∨ kind = .string ∧ (units ++ units').length ≤ w.settings.textLimit) :
    ∃ w', Ref.add hooks (some s) (some t) w = .ok (.success w.nextId) w' ∧
      w'.Sequence w.nextId kind (units ++ units') := by
  obtain ⟨o, ho, hopen⟩ := hs.readable
  obtain ⟨o', ho', hopen'⟩ := ht.readable
  obtain ⟨p, hp, rfl, hunits⟩ := hs.contents
  obtain ⟨p', hp', hkind, hunits'⟩ := ht.contents
  obtain rfl := Heap.payload_of_contents ho hp
  obtain rfl := Heap.payload_of_contents ho' hp'
  obtain ⟨r, htabled, hrkind, hrunits, hentry⟩ := Operator.tabled_add hunits hunits' hkind h
  obtain ⟨result, hresult, happly⟩ := apply_arrives hooks ho ho' hopen hopen' hentry
  cases htabled.symm.trans hresult
  have hfilled : .inr none ∉ units ++ units' :=
    fun hmem => (List.mem_append.1 hmem).elim hs.filled ht.filled
  have hnull := Payload.missingPart?_of_units hrunits hfilled
  refine ⟨_, (happly.mono (fun _ _ h => h) fun _ h => h hnull).eq_ok, ?_⟩
  rw [← World.nextId_traced]
  exact World.sequence_newborn hrkind hrunits hfilled _

/-! ## The laws -/

section Laws

variable (hs : w.Sequence s kind units)
include hs

/-- All before a bound and all from it on make up the whole, and so does their sum. -/
theorem World.Sequence.split {i : Int32} {front back : ObjId} (hfront : w.Bounds front (.upTo i))
    (hback : w.Bounds back (.since i)) :
    ∃ t₁ w₁ t₂ w₂ units₁ units₂,
      Ref.item hooks (some s) (some front) w = .ok (.success t₁) w₁ ∧
      Ref.item hooks (some s) (some back) w₁ = .ok (.success t₂) w₂ ∧
      w₂.Sequence t₁ kind units₁ ∧ w₂.Sequence t₂ kind units₂ ∧ units₁ ++ units₂ = units ∧
      (kind = .list ∨ kind = .string ∧ units.length ≤ w.settings.textLimit →
        ∃ t₃ w₃, Ref.add hooks (some t₁) (some t₂) w₂ = .ok (.success t₃) w₃ ∧
          w₃.Sequence t₃ kind units) := by
  obtain ⟨q₁, hrun₁, ht₁⟩ := hs.item hooks hfront nofun
  obtain ⟨q₂, hrun₂, ht₂⟩ := (hs.added q₁.newborn).item hooks
    (hback.added q₁.newborn) nofun
  have hwhole : SliceBounds.selected (.upTo i) units ++ SliceBounds.selected (.since i) units =
      units := by
    rw [SliceBounds.selected_upTo, SliceBounds.selected_since, List.take_append_drop]
  have ht₁' := ht₁.added q₂.newborn
  refine ⟨_, _, _, _, _, _, hrun₁, hrun₂, ht₁', ht₂, hwhole, fun h => ?_⟩
  obtain ⟨w₃, hsum, ht₃⟩ := ht₁'.add hooks ht₂ (by rwa [hwhole])
  exact ⟨_, w₃, hsum, hwhole ▸ ht₃⟩

/-- A sequence backwards is its reverse, and backwards again itself. -/
theorem World.Sequence.reversed {key : ObjId} (hkey : w.Bounds key .backwards) :
    ∃ t₁ w₁ t₂ w₂, Ref.item hooks (some s) (some key) w = .ok (.success t₁) w₁ ∧
      w₁.Sequence t₁ kind units.reverse ∧
      Ref.item hooks (some t₁) (some key) w₁ = .ok (.success t₂) w₂ ∧
      w₂.Sequence t₂ kind units := by
  obtain ⟨q₁, hrun₁, ht₁⟩ := hs.item hooks hkey (by decide)
  obtain ⟨q₂, hrun₂, ht₂⟩ := ht₁.item hooks (hkey.added q₁.newborn) (by decide)
  rw [SliceBounds.selected_backwards] at ht₁ ht₂
  rw [SliceBounds.selected_backwards, List.reverse_reverse] at ht₂
  exact ⟨_, _, _, _, hrun₁, ht₁, hrun₂, ht₂⟩

/-- To leave out so many units twice is to leave out as many as both together. -/
theorem World.Sequence.since_since {a b c : Int32} {first second both : ObjId}
    (ha : 0 ≤ a.toInt) (hb : 0 ≤ b.toInt) (hc : c.toInt = a.toInt + b.toInt)
    (hfirst : w.Bounds first (.since a)) (hsecond : w.Bounds second (.since b))
    (hboth : w.Bounds both (.since c)) :
    ∃ t₁ w₁ t₂ w₂ t₃ w₃ rest,
      Ref.item hooks (some s) (some first) w = .ok (.success t₁) w₁ ∧
      Ref.item hooks (some t₁) (some second) w₁ = .ok (.success t₂) w₂ ∧
      Ref.item hooks (some s) (some both) w₂ = .ok (.success t₃) w₃ ∧
      w₃.Sequence t₂ kind rest ∧ w₃.Sequence t₃ kind rest := by
  obtain ⟨q₁, hrun₁, ht₁⟩ := hs.item hooks hfirst nofun
  obtain ⟨q₂, hrun₂, ht₂⟩ := ht₁.item hooks (hsecond.added q₁.newborn) nofun
  obtain ⟨q₃, hrun₃, ht₃⟩ := ((hs.added q₁.newborn).added q₂.newborn).item hooks
    ((hboth.added q₁.newborn).added q₂.newborn) nofun
  have hsame : SliceBounds.selected (.since b) (SliceBounds.selected (.since a) units) =
      SliceBounds.selected (.since c) units := by
    rw [SliceBounds.selected_since_of_nonneg hb, SliceBounds.selected_since_of_nonneg ha,
      SliceBounds.selected_since_of_nonneg (by omega), List.drop_drop]
    congr 1
    omega
  exact ⟨_, _, _, _, _, _, _, hrun₁, hrun₂, hrun₃, hsame ▸ ht₂.added q₃.newborn, ht₃⟩

/-- A slice in steps holds what stands at the places that leave one remainder. -/
theorem World.Sequence.everyFrom {i k : Int32} {key : ObjId} (hi : 0 ≤ i.toInt)
    (hik : i.toInt < k.toInt) (hkey : w.Bounds key (.everyFrom i k)) :
    ∃ t w' chosen, Ref.item hooks (some s) (some key) w = .ok (.success t) w' ∧
      w'.Sequence t kind chosen ∧
      List.Forall₂ (fun place unit => units[place]? = some unit)
        (SliceBounds.residues k.toInt.toNat units.length i.toInt.toNat) chosen := by
  have hstep : (SliceBounds.everyFrom i k).step ≠ some 0 := by
    rintro ⟨⟩
    exact absurd hik (by simpa using hi)
  obtain ⟨q, hrun, ht⟩ := hs.item hooks hkey hstep
  refine ⟨_, _, _, hrun, ht, ?_⟩
  rw [← SliceBounds.places_everyFrom hi hik]
  have hlt : ∀ place ∈ ((SliceBounds.everyFrom i k).progression units.length).places,
      place < units.length := fun _ =>
    SliceBounds.lt_of_mem_places (SliceBounds.stride_ne_zero hstep)
  exact forall₂_filterMap hlt

/-- **The algebra of slices.** Let a string, a list or a tuple of any length, with no null
    slots, be one that readers can have, and so the slices of it. For every bound, what
    comes before it and what comes from it on make up the whole, and so does their sum if
    it is a list, or a string no longer than is allowed. Backwards it is its reverse, and
    twice backwards what it was. To leave out a number of units from the front and then
    another one leaves what is left without as many as both together. And the slices with
    one step that start at each place before it hold what stands at the places that leave
    one remainder each; every place of the sequence is among these just once. What is
    compared are the very objects in lists and tuples, and the bytes of strings. -/
theorem slices_make_an_algebra :
    (∀ i front back, w.Bounds front (.upTo i) → w.Bounds back (.since i) →
      ∃ t₁ w₁ t₂ w₂ units₁ units₂,
        Ref.item hooks (some s) (some front) w = .ok (.success t₁) w₁ ∧
        Ref.item hooks (some s) (some back) w₁ = .ok (.success t₂) w₂ ∧
        w₂.Sequence t₁ kind units₁ ∧ w₂.Sequence t₂ kind units₂ ∧ units₁ ++ units₂ = units ∧
        (kind = .list ∨ kind = .string ∧ units.length ≤ w.settings.textLimit →
          ∃ t₃ w₃, Ref.add hooks (some t₁) (some t₂) w₂ = .ok (.success t₃) w₃ ∧
            w₃.Sequence t₃ kind units)) ∧
    (∀ key, w.Bounds key .backwards →
      ∃ t₁ w₁ t₂ w₂, Ref.item hooks (some s) (some key) w = .ok (.success t₁) w₁ ∧
        w₁.Sequence t₁ kind units.reverse ∧
        Ref.item hooks (some t₁) (some key) w₁ = .ok (.success t₂) w₂ ∧
        w₂.Sequence t₂ kind units) ∧
    (∀ a b c : Int32, 0 ≤ a.toInt → 0 ≤ b.toInt → c.toInt = a.toInt + b.toInt →
      ∀ first second both, w.Bounds first (.since a) → w.Bounds second (.since b) →
        w.Bounds both (.since c) →
        ∃ t₁ w₁ t₂ w₂ t₃ w₃ rest,
          Ref.item hooks (some s) (some first) w = .ok (.success t₁) w₁ ∧
          Ref.item hooks (some t₁) (some second) w₁ = .ok (.success t₂) w₂ ∧
          Ref.item hooks (some s) (some both) w₂ = .ok (.success t₃) w₃ ∧
          w₃.Sequence t₂ kind rest ∧ w₃.Sequence t₃ kind rest) ∧
    ∀ k : Int32, 0 < k.toInt →
      (∀ (i : Int32) key, 0 ≤ i.toInt → i.toInt < k.toInt → w.Bounds key (.everyFrom i k) →
        ∃ t w' chosen, Ref.item hooks (some s) (some key) w = .ok (.success t) w' ∧
          w'.Sequence t kind chosen ∧
          List.Forall₂ (fun place unit => units[place]? = some unit)
            (SliceBounds.residues k.toInt.toNat units.length i.toInt.toNat) chosen) ∧
      ((List.range k.toInt.toNat).flatMap
        (SliceBounds.residues k.toInt.toNat units.length)).Perm (List.range units.length) := by
  refine ⟨fun _ _ _ => hs.split hooks, fun _ => hs.reversed hooks, ?_, fun k hk => ⟨?_, ?_⟩⟩
  · exact fun _ _ _ ha hb hc _ _ _ => hs.since_since hooks ha hb hc
  · exact fun _ _ hi hik => hs.everyFrom hooks hi hik
  · exact SliceBounds.residues_perm (by omega) _

end Laws

/-! ### A string cut in two -/

/-- An engine with a string and three slices. -/
def withWord : World Unit :=
  ((((World.initial ()).added (Payload.string (.ofString "value")).newborn).added
    (Payload.slice (.upTo (-2))).newborn).added (Payload.slice (.since (-2))).newborn).added
      (Payload.slice .backwards).newborn

/-- All but the last two bytes, and these; their sum; and the string backwards. -/
theorem slices_make_an_algebra_word :
    let word : ObjId := ⟨Heap.initial.size⟩
    let front : ObjId := ⟨Heap.initial.size + 1⟩
    let back : ObjId := ⟨Heap.initial.size + 2⟩
    let key : ObjId := ⟨Heap.initial.size + 3⟩
    (∃ t₁ w₁ t₂ w₂ t₃ w₃, Ref.item {} (some word) (some front) withWord = .ok (.success t₁) w₁ ∧
      Ref.item {} (some word) (some back) w₁ = .ok (.success t₂) w₂ ∧
      Ref.add {} (some t₁) (some t₂) w₂ = .ok (.success t₃) w₃ ∧
      w₃.Sequence t₃ .string ((Bytes.ofString "value").map .inl)) ∧
    ∃ t w', Ref.item {} (some word) (some key) withWord = .ok (.success t) w' ∧
      w'.Sequence t .string ((Bytes.ofString "eulav").map .inl) := by
  intro word front back key
  have hword : withWord.Sequence word .string ((Bytes.ofString "value").map .inl) :=
    ⟨⟨_, rfl, nofun⟩, ⟨_, rfl, rfl, rfl⟩, by simp⟩
  obtain ⟨hsplit, hreversed, -⟩ := slices_make_an_algebra {} hword
  obtain ⟨t₁, w₁, t₂, w₂, _, _, hfront, hback, -, -, -, hsum⟩ := hsplit (-2) front back
    ⟨⟨_, rfl, nofun⟩, rfl⟩ ⟨⟨_, rfl, nofun⟩, rfl⟩
  obtain ⟨t₃, w₃, hrun, hwhole⟩ := hsum (.inr ⟨rfl, by decide⟩)
  obtain ⟨t, w', _, _, hrun', hreverse, -⟩ := hreversed key ⟨⟨_, rfl, nofun⟩, rfl⟩
  exact ⟨⟨t₁, w₁, t₂, w₂, t₃, w₃, hfront, hback, hrun, hwhole⟩, t, w', hrun', hreverse⟩

end ValueEngine
