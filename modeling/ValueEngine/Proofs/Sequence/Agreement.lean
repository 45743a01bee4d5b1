/-
  Value engine — what is read of a sequence, and stored in a list.

  A string, a list or a tuple is looked at in several ways: by index, by its length, as a
  truth value, by an iterator. They all tell of the same units, at the same places, and so
  does what is stored in a list.

  * `Denotes`: the place that an index denotes; `position?_eq_some_iff`,
    `exists_denotes_iff`: which indices do.
  * `Indexed`: what reading tells of a sequence (`indexed_of_contents`).
  * `Delivers`: what an iterator gives until it ends (`delivers_of_cursor`).
  * `sequences_agree`: reading, iterating and storing.
-/
import ValueEngine.Proofs.Dictionary.Laws
import ValueEngine.Proofs.Iteration.Protocol
import ValueEngine.Proofs.Slicing.Selection
import ValueEngine.Proofs.Soundness.Plain

namespace ValueEngine

variable {σ : Type} {hooks : Hooks σ} {w w' : World σ} {c key : ObjId} {p : Payload}
  {units : List (UInt8 ⊕ Ref)} {elements : List Ref} {i j : Int32} {n place : Nat}

/-! ## Places -/

/-- The place that an index denotes among `n`: a negative one counts from the end. -/
def Denotes (i : Int32) (n place : Nat) : Prop :=
  place < n ∧ (place : Int) = if i.toInt < 0 then i.toInt + n else i.toInt

theorem Denotes.unique {place' : Nat} (h : Denotes i n place) (h' : Denotes i n place') :
    place = place' := by
  have := h.2.trans h'.2.symm
  omega

theorem position?_eq_some_iff : position? i n = some place ↔ Denotes i n place := by
  unfold position? Denotes
  split <;> simp only [Option.ite_none_right_eq_some, Option.some.injEq] <;> omega

/-- An index that is not below zero denotes itself. -/
theorem denotes_of_nonneg (hi : 0 ≤ i.toInt) :
    Denotes i n place ↔ place < n ∧ place = i.toInt.toNat := by
  unfold Denotes
  split <;> omega

/-- The indices from `-n` up to `n - 1` denote a place, and no others. -/
theorem exists_denotes_iff :
    (∃ place, Denotes i n place) ↔ -(n : Int) ≤ i.toInt ∧ i.toInt < n := by
  constructor
  · rintro ⟨place, hlt, hplace⟩
    split at hplace <;> omega
  · rintro ⟨hlow, hhigh⟩
    by_cases hi : i.toInt < 0
    · exact ⟨(i.toInt + n).toNat, by omega, by rw [if_pos hi]; omega⟩
    · exact ⟨i.toInt.toNat, by omega, by rw [if_neg hi]; omega⟩

theorem position?_eq_none (h : ¬(-(n : Int) ≤ i.toInt ∧ i.toInt < n)) : position? i n = none := by
  rw [Option.eq_none_iff_forall_ne_some]
  exact fun place hplace => h (exists_denotes_iff.1 ⟨place, position?_eq_some_iff.1 hplace⟩)

/-! ## Reading -/

/-- A failure for an index out of range, unless the host does not come back from hearing
    of it. -/
def IndexFails (hooks : Hooks σ) (x : Action σ Outcome) (w : World σ) : Prop :=
  x.Arrives w (fun outcome _ => ∃ cause, outcome = .failure cause ∧ cause.kind? = some .badIndex)
    fun _ => ¬hooks.Returns

theorem IndexFails.ne_success {x : Action σ Outcome} {r : ObjId} (h : IndexFails hooks x w) :
    x w ≠ .ok (.success r) w' := by
  intro hrun
  obtain ⟨cause, hcause, -⟩ := h.of_run hrun
  cases hcause

/-- What reading a sequence tells of its units. -/
structure Indexed (hooks : Hooks σ) (w : World σ) (c : ObjId) (units : List (UInt8 ⊕ Ref)) :
    Prop where
  length : ∃ n : Int32, n.toInt = units.length ∧
    Ref.length hooks (some c) w = .ok (.success w.nextId) (w.added (Payload.integer n).newborn)
  truth : Ref.truth (some c) w = .ok (units.length != 0) w
  /-- There is the very object. -/
  object : ∀ {key i place v}, w.heap.contents key = some (.integer i) →
    Denotes i units.length place → units[place]? = some (.inr (some v)) →
    Ref.item hooks (some c) (some key) w = .ok (.success v) w
  /-- A byte is given as a new string. -/
  byte : ∀ {key i place b}, w.heap.contents key = some (.integer i) →
    Denotes i units.length place → units[place]? = some (.inl b) →
    Ref.item hooks (some c) (some key) w =
      .ok (.success w.nextId) (w.added (Payload.string [b]).newborn)
  refused : ∀ {key i}, w.heap.contents key = some (.integer i) →
    ¬(-(units.length : Int) ≤ i.toInt ∧ i.toInt < units.length) →
    IndexFails hooks (Ref.item hooks (some c) (some key)) w

namespace Payload

theorem length?_of_units? (hunits : p.units? = some units) : p.length? = some units.length := by
  cases p with
  | string xs | list xs | tuple xs => cases hunits; simp [length?]
  | _ => cases hunits

theorem units?_of_elements? (h : p.elements? = some elements) :
    p.units? = some (elements.map .inr) := by
  cases p with
  | list xs | tuple xs => cases h; rfl
  | _ => cases h

theorem itemOf_object {v : ObjId} (hunits : p.units? = some units)
    (hplace : Denotes i units.length place) (hv : units[place]? = some (.inr (some v))) :
    itemOf hooks p (.integer i) = Action.succeed (some v) := by
  cases p with
  | string xs => cases hunits; simp at hv
  | list xs | tuple xs =>
    cases hunits
    rw [List.length_map] at hplace
    have hx : xs[place]? = some (some v) := by simpa using hv
    simp only [itemOf, sequenceItem, position?_eq_some_iff.2 hplace, hx, Option.join_some]
  | _ => cases hunits

theorem itemOf_byte {b : UInt8} (hunits : p.units? = some units)
    (hplace : Denotes i units.length place) (hb : units[place]? = some (.inl b)) :
    itemOf hooks p (.integer i) = freshValue (.string [b]) := by
  cases p with
  | string xs =>
    cases hunits
    rw [List.length_map] at hplace
    have hx : xs[place]? = some b := by simpa using hb
    simp only [itemOf, textItem, position?_eq_some_iff.2 hplace, hx, Option.toList_some]
  | list xs | tuple xs => cases hunits; simp at hb
  | _ => cases hunits

theorem itemOf_refused (hunits : p.units? = some units)
    (hi : ¬(-(units.length : Int) ≤ i.toInt ∧ i.toInt < units.length)) :
    itemOf hooks p (.integer i) = fail hooks (.indexOutOfRange p.kind) := by
  cases p with
  | string xs | list xs | tuple xs =>
    cases hunits
    rw [List.length_map] at hi
    simp only [itemOf, sequenceItem, textItem, position?_eq_none hi, kind]
  | _ => cases hunits

end Payload

/-- A sequence is no integer. -/
theorem ne_of_integer (hp : w.heap.contents c = some p) (hunits : p.units? = some units)
    (hkey : w.heap.contents key = some (.integer i)) : c ≠ key := by
  rintro rfl
  cases hp.symm.trans hkey
  cases hunits

/-- **The ways to read a sequence agree** where nobody writes. -/
theorem indexed_of_contents (hopen : w.heap.Unwritten) (hp : w.heap.contents c = some p)
    (hunits : p.units? = some units) (hn : units.length < 2 ^ 31) : Indexed hooks w c units := by
  obtain ⟨o, ho, rfl⟩ := Option.map_eq_some_iff.1 hp
  have hc : w.Open c := ⟨o, ho, hopen c o ho⟩
  have hlength := Payload.length?_of_units? hunits
  have hkey : ∀ {key : ObjId} {i : Int32}, w.heap.contents key = some (.integer i) →
      ∃ k, w.heap.get? key = some k ∧ k.loan ≠ .exclusive ∧ k.payload = .integer i ∧ c ≠ key := by
    intro key i hi
    obtain ⟨k, hk, hki⟩ := Option.map_eq_some_iff.1 hi
    exact ⟨k, hk, hopen key k hk, hki, ne_of_integer hp hunits hi⟩
  constructor
  case length =>
    obtain ⟨m, hm⟩ : ∃ m, Checked.ofInt? units.length = some m := by
      refine ⟨Int32.ofInt units.length, Checked.ofInt?_eq_some_iff.2 ?_⟩
      exact Int32.toInt_ofInt_of_le (by omega) (by omega)
    exact ⟨m, Checked.ofInt?_eq_some_iff.1 hm, length_eq hc hp hlength hm hooks⟩
  case truth => exact truth_eq hc hp hlength
  case object =>
    intro key i place v hi hplace hv
    obtain ⟨k, hk, hku, hki, hne⟩ := hkey hi
    refine item_of_found ho hk hne (hopen c o ho) hku ?_
    rw [hki, Payload.itemOf_object hunits hplace hv]
  case byte =>
    intro key i place b hi hplace hb
    obtain ⟨k, hk, hku, hki, hne⟩ := hkey hi
    refine item_of_fresh ho hk hne (hopen c o ho) hku ?_ rfl
    rw [hki, Payload.itemOf_byte hunits hplace hb]
  case refused =>
    intro key i hi hout
    obtain ⟨k, hk, hku, hki, hne⟩ := hkey hi
    have hitem : itemOf hooks o.payload k.payload = fail hooks (.indexOutOfRange o.kind) := by
      rw [hki, Payload.itemOf_refused hunits hout]
      rfl
    exact (item_of_failed ho hk hne (hopen c o ho) hku hitem).mono (fun _ _ h => ⟨_, h, rfl⟩)
      fun _ h => h

/-- Of a sequence without null slots an item is given just if there is one. -/
theorem Indexed.item_iff (h : Indexed hooks w c units) (hnull : .inr none ∉ units)
    (hkey : w.heap.contents key = some (.integer i)) :
    (∃ r w', Ref.item hooks (some c) (some key) w = .ok (.success r) w') ↔
      -(units.length : Int) ≤ i.toInt ∧ i.toInt < units.length := by
  constructor
  · rintro ⟨r, w', hrun⟩
    by_contra hout
    exact (h.refused hkey hout).ne_success hrun
  · intro hin
    obtain ⟨place, hplace⟩ := exists_denotes_iff.2 hin
    have hunit := List.getElem?_eq_getElem hplace.1
    cases hu : units.get ⟨place, hplace.1⟩ with
    | inl b => exact ⟨_, _, h.byte hkey hplace (hunit.trans (congrArg some hu))⟩
    | inr r =>
      cases r with
      | none => exact absurd (hu ▸ List.getElem_mem hplace.1) hnull
      | some v => exact ⟨_, _, h.object hkey hplace (hunit.trans (congrArg some hu))⟩

/-! ## Iterating -/

/-- An iterator gives these objects, one after the other, and then ends. -/
inductive Delivers (hooks : Hooks σ) (it : ObjId) : World σ → List ObjId → World σ → Prop
  | ended {w w' : World σ} :
      Ref.next hooks (some it) w = .ok .exhausted w' → Delivers hooks it w [] w'
  | step {w w' w'' : World σ} {v : ObjId} {vs : List ObjId} :
      Ref.next hooks (some it) w = .ok (.success v) w' → Delivers hooks it w' vs w'' →
      Delivers hooks it w (v :: vs) w''

variable (hooks) in
/-- An iterator that nobody has gives what is ahead of it. -/
theorem delivers_of_cursor {it : ObjId} {o q : Object} (passed : List Ref) {vs : List ObjId}
    (hit : w.heap.get? it = some o) (hfree : o.loan = .free)
    (hcursor : o.payload = .iterator { target := some c, position := passed.length })
    (hc : w.heap.get? c = some q) (hq : q.loan ≠ .exclusive)
    (helements : q.payload.elements? = some (passed ++ vs.map some)) :
    ∃ w', Delivers hooks it w vs w' := by
  have hne : it ≠ c := by
    rintro rfl
    cases hit.symm.trans hc
    rw [hcursor] at helements
    cases helements
  have hnext := next_eq hooks hit hcursor rfl hc hne hfree hq helements
  -- what is ahead of the iterator gets shorter, and what it has passed longer
  induction vs generalizing w o passed with
  | nil =>
    rw [Cursor.next_of_ge rfl (by simp)] at hnext
    exact ⟨_, .ended hnext⟩
  | cons v vs ih =>
    have hv : (passed ++ (v :: vs).map some)[passed.length]? = some (some v) := by simp
    rw [Cursor.next_of_lt rfl hv] at hnext
    let moved : Cursor := { target := some c, position := passed.length + 1 }
    let o' : Object := { o with payload := .iterator moved }
    have hit' : (w.moved it moved).heap.get? it = some o' := by
      rw [World.moved, Heap.get?_update_self, hit, Option.map_some]
    have hc' : (w.moved it moved).heap.get? c = some q :=
      (Heap.get?_update_of_ne hne.symm _).trans hc
    have hcursor' : o'.payload =
        .iterator { target := some c, position := (passed ++ [some v]).length } := by
      simp [o', moved]
    have helements' : q.payload.elements? = some ((passed ++ [some v]) ++ vs.map some) := by
      rw [helements, List.append_assoc, List.map_cons, List.singleton_append]
    obtain ⟨w', hrest⟩ := ih (passed ++ [some v]) hit' hfree hcursor' hc' helements'
      (next_eq hooks hit' hcursor' rfl hc' hne hfree hq helements')
    exact ⟨w', .step hnext hrest⟩

variable (hooks) in
/-- A new iterator over a list or a tuple gives its elements. -/
theorem delivers_of_iterate {vs : List ObjId} (hc : w.Open c) (hp : w.heap.contents c = some p)
    (helements : p.elements? = some (vs.map some)) :
    ∃ it w₁ w₂, Ref.iterate hooks (some c) w = .ok (.success it) w₁ ∧
      Delivers hooks it w₁ vs w₂ := by
  obtain ⟨q, hq, hopen⟩ := hc
  obtain rfl := Heap.payload_of_contents hq hp
  obtain ⟨w₂, hall⟩ := delivers_of_cursor hooks []
    (World.get?_added_nextId (Payload.iterator { target := some c }).newborn w) rfl rfl
    (Heap.get?_allocate_of_some hq _) hopen helements
  exact ⟨_, _, w₂, iterate_eq hq hopen helements, hall⟩

/-! ## Storing -/

section Storing

variable {v : ObjId} (hc : w.Free c) (hp : w.heap.contents c = some (.list elements))
  (hkey : w.Open key) (hi : w.heap.contents key = some (.integer i))
include hc hp hkey hi

/-- What is stored under an index takes the place that the index denotes. -/
theorem store_at (hplace : Denotes i elements.length place) :
    Ref.store hooks (some c) (some key) (some v) w = .ok (.success noneId)
      (w.edited c fun o => { o with payload := .list (elements.set place (some v)) }) := by
  obtain ⟨o, l, ho, hl, hrun⟩ := store_eq hooks v hc hp hkey hi
  simp only [Payload.stored?, position?_eq_some_iff.2 hplace] at hrun
  refine (hrun.trans (lend_of_ok ho hl rfl)).trans (congrArg _ ?_)
  exact World.endLoan_edited ho hl fun _ _ => rfl

/-- Under an index that denotes no place nothing is stored. -/
theorem store_out_of_range
    (hout : ¬(-(elements.length : Int) ≤ i.toInt ∧ i.toInt < elements.length)) :
    IndexFails hooks (Ref.store hooks (some c) (some key) (some v)) w := by
  obtain ⟨o, l, ho, hl, hrun⟩ := store_eq hooks v hc hp hkey hi
  simp only [Payload.stored?, position?_eq_none hout] at hrun
  refine .of_eq (.lent ho hl ?_) hrun
  exact (Action.Arrives.fail_or_throws hooks .assignmentOutOfRange _).mono
    (fun _ _ h => ⟨_, h, rfl⟩) fun _ h => h

end Storing

/-- Of a list or a tuple an item is given just if it stands at the place. -/
theorem Indexed.item_eq_iff {v : ObjId} (h : Indexed hooks w c (elements.map .inr))
    (hnull : none ∉ elements) (hkey : w.heap.contents key = some (.integer i)) :
    Ref.item hooks (some c) (some key) w = .ok (.success v) w ↔
      ∃ place, Denotes i elements.length place ∧ elements[place]? = some (some v) := by
  have hobject : ∀ {place u}, Denotes i elements.length place →
      elements[place]? = some (some u) →
      Ref.item hooks (some c) (some key) w = .ok (.success u) w := by
    intro place u hplace hu
    exact h.object hkey (by rwa [List.length_map]) (by simp [hu])
  constructor
  · intro hrun
    have hin := (h.item_iff (by simpa using hnull) hkey).1 ⟨v, w, hrun⟩
    rw [List.length_map] at hin
    obtain ⟨place, hplace⟩ := exists_denotes_iff.2 hin
    obtain ⟨u, hu⟩ := exists_of_lt hnull hplace.1
    rw [hobject hplace hu] at hrun
    cases hrun
    exact ⟨place, hplace, hu⟩
  · rintro ⟨place, hplace, hv⟩
    exact hobject hplace hv

/-! ## Agreement -/

theorem World.unwritten_edited {f : Object → Object} (hopen : w.heap.Unwritten)
    (hf : ∀ o, (f o).loan = o.loan) : (w.edited c f).heap.Unwritten := by
  intro j o ho
  by_cases hj : j = c
  · subst hj
    rw [World.edited, Heap.get?_update_self] at ho
    obtain ⟨q, hq, rfl⟩ := Option.map_eq_some_iff.1 ho
    rw [hf]
    exact hopen j q hq
  · rw [World.edited, Heap.get?_update_of_ne hj] at ho
    exact hopen j o ho

variable (hooks) in
/-- What is read of a list after an object was put in a place of it. -/
theorem indexed_of_edited (place : Nat) (v : ObjId) (hopen : w.heap.Unwritten)
    (hp : w.heap.contents c = some (.list elements)) (hn : elements.length < 2 ^ 31)
    (hnull : none ∉ elements) {edited : World σ} (hedited : edited = w.edited c fun o =>
      { o with payload := .list (elements.set place (some v)) }) :
    Indexed hooks edited c ((elements.set place (some v)).map .inr) ∧
    none ∉ elements.set place (some v) ∧
    ∀ {key : ObjId} {j : Int32}, w.heap.contents key = some (.integer j) →
      edited.heap.contents key = some (.integer j) := by
  subst hedited
  refine ⟨?_, ?_, ?_⟩
  · refine indexed_of_contents (World.unwritten_edited hopen fun _ => rfl)
      (World.contents_edited hp) rfl ?_
    simpa using hn
  · intro hmem
    rcases List.mem_or_eq_of_mem_set hmem with hold | hnew
    · exact hnull hold
    · cases hnew
  · intro key j hj
    rw [World.edited, Heap.contents_update_of_ne (ne_of_integer hp rfl hj).symm, hj]

/-- What a new iterator gives is what the indices from zero on give. -/
theorem iterate_agrees (hc : w.Open c) (hp : w.heap.contents c = some p)
    (helements : p.elements? = some elements) (hnull : none ∉ elements)
    (hindexed : Indexed hooks w c (elements.map .inr)) :
    ∃ it w₁ w₂ vs, Ref.iterate hooks (some c) w = .ok (.success it) w₁ ∧
      Delivers hooks it w₁ vs w₂ ∧ elements = vs.map some ∧
      ∀ key i v, w.heap.contents key = some (.integer i) → 0 ≤ i.toInt →
        (vs[i.toInt.toNat]? = some v ↔
          Ref.item hooks (some c) (some key) w = .ok (.success v) w) := by
  obtain ⟨vs, rfl⟩ := exists_eq_map_some hnull
  obtain ⟨it, w₁, w₂, hrun, hall⟩ := delivers_of_iterate hooks hc hp helements
  refine ⟨it, w₁, w₂, vs, hrun, hall, rfl, fun key i v hi hnonneg => ?_⟩
  rw [hindexed.item_eq_iff hnull hi]
  simp only [denotes_of_nonneg hnonneg, List.length_map, List.getElem?_map]
  constructor
  · intro hv
    obtain ⟨hlt, -⟩ := List.getElem?_eq_some_iff.1 hv
    exact ⟨_, ⟨hlt, rfl⟩, by rw [hv, Option.map_some]⟩
  · rintro ⟨place, ⟨-, rfl⟩, hv⟩
    obtain ⟨u, hu, huv⟩ := Option.map_eq_some_iff.1 hv
    rwa [Option.some.inj huv] at hu

/-- What was stored under an index is what is there, and nothing else changed. -/
theorem store_agrees {v r : ObjId} (hopen : w.heap.Unwritten) (hc : w.Free c)
    (hp : w.heap.contents c = some (.list elements)) (hn : elements.length < 2 ^ 31)
    (hnull : none ∉ elements) (hkey : w.heap.contents key = some (.integer i))
    (hrun : Ref.store hooks (some c) (some key) (some v) w = .ok (.success r) w') :
    ∃ place, Denotes i elements.length place ∧
      Indexed hooks w' c ((elements.set place (some v)).map .inr) ∧
      ∀ key' j, w.heap.contents key' = some (.integer j) →
        w'.heap.contents key' = some (.integer j) ∧
        (Denotes j elements.length place →
          Ref.item hooks (some c) (some key') w' = .ok (.success v) w') ∧
        (¬Denotes j elements.length place → ∀ u,
          (Ref.item hooks (some c) (some key') w = .ok (.success u) w ↔
            Ref.item hooks (some c) (some key') w' = .ok (.success u) w')) := by
  obtain ⟨k, hk, -⟩ := Option.map_eq_some_iff.1 hkey
  have hreadable : w.Open key := ⟨k, hk, hopen key k hk⟩
  obtain ⟨place, hplace⟩ : ∃ place, Denotes i elements.length place := by
    rw [exists_denotes_iff]
    by_contra hout
    exact (store_out_of_range hc hp hreadable hkey hout).ne_success hrun
  rw [store_at hc hp hreadable hkey hplace] at hrun
  cases hrun
  have hbefore : Indexed hooks w c (elements.map .inr) :=
    indexed_of_contents hopen hp rfl (by simpa using hn)
  obtain ⟨hafter, hnull', hkeys⟩ := indexed_of_edited hooks place v hopen
    hp hn hnull rfl
  refine ⟨place, hplace, hafter, fun key' j hj => ⟨hkeys hj, fun hsame => ?_, fun hother u => ?_⟩⟩
  · rw [hafter.item_eq_iff hnull' (hkeys hj), List.length_set]
    exact ⟨place, hsame, List.getElem?_set_self hplace.1⟩
  · rw [hbefore.item_eq_iff hnull hj, hafter.item_eq_iff hnull' (hkeys hj), List.length_set]
    refine exists_congr fun place' => and_congr_right fun hplace' => ?_
    have hne : place ≠ place' := fun heq => hother (heq ▸ hplace')
    rw [List.getElem?_set_ne hne]

variable (hooks) in
/-- **Reading, iterating and storing agree on every sequence.** Let nobody have anything,
    and let a string, a list or a tuple have less than `2 ^ 31` units, none of them null.
    Its length is their number, and it counts as true just if there are any. An index from
    minus this number up to one below it gives the unit at the place that it denotes, of a
    list or a tuple the very object, of a string a new string of this one byte; any other
    is a failure for a bad index. A new iterator over a list or a tuple gives, until it
    ends, just the objects that the indices from zero on give, in this order. In a list an
    object is stored under just those indices that give one; afterwards it is what every
    index gives that denotes the same place, every other one gives what it gave, and the
    length is what it was. -/
theorem sequences_agree (hexact : Exact [] w.heap) (hp : w.heap.contents c = some p)
    (hunits : p.units? = some units) (hnull : none ∉ p.slots) (hn : units.length < 2 ^ 31) :
    Indexed hooks w c units ∧
    (∀ key i, w.heap.contents key = some (.integer i) →
      ((∃ r w', Ref.item hooks (some c) (some key) w = .ok (.success r) w') ↔
        -(units.length : Int) ≤ i.toInt ∧ i.toInt < units.length)) ∧
    (∀ elements, p.elements? = some elements → ∃ it w₁ w₂ vs,
      Ref.iterate hooks (some c) w = .ok (.success it) w₁ ∧ Delivers hooks it w₁ vs w₂ ∧
      elements = vs.map some ∧
      ∀ key i v, w.heap.contents key = some (.integer i) → 0 ≤ i.toInt →
        (vs[i.toInt.toNat]? = some v ↔
          Ref.item hooks (some c) (some key) w = .ok (.success v) w)) ∧
    ∀ elements, p = .list elements → ∀ key i v, w.heap.contents key = some (.integer i) →
      ((∃ r w', Ref.store hooks (some c) (some key) (some v) w = .ok (.success r) w') ↔
        ∃ r w', Ref.item hooks (some c) (some key) w = .ok (.success r) w') ∧
      (¬(-(elements.length : Int) ≤ i.toInt ∧ i.toInt < elements.length) →
        IndexFails hooks (Ref.store hooks (some c) (some key) (some v)) w) ∧
      ∀ r w', Ref.store hooks (some c) (some key) (some v) w = .ok (.success r) w' →
        ∃ place, Denotes i elements.length place ∧
          Indexed hooks w' c ((elements.set place (some v)).map .inr) ∧
          ∀ key' j, w.heap.contents key' = some (.integer j) →
            w'.heap.contents key' = some (.integer j) ∧
            (Denotes j elements.length place →
              Ref.item hooks (some c) (some key') w' = .ok (.success v) w') ∧
            (¬Denotes j elements.length place → ∀ u,
              (Ref.item hooks (some c) (some key') w = .ok (.success u) w ↔
                Ref.item hooks (some c) (some key') w' = .ok (.success u) w')) := by
  have hopen : w.heap.Unwritten := hexact.unwritten_of_nil
  obtain ⟨o, ho, -⟩ := Option.map_eq_some_iff.1 hp
  have hc : w.Free c := ⟨o, ho, hexact.free_of_nil ho⟩
  have hindexed : Indexed hooks w c units := indexed_of_contents hopen hp hunits hn
  have hitem : ∀ key i, w.heap.contents key = some (.integer i) →
      ((∃ r w', Ref.item hooks (some c) (some key) w = .ok (.success r) w') ↔
        -(units.length : Int) ≤ i.toInt ∧ i.toInt < units.length) := fun _ _ =>
    hindexed.item_iff (mt (Payload.null_mem_units hunits).1 hnull)
  refine ⟨hindexed, hitem, fun elements helements => ?_, ?_⟩
  · cases hunits.symm.trans (Payload.units?_of_elements? helements)
    have hnull' : none ∉ elements := by simpa using mt (Payload.null_mem_units hunits).1 hnull
    exact iterate_agrees ⟨o, ho, hopen c o ho⟩ hp helements hnull' hindexed
  · rintro elements rfl key i v hkey
    cases hunits
    rw [List.length_map] at hn hitem
    obtain ⟨k, hk, -⟩ := Option.map_eq_some_iff.1 hkey
    have hreadable : w.Open key := ⟨k, hk, hopen key k hk⟩
    refine ⟨?_, store_out_of_range hc hp hreadable hkey,
      fun r w' => store_agrees hopen hc hp hn hnull hkey⟩
    rw [hitem key i hkey, ← exists_denotes_iff]
    constructor
    · rintro ⟨r, w', hrun⟩
      obtain ⟨place, hplace, -⟩ := store_agrees hopen hc hp hn hnull hkey hrun
      exact ⟨place, hplace⟩
    · rintro ⟨place, hplace⟩
      exact ⟨_, _, store_at hc hp hreadable hkey hplace⟩

/-! ### A list that holds itself -/

/-- The list, which holds None and itself. -/
def ouroboros : ObjId := ⟨Heap.initial.size⟩

/-- It, and the integers -2, 1 and 2. -/
def withOuroboros : World Unit :=
  (((World.initial ()).added (Payload.list [some noneId, some ouroboros]).newborn).added
    (Payload.integer (-2)).newborn).added (Payload.integer 1).newborn |>.added
      (Payload.integer 2).newborn

/-- The list gives itself last, by index and by iterator. When it was stored in its own first
    place that is what both indices give, and there is still no third place. -/
theorem sequences_agree_ouroboros :
    let first : ObjId := ⟨Heap.initial.size + 1⟩
    let last : ObjId := ⟨Heap.initial.size + 2⟩
    let beyond : ObjId := ⟨Heap.initial.size + 3⟩
    (∃ it w₁ w₂, Ref.iterate {} (some ouroboros) withOuroboros = .ok (.success it) w₁ ∧
      Delivers {} it w₁ [noneId, ouroboros] w₂) ∧
    ∃ r w', Ref.store {} (some ouroboros) (some first) (some ouroboros) withOuroboros =
        .ok (.success r) w' ∧
      Ref.item {} (some ouroboros) (some first) w' = .ok (.success ouroboros) w' ∧
      Ref.item {} (some ouroboros) (some last) w' = .ok (.success ouroboros) w' ∧
      IndexFails {} (Ref.item {} (some ouroboros) (some beyond)) w' := by
  intro first last beyond
  have hcontents : withOuroboros.heap.contents ouroboros =
    some (.list [some noneId, some ouroboros]) := by decide
  obtain ⟨-, -, hiterate, hstore⟩ := sequences_agree {} (.nil_of_cells (by decide)) hcontents rfl
    (by decide) (by decide)
  constructor
  · obtain ⟨it, w₁, w₂, vs, hrun, hall, helements, -⟩ := hiterate _ rfl
    have hvs : vs = [noneId, ouroboros] :=
      List.map_injective_iff.2 (Option.some_injective _) helements.symm
    exact ⟨it, w₁, w₂, hrun, hvs ▸ hall⟩
  · obtain ⟨hiff, -, hafter⟩ := hstore _ rfl first (-2) ouroboros (by decide)
    obtain ⟨r, w', hrun⟩ := hiff.2 ⟨_, _, rfl⟩
    obtain ⟨place, hplace, hindexed, hread⟩ := hafter r w' hrun
    obtain rfl : place = 0 := hplace.unique ⟨by decide, by decide⟩
    refine ⟨r, w', hrun, (hread first (-2) (by decide)).2.1 hplace, ?_, ?_⟩
    · have hother : ¬Denotes 1 2 0 := fun h => absurd h.2 (by decide)
      exact ((hread last 1 (by decide)).2.2 hother ouroboros).1 rfl
    · exact hindexed.refused (hread beyond 2 (by decide)).1 (by decide)

end ValueEngine
