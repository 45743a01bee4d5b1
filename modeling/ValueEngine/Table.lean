/-
  Value engine — tables keyed by byte strings.

  A table is an association list in ascending key order. It serves as the
  payload of dictionaries, as the attribute table of an object and as the
  bindings of a session.

  * `Table.Ascending`: keys are unique and strictly ascending in byte order.
  * `Table.insert`, `Table.erase`: update one key and keep the order
    (`Ascending.insert`, `Ascending.erase`).
  * `Table.ofList`: the table of any sequence of entries; the later of two
    entries with one key counts.
  * `Table.find?_insert_self`, `Table.find?_insert_of_ne`, `Table.find?_erase_of_ne`,
    `Ascending.find?_erase_self`: what an update shows.
  * `Table.mem_values_of_insert`, `Table.mem_values_of_erase`: where values come from.
-/
import ValueEngine.Bytes

namespace ValueEngine

/-- Entries of a finite map, listed by ascending key. -/
abbrev Table (α : Type) := List (Bytes × α)

namespace Table

variable {α : Type}

/-- The keys, in the order of the entries. -/
def keys (t : Table α) : List Bytes := t.map Prod.fst

/-- The values, in the order of the entries. -/
def values (t : Table α) : List α := t.map Prod.snd

/-- Keys are strictly ascending, hence unique. -/
def Ascending (t : Table α) : Prop := t.keys.Pairwise (· < ·)

/-- The value stored under a key. -/
def find? (key : Bytes) : Table α → Option α
  | [] => none
  | (k, v) :: rest => if key = k then some v else find? key rest

/-- Whether a key is present. -/
def contains (key : Bytes) (t : Table α) : Bool := (t.find? key).isSome

/-- Stores a value under a key, in place of the one that was there. -/
def insert (key : Bytes) (value : α) : Table α → Table α
  | [] => [(key, value)]
  | (k, v) :: rest =>
    if key < k then (key, value) :: (k, v) :: rest
    else if key = k then (key, value) :: rest
    else (k, v) :: insert key value rest

/-- Removes a key and its value; an absent key changes nothing. -/
def erase (key : Bytes) : Table α → Table α
  | [] => []
  | (k, v) :: rest => if key = k then rest else (k, v) :: erase key rest

/-- The table of a sequence of entries, of which the later one under a key counts. -/
def ofList (entries : List (Bytes × α)) : Table α :=
  entries.foldl (fun t e => t.insert e.1 e.2) []

/-! ## What a table holds after an update -/

@[simp] theorem find?_nil (key : Bytes) : find? key ([] : Table α) = none := rfl

@[simp] theorem find?_insert_self (key : Bytes) (value : α) (t : Table α) :
    (t.insert key value).find? key = some value := by
  induction t with
  | nil => simp [insert, find?]
  | cons e rest ih =>
    obtain ⟨k, v⟩ := e
    simp only [insert]
    split
    · simp [find?]
    · split
      · simp [find?]
      · rename_i hne
        simp [find?, hne, ih]

theorem find?_insert_of_ne {key other : Bytes} (h : other ≠ key) (value : α) (t : Table α) :
    (t.insert key value).find? other = t.find? other := by
  induction t with
  | nil => simp [insert, find?, h]
  | cons e rest ih =>
    obtain ⟨k, v⟩ := e
    simp only [insert]
    split
    · simp [find?, h]
    · split
      · rename_i heq
        subst heq
        simp [find?, h]
      · simp [find?, ih]

theorem find?_eq_none_iff {key : Bytes} {t : Table α} : t.find? key = none ↔ key ∉ t.keys := by
  induction t with
  | nil => simp [keys]
  | cons e rest ih =>
    obtain ⟨k, v⟩ := e
    simp only [find?, keys, List.map_cons, List.mem_cons, not_or] at ih ⊢
    split <;> simp_all

theorem contains_iff {key : Bytes} {t : Table α} : t.contains key = true ↔ key ∈ t.keys := by
  rw [contains, ← Option.ne_none_iff_isSome, ne_eq, find?_eq_none_iff, Decidable.not_not]

theorem mem_keys_insert {key k : Bytes} {value : α} {t : Table α} :
    k ∈ (t.insert key value).keys ↔ k = key ∨ k ∈ t.keys := by
  induction t with
  | nil => simp [insert, keys]
  | cons e rest ih =>
    obtain ⟨k', v⟩ := e
    simp only [insert]
    split
    · simp [keys]
    · split
      · rename_i heq
        subst heq
        simp [keys]
      · simp only [keys, List.map_cons, List.mem_cons] at ih ⊢
        rw [ih]
        constructor <;> rintro (h | h | h) <;> simp [h]

theorem find?_erase_of_ne {key other : Bytes} (h : other ≠ key) (t : Table α) :
    (t.erase key).find? other = t.find? other := by
  induction t with
  | nil => rfl
  | cons e rest ih =>
    obtain ⟨k, v⟩ := e
    simp only [erase]
    split
    · rename_i heq
      subst heq
      simp [find?, h]
    · simp [find?, ih]

/-- To store under a new key and to remove it again leaves a table as it was. -/
theorem erase_insert {key : Bytes} {t : Table α} (h : key ∉ t.keys) (value : α) :
    (t.insert key value).erase key = t := by
  induction t with
  | nil => simp [insert, erase]
  | cons e rest ih =>
    obtain ⟨k, v⟩ := e
    have hk : key ≠ k := List.ne_of_not_mem_cons h
    have hrest : key ∉ keys rest := List.not_mem_of_not_mem_cons h
    simp only [insert]
    split
    · simp [erase]
    · simp only [if_neg hk, erase, ih hrest]

/-- In which order two keys are removed does not matter. -/
theorem erase_comm (a b : Bytes) (t : Table α) : (t.erase a).erase b = (t.erase b).erase a := by
  induction t with
  | nil => rfl
  | cons e rest ih =>
    obtain ⟨k, v⟩ := e
    by_cases ha : a = k <;> by_cases hb : b = k <;> simp [erase, ha, hb, ih]

/-! ## Values -/

theorem mem_values_of_find? {key : Bytes} {value : α} {t : Table α}
    (h : t.find? key = some value) : value ∈ t.values := by
  induction t with
  | nil => cases h
  | cons e rest ih =>
    obtain ⟨k, v⟩ := e
    simp only [find?] at h
    split at h
    · cases h
      exact List.mem_cons_self
    · exact List.mem_cons_of_mem _ (ih h)

/-- A table after an update holds the new value and some of the old ones. -/
theorem mem_values_of_insert {key : Bytes} {value v : α} {t : Table α}
    (h : v ∈ (t.insert key value).values) : v = value ∨ v ∈ t.values := by
  induction t with
  | nil => exact .inl (List.mem_singleton.1 h)
  | cons e rest ih =>
    obtain ⟨k, u⟩ := e
    simp only [insert] at h
    split at h
    · exact List.mem_cons.1 h
    · split at h
      · exact (List.mem_cons.1 h).imp_right (List.mem_cons_of_mem u)
      · rcases List.mem_cons.1 h with rfl | h
        · exact .inr List.mem_cons_self
        · exact (ih h).imp_right (List.mem_cons_of_mem u)

theorem mem_values_of_ofList {v : α} {entries : List (Bytes × α)}
    (h : v ∈ (ofList entries).values) : v ∈ entries.map Prod.snd := by
  suffices hs : ∀ t : Table α, v ∈ (entries.foldl (fun t e => t.insert e.1 e.2) t).values →
      v ∈ t.values ∨ v ∈ entries.map Prod.snd from (hs [] h).resolve_left nofun
  clear h
  induction entries with
  | nil => exact fun t h => .inl h
  | cons e rest ih =>
    intro t h
    rcases ih _ h with h | h
    · rcases mem_values_of_insert h with rfl | h
      · exact .inr List.mem_cons_self
      · exact .inl h
    · exact .inr (List.mem_cons_of_mem e.2 h)

/-! ## Order -/

theorem ascending_nil : Ascending ([] : Table α) := by simp [Ascending, keys]

theorem Ascending.insert {t : Table α} (ht : t.Ascending) (key : Bytes) (value : α) :
    (Table.insert key value t).Ascending := by
  induction t with
  | nil => simp [Table.insert, Ascending, keys]
  | cons e rest ih =>
    obtain ⟨k, v⟩ := e
    obtain ⟨hk, hr⟩ := List.pairwise_cons.1 ht
    simp only [Table.insert]
    split
    · rename_i hlt
      refine List.pairwise_cons.2 ⟨fun x hx => ?_, ht⟩
      rcases List.mem_cons.1 hx with rfl | hx
      · exact hlt
      · exact List.lt_trans hlt (hk x hx)
    · split
      · rename_i heq
        subst heq
        exact ht
      · rename_i hnlt hne
        refine List.pairwise_cons.2 ⟨fun x hx => ?_, ih hr⟩
        rcases mem_keys_insert.1 hx with rfl | hx
        · exact (List.le_total k x).elim
            (fun h => Std.lt_of_le_of_ne h (Ne.symm hne)) (fun h => absurd (Std.lt_of_le_of_ne h hne) hnlt)
        · exact hk x hx

theorem Ascending.ofList (entries : List (Bytes × α)) : (Table.ofList entries).Ascending := by
  suffices h : ∀ t : Table α, t.Ascending →
      (entries.foldl (fun t e => t.insert e.1 e.2) t).Ascending from h [] ascending_nil
  induction entries with
  | nil => exact fun _ ht => ht
  | cons e rest ih => exact fun t ht => ih _ (ht.insert e.1 e.2)

theorem erase_sublist (key : Bytes) (t : Table α) : (t.erase key).Sublist t := by
  induction t with
  | nil => exact .slnil
  | cons e rest ih =>
    obtain ⟨k, v⟩ := e
    simp only [erase]
    split
    · exact List.sublist_cons_self ..
    · exact ih.cons_cons _

theorem mem_values_of_erase {key : Bytes} {v : α} {t : Table α} (h : v ∈ (t.erase key).values) :
    v ∈ t.values := ((erase_sublist key t).map Prod.snd).subset h

theorem Ascending.erase {t : Table α} (ht : t.Ascending) (key : Bytes) :
    (Table.erase key t).Ascending :=
  ht.sublist ((erase_sublist key t).map Prod.fst)

/-- A key stands in one entry only, so it is gone once that is removed. -/
theorem Ascending.find?_erase_self {t : Table α} (ht : t.Ascending) (key : Bytes) :
    (t.erase key).find? key = none := by
  induction t with
  | nil => rfl
  | cons e rest ih =>
    obtain ⟨k, v⟩ := e
    obtain ⟨hk, hr⟩ := List.pairwise_cons.1 ht
    simp only [Table.erase]
    split
    · rename_i heq
      subst heq
      exact find?_eq_none_iff.2 fun hmem => List.lt_irrefl _ (hk key hmem)
    · rename_i hne
      simp only [find?, if_neg hne]
      exact ih hr

end Table

end ValueEngine
