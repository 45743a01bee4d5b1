/-
  Value engine — tables as finite maps.

  A table in ascending order is told by what it shows under each key. So it has a normal
  form: two tables that show the same are one list of entries.

  * `Ascending.eq_of_find?`: what an ascending table shows determines it.
  * `mappingOf`: what a sequence of entries makes of no mapping at all, entry by entry.
  * `Table.Maps`: an ascending table that shows a mapping.
  * `Maps.ofList`, `Maps.rebinds`: what tables are made to show.
  * `Maps.unique`, `Maps.ncard`: there is one such table, as long as there are keys.
-/
import Mathlib.Data.Set.Card
import ValueEngine.Proofs.Effects.Requests

namespace ValueEngine.Table

variable {α : Type}

/-! ## Normal forms -/

/-- A key that comes before all of a table is not in it. -/
theorem find?_eq_none_of_lt {key : Bytes} {t : Table α} (h : ∀ k ∈ t.keys, key < k) :
    t.find? key = none := find?_eq_none_iff.2 fun hmem => List.lt_irrefl key (h key hmem)

/-- **What an ascending table shows determines it**, entries and order. -/
theorem Ascending.eq_of_find? {t t' : Table α} (ht : t.Ascending) (ht' : t'.Ascending)
    (h : ∀ key, t.find? key = t'.find? key) : t = t' := by
  induction t generalizing t' with
  | nil =>
    cases t' with
    | nil => rfl
    | cons e' rest' =>
      have hfirst := h e'.1
      simp [find?] at hfirst
  | cons e rest ih =>
    obtain ⟨k, v⟩ := e
    obtain ⟨hk, hrest⟩ := List.pairwise_cons.1 ht
    cases t' with
    | nil =>
      have hfirst := h k
      simp [find?] at hfirst
    | cons e' rest' =>
      obtain ⟨k', v'⟩ := e'
      obtain ⟨hk', hrest'⟩ := List.pairwise_cons.1 ht'
      -- the lesser of two different first keys would be in one table only
      have hshown : find? k ((k, v) :: rest) = some v := if_pos rfl
      have hshown' : find? k' ((k', v') :: rest') = some v' := if_pos rfl
      have hkeys : k = k' := by
        by_contra hne
        obtain hle | hle := List.le_total k k'
        · have hlt : k < k' := Std.lt_of_le_of_ne hle hne
          have hnone : find? k ((k', v') :: rest') = none :=
            find?_eq_none_of_lt <| List.forall_mem_cons.2
              ⟨hlt, fun x hx => List.lt_trans hlt (hk' x hx)⟩
          rw [← h, hshown] at hnone
          cases hnone
        · have hlt : k' < k := Std.lt_of_le_of_ne hle (Ne.symm hne)
          have hnone : find? k' ((k, v) :: rest) = none :=
            find?_eq_none_of_lt <| List.forall_mem_cons.2
              ⟨hlt, fun x hx => List.lt_trans hlt (hk x hx)⟩
          rw [h, hshown'] at hnone
          cases hnone
      subst hkeys
      have hvalues : v = v' := Option.some.inj (hshown.symm.trans ((h k).trans hshown'))
      have htails : rest = rest' := ih hrest hrest' fun key => by
        by_cases hkey : key = k
        · subst hkey
          rw [find?_eq_none_of_lt hk, find?_eq_none_of_lt hk']
        · simpa [find?, hkey] using h key
      rw [hvalues, htails]

/-! ## Mappings -/

/-- What a sequence of entries makes of no mapping at all, one entry after the other. -/
def mappingOf (entries : List (Bytes × α)) : Bytes → Option α :=
  entries.foldl (fun mapping e => Function.update mapping e.1 (some e.2)) fun _ => none

/-- An ascending table that shows a mapping. -/
structure Maps (t : Table α) (mapping : Bytes → Option α) : Prop where
  ascending : t.Ascending
  find? : ∀ key, t.find? key = mapping key

namespace Maps

variable {t t' : Table α} {mapping : Bytes → Option α} {key : Bytes}

/-- To rebind a key is to update the mapping there. -/
theorem rebinds {value : Option α} (h : t.Maps mapping) (hr : t.Rebinds key value t') :
    t'.Maps (Function.update mapping key value) where
  ascending := hr.ordered
  find? other := by
    by_cases hother : other = key
    · subst hother
      rw [hr.self, Function.update_self]
    · rw [hr.others other hother, h.find?, Function.update_of_ne hother]

theorem ofList (entries : List (Bytes × α)) : (Table.ofList entries).Maps (mappingOf entries) := by
  suffices hs : ∀ (t : Table α) (mapping : Bytes → Option α), t.Maps mapping →
      Maps (entries.foldl (fun t e => t.insert e.1 e.2) t)
        (entries.foldl (fun mapping e => Function.update mapping e.1 (some e.2)) mapping) from
    hs [] _ ⟨ascending_nil, fun _ => rfl⟩
  induction entries with
  | nil => exact fun _ _ h => h
  | cons e rest ih =>
    exact fun t mapping h => ih _ _ (h.rebinds (h.ascending.rebinds_insert e.1 e.2))

/-- There is one table that shows a mapping. -/
theorem unique (h : t.Maps mapping) (h' : t'.Maps mapping) : t = t' :=
  h.ascending.eq_of_find? h'.ascending fun key => (h.find? key).trans (h'.find? key).symm

theorem mem_keys_iff (h : t.Maps mapping) : key ∈ t.keys ↔ (mapping key).isSome := by
  rw [← contains_iff, contains, h.find?]

/-- The table is as long as there are keys with a value. -/
theorem ncard (h : t.Maps mapping) : Set.ncard {key | (mapping key).isSome} = t.length := by
  classical
  have hnodup : t.keys.Nodup := h.ascending.imp fun {a b} hlt hab => by
    subst hab
    exact List.lt_irrefl a hlt
  have hset : {key | (mapping key).isSome} = (t.keys.toFinset : Set Bytes) := by
    ext key
    simp [h.mem_keys_iff]
  rw [hset, Set.ncard_coe_finset, List.toFinset_card_of_nodup hnodup, keys, List.length_map]

end Maps

end ValueEngine.Table
