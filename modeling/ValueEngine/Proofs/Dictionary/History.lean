/-
  Value engine — histories of dictionaries.

  A dictionary is made of entries, and from then on entries are stored in it by operations
  and inserted and erased through guards, in any order and with anything in between that
  leaves it what it holds. At all times it holds the one ascending table of what was last
  stored under each key.

  * `Stored`: what was last stored under each key, over the whole history.
  * `Stored.maps`: the table that the dictionary holds shows just that.
  * `Stored.store_ok`, `Stored.insertEntry_ok`, `Stored.eraseEntry_ok`: a change of a
    dictionary that nobody has, or through its guard, succeeds and is one more step.
  * `store_refused`: under a key that is no string nothing is stored.
-/
import ValueEngine.Proofs.Dictionary.Mapping
import ValueEngine.Proofs.Membership.Laws
import ValueEngine.Proofs.Reading.Looking

namespace ValueEngine

variable {σ : Type} {w w' : World σ} {d : ObjId} {mapping : Bytes → Option Ref}

/-! ## Steps -/

/-- An object that nobody has. -/
def World.Free (w : World σ) (i : ObjId) : Prop := ∃ o, w.heap.get? i = some o ∧ o.loan = .free

/-- A string that readers can have. -/
structure World.Named (w : World σ) (key : ObjId) (name : Bytes) : Prop where
  readable : w.Open key
  contents : w.heap.contents key = some (.string name)

/-- What was last stored under each key of a dictionary, from its making on. A value that
    was inserted through a guard may be null. -/
inductive Stored (d : ObjId) : (Bytes → Option Ref) → World σ → Prop
  | made {entries : List (Bytes × Ref)} {w w' : World σ} :
      fresh (.dict (Table.ofList entries)) w = .ok d w' → Stored d (Table.mappingOf entries) w'
  | store {mapping : Bytes → Option Ref} {w w' : World σ} {hooks : Hooks σ} {key value r : ObjId}
      {name : Bytes} :
      Stored d mapping w → w.heap.contents key = some (.string name) →
      Ref.store hooks (some d) (some key) (some value) w = .ok (.success r) w' →
      Stored d (Function.update mapping name (some (some value))) w'
  | insertEntry {mapping : Bytes → Option Ref} {w w' : World σ} {g : Guard} {name : Bytes}
      {value : Ref} :
      Stored d mapping w → g.held = some d → g.insertEntry name value w = .ok () w' →
      Stored d (Function.update mapping name (some value)) w'
  | eraseEntry {mapping : Bytes → Option Ref} {w w' : World σ} {g : Guard} {name : Bytes}
      {present : Bool} :
      Stored d mapping w → g.held = some d → g.eraseEntry name w = .ok present w' →
      Stored d (Function.update mapping name none) w'
  /-- Anything else that leaves the dictionary what it holds. -/
  | other {mapping : Bytes → Option Ref} {w w' : World σ} :
      Stored d mapping w → w'.heap.contents d = w.heap.contents d → Stored d mapping w'

theorem contents_of_fresh {p : Payload} (h : fresh p w = .ok d w') :
    w'.heap.contents d = some p := by
  cases hp : p.missingPart? with
  | some e =>
    simp only [fresh, hp] at h
    cases h
  | none =>
    simp only [fresh, hp] at h
    cases h
    exact Heap.contents_of_get? (Heap.get?_allocate_self ..)

theorem World.contents_edited {p q : Payload} (hp : w.heap.contents d = some p) :
    (w.edited d fun o => { o with payload := q }).heap.contents d = some q := by
  obtain ⟨o, ho, -⟩ := Option.map_eq_some_iff.1 hp
  rw [World.edited, Heap.contents_update_self, ho, Option.map_some]

/-- What is stored under a string succeeds with the table that has it there. -/
theorem contents_of_store {hooks : Hooks σ} {key value r : ObjId} {name : Bytes} {t : Table Ref}
    (hd : w.heap.contents d = some (.dict t)) (hkey : w.heap.contents key = some (.string name))
    (h : Ref.store hooks (some d) (some key) (some value) w = .ok (.success r) w') :
    w'.heap.contents d = some (.dict (t.insert name (some value))) := by
  obtain ⟨e, hpeek⟩ | ⟨k, o, loan, hk, ho, hpeek⟩ := peek_cases (some key) w
  · have hrun : Ref.store hooks (some d) (some key) (some value) w = .error e w :=
      Action.bind_of_error hpeek _
    rw [hrun] at h
    cases h
  · cases hk
    have hpayload := Heap.payload_of_contents ho hkey
    have hrun : Ref.store hooks (some d) (some key) (some value) w = withWrite (some d)
        (fun i c => replaceOrFail hooks i (c.payload.stored? o.payload (some value))) w :=
      Action.bind_of_ok hpeek _
    rw [hrun, hpayload] at h
    obtain ⟨p, q, hp, hq, hd'⟩ :=
      contents_of_replaceOrFail (f := (·.stored? (.string name) (some value))) h
    cases hd.symm.trans hp
    cases hq
    exact hd'

/-- Through a guard a dictionary is changed outright. -/
theorem Guard.updateDict_eq {g : Guard} {t : Table Ref} (hg : g.held = some d)
    (hd : w.heap.contents d = some (.dict t)) (f : Table Ref → Table Ref) :
    g.updateDict f w = .ok t (w.edited d fun o => { o with payload := .dict (f t) }) := by
  obtain ⟨o, ho, hp⟩ := Option.map_eq_some_iff.1 hd
  rw [Guard.updateDict, Action.bind_of_ok (g.object_eq hg ho)]
  simp only [Object.toDict, hp]
  rfl

theorem Guard.insertEntry_eq {g : Guard} {t : Table Ref} (hg : g.held = some d)
    (hd : w.heap.contents d = some (.dict t)) (name : Bytes) (value : Ref) :
    g.insertEntry name value w =
      .ok () (w.edited d fun o => { o with payload := .dict (t.insert name value) }) :=
  Action.bind_of_ok (g.updateDict_eq hg hd _) _

theorem Guard.eraseEntry_eq {g : Guard} {t : Table Ref} (hg : g.held = some d)
    (hd : w.heap.contents d = some (.dict t)) (name : Bytes) :
    g.eraseEntry name w = .ok (t.contains name)
      (w.edited d fun o => { o with payload := .dict (t.erase name) }) :=
  Action.bind_of_ok (g.updateDict_eq hg hd _) _

/-! ## Histories -/

/-- **A dictionary holds what was stored in it**: one ascending table, at all times. -/
theorem Stored.maps (h : Stored d mapping w) :
    ∃ t, w.heap.contents d = some (.dict t) ∧ t.Maps mapping := by
  induction h with
  | made hrun => exact ⟨_, contents_of_fresh hrun, .ofList _⟩
  | store _ hkey hrun ih =>
    obtain ⟨t, hd, hm⟩ := ih
    exact ⟨_, contents_of_store hd hkey hrun, hm.rebinds (hm.ascending.rebinds_insert ..)⟩
  | insertEntry _ hg hrun ih =>
    obtain ⟨t, hd, hm⟩ := ih
    rw [Guard.insertEntry_eq hg hd] at hrun
    cases hrun
    exact ⟨_, World.contents_edited hd, hm.rebinds (hm.ascending.rebinds_insert ..)⟩
  | eraseEntry _ hg hrun ih =>
    obtain ⟨t, hd, hm⟩ := ih
    rw [Guard.eraseEntry_eq hg hd] at hrun
    cases hrun
    exact ⟨_, World.contents_edited hd, hm.rebinds (hm.ascending.rebinds_erase _)⟩
  | other _ hsame ih =>
    obtain ⟨t, hd, hm⟩ := ih
    exact ⟨t, hsame.trans hd, hm⟩

/-! ## One more step -/

section Steps

variable {hooks : Hooks σ} {key value : ObjId} {name : Bytes}

/-- What is stored in a collection that nobody has, under a key that readers can have. -/
theorem store_eq (hooks : Hooks σ) (value : ObjId) {p q : Payload} (hd : w.Free d)
    (hp : w.heap.contents d = some p) (hkey : w.Open key) (hq : w.heap.contents key = some q) :
    ∃ o l, w.heap.get? d = some o ∧ Access.write.acquire o.loan = .ok l ∧
      Ref.store hooks (some d) (some key) (some value) w =
        lend .write (some d) (fun i _ => replaceOrFail hooks i (p.stored? q (some value))) w := by
  obtain ⟨o, ho, hfree⟩ := hd
  obtain ⟨k, hk, hopen⟩ := hkey
  obtain ⟨l, hl⟩ := Access.acquire_write_eq_ok_iff.2 hfree
  obtain ⟨m, hm⟩ := Access.acquire_read_eq_ok_iff.2 hopen
  obtain rfl := Heap.payload_of_contents ho hp
  obtain rfl := Heap.payload_of_contents hk hq
  refine ⟨o, l, ho, hl, (Action.bind_of_ok (peek_of_granted hk hm) _).trans ?_⟩
  simp only [withWrite, lend_of_granted ho hl]

/-- To store under a string succeeds. -/
theorem Stored.store_ok (h : Stored d mapping w) (hd : w.Free d) (hkey : w.Named key name) :
    ∃ w', Ref.store hooks (some d) (some key) (some value) w = .ok (.success noneId) w' ∧
      Stored d (Function.update mapping name (some (some value))) w' := by
  obtain ⟨t, ht, -⟩ := h.maps
  obtain ⟨o, l, ho, hl, hrun⟩ := store_eq hooks value hd ht hkey.readable hkey.contents
  have hstored : (replaceOrFail hooks d
      (.ok (.dict (t.insert name (some value)))) : Action σ Outcome) (w.lent d o l) =
      .ok (.success noneId) ((w.lent d o l).edited d fun o =>
        { o with payload := .dict (t.insert name (some value)) }) := rfl
  have hok := hrun.trans (lend_of_ok ho hl hstored)
  exact ⟨_, hok, h.store hkey.contents hok⟩

/-- To store under what is no string fails and changes no object. -/
theorem store_refused (h : Stored d mapping w) (hh : hooks.Returns)
    (hstill : hooks.Within (Action.Leads Still)) (hd : w.Free d) (hkey : w.Open key)
    {q : Payload} (hq : w.heap.contents key = some q) (hk : q.kind ≠ .string) :
    ∃ w', Ref.store hooks (some d) (some key) (some value) w =
        .ok (.failure (.keyNotText q.kind)) w' ∧ w'.heap = w.heap := by
  obtain ⟨t, ht, -⟩ := h.maps
  obtain ⟨o, l, ho, hl, hrun⟩ := store_eq hooks value hd ht hkey hq
  have hnone : (Payload.dict t).stored? q (some value) = .error (.keyNotText q.kind) := by
    cases q with
    | string => exact absurd rfl hk
    | _ => rfl
  rw [hnone] at hrun
  obtain ⟨v, hv, hfail | ⟨hno, -⟩⟩ := fail_still hstill (.keyNotText q.kind) (w.lent d o l)
  · exact ⟨_, hrun.trans (lend_of_ok ho hl hfail), still_lent ho hl hv⟩
  · exact absurd hh hno

/-- To insert an entry through a guard of the dictionary succeeds. -/
theorem Stored.insertEntry_ok {g : Guard} (h : Stored d mapping w) (hg : g.held = some d)
    (name : Bytes) (value : Ref) :
    ∃ w', g.insertEntry name value w = .ok () w' ∧
      Stored d (Function.update mapping name (some value)) w' := by
  obtain ⟨t, ht, -⟩ := h.maps
  have hrun := Guard.insertEntry_eq hg ht name value
  exact ⟨_, hrun, h.insertEntry hg hrun⟩

/-- To erase an entry through a guard of the dictionary tells whether there was one. -/
theorem Stored.eraseEntry_ok {g : Guard} (h : Stored d mapping w) (hg : g.held = some d)
    (name : Bytes) :
    ∃ w', g.eraseEntry name w = .ok (mapping name).isSome w' ∧
      Stored d (Function.update mapping name none) w' := by
  obtain ⟨t, ht, hm⟩ := h.maps
  have hrun := Guard.eraseEntry_eq hg ht name
  have hpresent : t.contains name = (mapping name).isSome := by rw [Table.contains, hm.find?]
  exact ⟨_, hpresent ▸ hrun, h.eraseEntry hg hrun⟩

end Steps

end ValueEngine
