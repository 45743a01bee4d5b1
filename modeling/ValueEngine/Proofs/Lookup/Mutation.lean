/-
  Value engine — what changes of attributes show.

  To change the own attributes of an object leaves the type links as they are, so every
  way to a root is what it was, with other attributes in one place. A look-up sees the
  change if it comes to that place at all, and if the change is about its name.

  * `World.rebound`: a world in which one object has other own attributes.
  * `bindAttribute_eq`, `unbindAttribute_eq`: the two changes, and when they are refused.
  * `Heap.Unhidden`: an object that no earlier one on a way hides under a name.
  * `findSome?_of_unhidden`, `findSome?_of_hidden`: what is seen of a change, and what of
    the rest.
  * `Resolves`: what a look-up comes to; `resolves_of_bound`, `resolves_of_unbound`: after
    each of the changes.
  * `attribute_changes_show`: in every state of a run in which no object is lent.
-/
import ValueEngine.Proofs.Effects.Newborn
import ValueEngine.Proofs.Lookup.Lineage
import ValueEngine.Proofs.Soundness.Plain

namespace ValueEngine

variable {σ : Type} {w : World σ} {i k : ObjId} {o : Object} {name : Bytes} {nulls : Prop}
  {hooks : Hooks σ}

/-! ## Other attributes -/

/-- The world in which an object has other own attributes. -/
def World.rebound (i : ObjId) (f : Table ObjId → Table ObjId) (w : World σ) : World σ :=
  w.edited i fun o => { o with attributes := f o.attributes }

section Rebound

variable {f : Table ObjId → Table ObjId}

/-- Every object is there, and of the type it was of. -/
theorem World.get?_rebound (hk : w.heap.get? k = some o) :
    (w.rebound i f).heap.get? k =
      some { o with attributes := if k = i then f o.attributes else o.attributes } := by
  by_cases hki : k = i
  · subst hki
    rw [if_pos rfl, rebound, edited, Heap.get?_update_self, hk]
    rfl
  · rw [if_neg hki, rebound, edited, Heap.get?_update_of_ne hki, hk]

theorem Lineage.rebound {r : Ref} {chain : List ObjId} (hc : Lineage w.heap r chain) :
    Lineage (w.rebound i f).heap r chain := by
  induction hc with
  | root => exact .root
  | link ho _ ih => exact .link (World.get?_rebound ho) ih

theorem World.own_rebound_self (hi : w.heap.get? i = some o) :
    (w.rebound i f).heap.own name i = (f o.attributes).find? name := by
  rw [Heap.own_of_get? (get?_rebound hi), if_pos rfl]

theorem World.own_rebound_of_ne (hki : k ≠ i) :
    (w.rebound i f).heap.own name k = w.heap.own name k := by
  rw [Heap.own, rebound, edited, Heap.get?_update_of_ne hki, Heap.own]

/-- Under another name nothing is seen of a change. -/
theorem World.own_rebound_of_find? (hf : ∀ t : Table ObjId, (f t).find? name = t.find? name) :
    (w.rebound i f).heap.own name k = w.heap.own name k := by
  by_cases hki : k = i
  · subst hki
    cases hk : w.heap.get? k with
    | none => rw [Heap.own, rebound, edited, Heap.get?_update_self, hk, Heap.own, hk]; rfl
    | some o => rw [own_rebound_self hk, hf, Heap.own_of_get? hk]
  · exact own_rebound_of_ne hki

theorem World.unwritten_rebound (hu : w.heap.Unwritten) : (w.rebound i f).heap.Unwritten := by
  intro k p hp
  by_cases hki : k = i
  · subst hki
    rw [rebound, edited, Heap.get?_update_self] at hp
    obtain ⟨o, ho, rfl⟩ := Option.map_eq_some_iff.1 hp
    exact hu k o ho
  · rw [rebound, edited, Heap.get?_update_of_ne hki] at hp
    exact hu k p hp

/-- Objects under ascending names are as good as others. -/
theorem World.sound_rebound (hs : w.heap.Sound nulls)
    (hf : ∀ t : Table ObjId, t.Ascending → (f t).Ascending)
    (hvalues : ∀ (t : Table ObjId), ∀ v ∈ (f t).values, v ∈ t.values ∨ w.heap.Live v) :
    (w.rebound i f).heap.Sound nulls := by
  refine hs.update fun o ho => ?_
  have hfits := hs.fits i o ho
  exact { hfits with
    attributes := fun v hv => (hvalues _ v hv).elim (hfits.attributes v) fun hlive => hlive
    named := hf _ hfits.named }

end Rebound

/-! ## The changes -/

section Changes

variable (hi : w.heap.get? i = some o) (hfree : o.loan = .free)
include hi hfree

/-- An attribute of an object that is not lent can be bound. -/
theorem bindAttribute_eq (name : Bytes) (v : ObjId) :
    Ref.bindAttribute (some i) name (some v) w = .ok () (w.rebound i (·.insert name v)) := by
  obtain ⟨l, hl⟩ := Access.acquire_write_eq_ok_iff.2 hfree
  have hbody : bindOwn i name (some v) (w.lent i o l) =
      .ok () ((w.lent i o l).rebound i (·.insert name v)) := rfl
  have hrun : withWrite (some i) (fun i _ => bindOwn i name (some v)) w =
      .ok () (((w.lent i o l).rebound i (·.insert name v)).endLoan .write i) :=
    lend_of_ok hi hl hbody
  rw [Ref.bindAttribute, hrun, World.rebound, World.endLoan_edited hi hl fun _ _ => rfl,
    World.rebound]

/-- An own attribute of an object that is not lent can be unbound. -/
theorem unbindAttribute_eq (hname : name ∈ o.attributes.keys) :
    Ref.unbindAttribute hooks (some i) name w =
      .ok (.success noneId) (w.rebound i (·.erase name)) := by
  obtain ⟨l, hl⟩ := Access.acquire_write_eq_ok_iff.2 hfree
  have hcontains : Table.contains name o.attributes = true := Table.contains_iff.2 hname
  have hback : ((w.lent i o l).rebound i (·.erase name)).endLoan .write i =
      w.rebound i (·.erase name) := by
    rw [World.rebound, World.endLoan_edited hi hl fun _ _ => rfl, World.rebound]
  have hrun : withWrite (some i) (fun i o => do
      if Table.contains name o.attributes then
        unbindOwn i name
        return none
      else return some o.kind) w = .ok none (w.rebound i (·.erase name)) := by
    rw [← hback]
    refine lend_of_ok hi hl ?_
    simp only [hcontains, if_true]
    rfl
  exact Action.bind_of_ok hrun _

/-- What an object does not have itself cannot be unbound: that is a failure, and nothing
    is changed. -/
theorem unbindAttribute_of_not_mem (hname : name ∉ o.attributes.keys) :
    Ref.unbindAttribute hooks (some i) name w = fail hooks (.missingAttribute o.kind name) w := by
  obtain ⟨l, hl⟩ := Access.acquire_write_eq_ok_iff.2 hfree
  have hcontains : ¬Table.contains name o.attributes = true := fun h =>
    hname (Table.contains_iff.1 h)
  have hrun : withWrite (some i) (fun i o => do
      if Table.contains name o.attributes then
        unbindOwn i name
        return none
      else return some o.kind) w = .ok (some o.kind) w := by
    have hbody : (do
        if Table.contains name o.attributes then
          unbindOwn i name
          return none
        else return some o.kind : Action σ (Option Kind)) (w.lent i o l) =
        .ok (some o.kind) (w.lent i o l) := by
      rw [if_neg hcontains]
      rfl
    exact (lend_of_ok hi hl hbody).trans (by rw [World.endLoan_lent hi hl])
  exact Action.bind_of_ok hrun _

/-- To bind a name that an object did not have and to unbind it again leaves the world as
    it was. -/
theorem unbind_bind (hname : name ∉ o.attributes.keys) (v : ObjId) :
    Ref.unbindAttribute hooks (some i) name (w.rebound i (·.insert name v)) =
      .ok (.success noneId) w := by
  have hbound : (w.rebound i (·.insert name v)).heap.get? i =
      some { o with attributes := o.attributes.insert name v } := by
    rw [World.get?_rebound hi, if_pos rfl]
  rw [unbindAttribute_eq hbound hfree (Table.mem_keys_insert.2 (.inl rfl))]
  have hset : w.heap.update i (fun o => { o with attributes := o.attributes.insert name v }) =
      w.heap.set i { o with attributes := o.attributes.insert name v } := by
    rw [Heap.update, hi]
  have hback : (w.heap.set i { o with attributes := o.attributes.insert name v }).update i
      (fun o => { o with attributes := o.attributes.erase name }) = w.heap :=
    Heap.update_set hi (by rw [Table.erase_insert hname])
  simp only [World.rebound, World.edited, hset, hback]

end Changes

/-! ## Ways -/

/-- An object on a way that no earlier one hides under a name. -/
def Heap.Unhidden (h : Heap) (name : Bytes) (chain : List ObjId) (i : ObjId) : Prop :=
  ∃ before after, chain = before ++ i :: after ∧ ∀ k ∈ before, h.own name k = none

section Ways

variable {h h' : Heap} {chain before after : List ObjId}

/-- What is found goes by what the objects on the way have. -/
theorem findSome?_congr {f g : ObjId → Option ObjId} (hfg : ∀ k ∈ chain, f k = g k) :
    chain.findSome? f = chain.findSome? g := by
  rw [← List.head?_filterMap, List.filterMap_congr hfg, List.head?_filterMap]

/-- A look-up that comes to an object goes by what it has, and by what comes later if it
    has nothing. -/
theorem findSome?_of_unhidden (hbefore : ∀ k ∈ before, h.own name k = none) :
    (before ++ i :: after).findSome? (h.own name) =
      (h.own name i).or (after.findSome? (h.own name)) := by
  rw [List.findSome?_append, List.findSome?_eq_none_iff.2 hbefore, Option.none_or,
    List.findSome?_cons]
  cases h.own name i <;> rfl

/-- Where only one object changed, what is found is the same, unless it is unhidden. -/
theorem findSome?_of_hidden (hown : ∀ k, k ≠ i → h'.own name k = h.own name k)
    (hnodup : chain.Nodup) (hhidden : ¬h.Unhidden name chain i) :
    chain.findSome? (h'.own name) = chain.findSome? (h.own name) := by
  by_cases hi : i ∈ chain
  · obtain ⟨before, after, rfl⟩ := List.append_of_mem hi
    -- an earlier object has the name, and it is another one
    have hne : ∀ k ∈ before, k ≠ i := fun k hk =>
      (List.nodup_append.1 hnodup).2.2 k hk i List.mem_cons_self
    have hsame : before.findSome? (h'.own name) = before.findSome? (h.own name) :=
      findSome?_congr fun k hk => hown k (hne k hk)
    have hfound : before.findSome? (h.own name) ≠ none := fun hnone =>
      hhidden ⟨before, after, rfl, List.findSome?_eq_none_iff.1 hnone⟩
    rw [List.findSome?_append, List.findSome?_append, hsame]
    cases hb : before.findSome? (h.own name) with
    | none => exact absurd hb hfound
    | some v => rfl
  · exact findSome?_congr fun k hk => hown k fun hki => hi (hki ▸ hk)

end Ways

/-! ## Look-ups -/

/-- What a look-up comes to, which changes nothing: the value that is read, or the failure
    for want of one. -/
def Resolves (hooks : Hooks σ) (w : World σ) (p : ObjId) (name : Bytes) :
    Except Failure ObjId → Prop
  | .ok value =>
    Ref.readAttribute hooks (some p) name w = .ok (.success value) w ∧
      Ref.knows (some p) name w = .ok true w
  | .error cause =>
    Ref.readAttribute hooks (some p) name w = fail hooks cause w ∧
      Ref.knows (some p) name w = .ok false w

/-- The value that was found, or the failure of an object of some kind for want of one. -/
def Kind.resolved (kind : Kind) (name : Bytes) : Option ObjId → Except Failure ObjId
  | some value => .ok value
  | none => .error (.missingAttribute kind name)

/-- A look-up comes to the first binding on the way. -/
theorem resolves_of_lineage {p : ObjId} {chain : List ObjId} (hs : w.heap.Sound nulls)
    (hu : w.heap.Unwritten) (hp : w.heap.get? p = some o) (hc : Lineage w.heap (some p) chain)
    (hooks : Hooks σ) (name : Bytes) :
    Resolves hooks w p name (o.kind.resolved name (chain.findSome? (w.heap.own name))) := by
  have hread : Ref.readAttribute hooks (some p) name w = _ := readAttribute_eq hu hs hp hc hooks
  have hknows : Ref.knows (some p) name w = _ := knows_eq hu hs (Heap.live_of_get? hp) hc
  cases hfound : chain.findSome? (w.heap.own name) with
  | some value =>
    rw [hfound] at hread hknows
    exact ⟨hread, hknows⟩
  | none =>
    rw [hfound] at hread hknows
    exact ⟨hread, hknows⟩

section Shown

variable {f : Table ObjId → Table ObjId} {p : ObjId} {chain before after : List ObjId} {a : Object}
  (hs : w.heap.Sound nulls) (hs' : (w.rebound i f).heap.Sound nulls) (hu : w.heap.Unwritten)
  (ha : w.heap.get? p = some a) (hc : Lineage w.heap (some p) chain)
include hs hs' hu ha hc

/-- Whoever comes to the object that changed sees what it has now, and what comes later. -/
theorem resolves_of_unhidden (hchain : chain = before ++ i :: after)
    (hbefore : ∀ k ∈ before, w.heap.own name k = none) (hooks : Hooks σ) :
    Resolves hooks (w.rebound i f) p name (a.kind.resolved name
      (((w.rebound i f).heap.own name i).or (after.findSome? (w.heap.own name)))) := by
  have hresolves := resolves_of_lineage (o := { a with
    attributes := if p = i then f a.attributes else a.attributes }) hs' (World.unwritten_rebound hu)
    (World.get?_rebound ha) hc.rebound hooks name
  subst hchain
  obtain ⟨-, hafter, hdisjoint⟩ := List.nodup_append.1 (hc.nodup hs)
  have hne : ∀ k ∈ before, k ≠ i := fun k hk => hdisjoint k hk i List.mem_cons_self
  have hne' : ∀ k ∈ after, k ≠ i := by
    rintro k hk rfl
    exact (List.nodup_cons.1 hafter).1 hk
  have hfree : ∀ k ∈ before, (w.rebound i f).heap.own name k = none := fun k hk => by
    rw [World.own_rebound_of_ne (hne k hk), hbefore k hk]
  have hrest : after.findSome? ((w.rebound i f).heap.own name) =
      after.findSome? (w.heap.own name) :=
    findSome?_congr fun k hk => World.own_rebound_of_ne (hne' k hk)
  rw [findSome?_of_unhidden hfree, hrest] at hresolves
  exact hresolves

/-- Anyone else sees what was there before. -/
theorem resolves_of_hidden {other : Bytes}
    (hf : ∀ t : Table ObjId, other ≠ name → (f t).find? other = t.find? other)
    (hhidden : ¬(other = name ∧ w.heap.Unhidden name chain i)) (hooks : Hooks σ) :
    ∃ r, Resolves hooks w p other r ∧ Resolves hooks (w.rebound i f) p other r := by
  have hbefore := resolves_of_lineage hs hu ha hc hooks other
  have hafter := resolves_of_lineage (o := { a with
    attributes := if p = i then f a.attributes else a.attributes }) hs' (World.unwritten_rebound hu)
    (World.get?_rebound ha) hc.rebound hooks other
  have hsame : chain.findSome? ((w.rebound i f).heap.own other) =
      chain.findSome? (w.heap.own other) := by
    by_cases hname : other = name
    · subst hname
      exact findSome?_of_hidden (fun k hk => World.own_rebound_of_ne hk) (hc.nodup hs)
        fun h => hhidden ⟨rfl, h⟩
    · exact findSome?_congr fun k _ => World.own_rebound_of_find? fun t => hf t hname
  rw [hsame] at hafter
  exact ⟨_, hbefore, hafter⟩

end Shown

section Changed

variable (hs : w.heap.Sound True) (hu : w.heap.Unwritten)
include hs hu

/-- **After a binding**, whoever comes to the object under its name reads the new value,
    and every other look-up comes to what it came to. -/
theorem resolves_of_bound {v p : ObjId} (hi : w.heap.get? i = some o) (hv : w.heap.Live v)
    (hp : w.heap.Live p) (hooks : Hooks σ) (name : Bytes) :
    ∃ chain, Lineage w.heap (some p) chain ∧ ∀ other,
      (other = name ∧ w.heap.Unhidden name chain i →
        Resolves hooks (w.rebound i (·.insert name v)) p other (.ok v)) ∧
      (¬(other = name ∧ w.heap.Unhidden name chain i) →
        ∃ r, Resolves hooks w p other r ∧
          Resolves hooks (w.rebound i (·.insert name v)) p other r) := by
  obtain ⟨a, ha⟩ := Option.isSome_iff_exists.1 hp
  obtain ⟨chain, hc⟩ := hs.exists_lineage hp
  have hs' : (w.rebound i (·.insert name v)).heap.Sound True :=
    World.sound_rebound hs (fun t ht => ht.insert name v) fun t u hmem =>
      (Table.mem_values_of_insert hmem).symm.imp_right (by rintro rfl; exact hv)
  refine ⟨chain, hc, fun other => ⟨?_, fun hhidden => resolves_of_hidden hs hs' hu ha hc
    (fun t hne => Table.find?_insert_of_ne hne v t) hhidden hooks⟩⟩
  rintro ⟨rfl, before, after, hchain, hbefore⟩
  have hresolves := resolves_of_unhidden hs hs' hu ha hc hchain hbefore hooks
  rwa [World.own_rebound_self hi, Table.find?_insert_self, Option.some_or] at hresolves

/-- **After an attribute was given up**, whoever read it there reads what comes later on
    the way, or fails for want of it, and every other look-up comes to what it came to. -/
theorem resolves_of_unbound {p value : ObjId} {a : Object} (hi : w.heap.get? i = some o)
    (hvalue : w.heap.own name i = some value) (ha : w.heap.get? p = some a) (hooks : Hooks σ) :
    ∃ chain, Lineage w.heap (some p) chain ∧ ∀ other,
      (∀ before after, chain = before ++ i :: after →
        (∀ k ∈ before, w.heap.own name k = none) → other = name →
        Resolves hooks w p other (.ok value) ∧
          Resolves hooks (w.rebound i (·.erase name)) p other
            (a.kind.resolved other (after.findSome? (w.heap.own other)))) ∧
      (¬(other = name ∧ w.heap.Unhidden name chain i) →
        ∃ r, Resolves hooks w p other r ∧
          Resolves hooks (w.rebound i (·.erase name)) p other r) := by
  obtain ⟨chain, hc⟩ := hs.exists_lineage (Heap.live_of_get? ha)
  have hs' : (w.rebound i (·.erase name)).heap.Sound True :=
    World.sound_rebound hs (fun t ht => ht.erase name) fun t u hmem =>
      .inl (Table.mem_values_of_erase hmem)
  refine ⟨chain, hc, fun other => ⟨fun before after hchain hbefore hother => ?_,
    fun hhidden => resolves_of_hidden hs hs' hu ha hc
      (fun t hne => Table.find?_erase_of_ne hne t) hhidden hooks⟩⟩
  subst hother
  have hresolved := resolves_of_lineage hs hu ha hc hooks other
  have hresolves := resolves_of_unhidden hs hs' hu ha hc hchain hbefore hooks
  rw [hchain, findSome?_of_unhidden hbefore, hvalue] at hresolved
  rw [World.own_rebound_self hi, (hs.fits i o hi).named.find?_erase_self, Option.none_or]
    at hresolves
  exact ⟨hresolved, hresolves⟩

end Changed

/-! ## The main result -/

/-- **Changes of attributes show where nothing hides them.** In every state of a lawful run
    in which no object is lent, an attribute of an object can be bound to any object; after
    that, whoever has the object on the way to the root, with none before it that has the
    name, reads the new value, and every other look-up comes to what it came to. An
    attribute can be unbound just if the object has it itself; otherwise that is a failure
    and changes nothing. After that, whoever read it there reads what comes later on the
    way, or fails for want of it, and every other look-up comes to what it came to. To bind
    a name that the object did not have and to unbind it again leaves all as it was. -/
theorem attribute_changes_show {w : World σ} (hw : Lawful w) (he : Exact [] w.heap)
    (hooks : Hooks σ) {i : ObjId} {o : Object} (hi : w.heap.get? i = some o) (name : Bytes) :
    (∀ v, w.heap.Live v → ∃ w', Ref.bindAttribute (some i) name (some v) w = .ok () w' ∧
      (∀ p, w.heap.Live p → ∃ chain, Lineage w.heap (some p) chain ∧ ∀ other,
        (other = name ∧ w.heap.Unhidden name chain i → Resolves hooks w' p other (.ok v)) ∧
        (¬(other = name ∧ w.heap.Unhidden name chain i) →
          ∃ r, Resolves hooks w p other r ∧ Resolves hooks w' p other r)) ∧
      (w.heap.own name i = none →
        Ref.unbindAttribute hooks (some i) name w' = .ok (.success noneId) w)) ∧
    ((∃ r w', Ref.unbindAttribute hooks (some i) name w = .ok (.success r) w') ↔
      w.heap.own name i ≠ none) ∧
    (w.heap.own name i = none →
      Ref.unbindAttribute hooks (some i) name w =
        fail hooks (.missingAttribute o.kind name) w ∧
      (Failure.missingAttribute o.kind name).kind? = some .missingAttribute) ∧
    ∀ value, w.heap.own name i = some value →
      ∃ w', Ref.unbindAttribute hooks (some i) name w = .ok (.success noneId) w' ∧
        ∀ p a, w.heap.get? p = some a → ∃ chain, Lineage w.heap (some p) chain ∧ ∀ other,
          (∀ before after, chain = before ++ i :: after →
            (∀ k ∈ before, w.heap.own name k = none) → other = name →
            Resolves hooks w p other (.ok value) ∧
              Resolves hooks w' p other
                (a.kind.resolved other (after.findSome? (w.heap.own other)))) ∧
          (¬(other = name ∧ w.heap.Unhidden name chain i) →
            ∃ r, Resolves hooks w p other r ∧ Resolves hooks w' p other r) := by
  have hs := hw.sound
  have hu : w.heap.Unwritten := fun k p hp => by
    rw [he.free_of_nil hp]
    nofun
  have hfree : o.loan = .free := he.free_of_nil hi
  have hnone : w.heap.own name i = none ↔ name ∉ o.attributes.keys := by
    rw [Heap.own_of_get? hi, Table.find?_eq_none_iff]
  have hunbound : w.heap.own name i = none → Ref.unbindAttribute hooks (some i) name w =
      fail hooks (.missingAttribute o.kind name) w := fun h =>
    unbindAttribute_of_not_mem hi hfree (hnone.1 h)
  have hunbind : w.heap.own name i ≠ none → Ref.unbindAttribute hooks (some i) name w =
      .ok (.success noneId) (w.rebound i (·.erase name)) := fun h =>
    unbindAttribute_eq hi hfree (not_not.1 (hnone.not.1 h))
  refine ⟨fun v hv => ⟨_, bindAttribute_eq hi hfree name v,
      fun p hp => resolves_of_bound hs hu hi hv hp hooks name,
      fun h => unbind_bind hi hfree (hnone.1 h) v⟩,
    ⟨?_, fun h => ⟨_, _, hunbind h⟩⟩, fun h => ⟨hunbound h, rfl⟩,
    fun value hvalue => ⟨_, hunbind (by simp [hvalue]),
      fun p a ha => resolves_of_unbound hs hu hi hvalue ha hooks⟩⟩
  rintro ⟨r, w', hrun⟩ hown
  have hfail := (Action.Arrives.fail_or_throws hooks (.missingAttribute o.kind name) w).of_run
    ((hunbound hown).symm.trans hrun)
  cases hfail

theorem exact_classified : Exact [] classified.heap := .nil_of_cells (by decide)

theorem lineage_classified :
    Lineage classified.heap (some memberId) [memberId, classId, Kind.classObject.typeId] :=
  .link rfl (.link rfl (.link rfl .root))

/-- The object hides the attribute of its class with one of its own, which is itself, and
    gives it up again. Once the class has lost the attribute, the object has none. -/
theorem attribute_changes_show_classified :
    (∃ w', Ref.bindAttribute (some memberId) shared (some memberId) classified = .ok () w' ∧
      Resolves {} w' memberId shared (.ok memberId) ∧
      Ref.unbindAttribute {} (some memberId) shared w' = .ok (.success noneId) classified) ∧
    ∃ w', Ref.unbindAttribute {} (some classId) shared classified = .ok (.success noneId) w' ∧
      Resolves {} w' memberId shared (.error (.missingAttribute .moduleObject shared)) := by
  have hmember : classified.heap.Live memberId := by decide
  have hnone : classified.heap.own shared memberId = none := by decide
  constructor
  · obtain ⟨hbind, -⟩ := attribute_changes_show lawful_classified exact_classified {}
      (i := memberId) rfl shared
    obtain ⟨w', hrun, hshown, hback⟩ := hbind memberId hmember
    obtain ⟨chain, hc, hchain⟩ := hshown memberId hmember
    rw [lineage_classified.unique hc] at hchain
    exact ⟨w', hrun, (hchain shared).1 ⟨rfl, [], _, rfl, nofun⟩, hback hnone⟩
  · obtain ⟨-, -, -, hunbind⟩ := attribute_changes_show lawful_classified exact_classified {}
      (i := classId) rfl shared
    obtain ⟨w', hrun, hshown⟩ := hunbind noneId (by decide)
    obtain ⟨chain, hc, hchain⟩ := hshown memberId _ rfl
    rw [lineage_classified.unique hc] at hchain
    refine ⟨w', hrun, ((hchain shared).1 [memberId] [Kind.classObject.typeId] rfl ?_ rfl).2⟩
    intro k hk
    rw [List.mem_singleton.1 hk, hnone]

end ValueEngine
