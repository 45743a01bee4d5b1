/-
  Value engine — dictionaries as finite maps.

  What is read of a dictionary tells what was last stored under each key, whatever came
  before that. So two histories that come to one mapping leave dictionaries that nothing
  tells apart, except that a dictionary which holds itself shows where it does.

  * `Reads`: what reading a dictionary tells of a mapping.
  * `length_eq`, `truth_eq`: how much a collection holds.
  * `item_of_entry`, `contains_of_entry`, `length_of_table`: how the table of a dictionary
    is read.
  * `Stored.reads`: what was stored is what is read.
  * `dictionary_is_finite_map`: all of this, over all histories.
  * `texts_of_one_mapping_differ`: where a dictionary holds itself.
-/
import ValueEngine.Proofs.Dictionary.History
import ValueEngine.Proofs.Rendering.Likeness

namespace ValueEngine

variable {σ : Type} {w w' : World σ} {d d' key : ObjId} {mapping : Bytes → Option Ref}
  {name : Bytes} {hooks : Hooks σ}

/-! ## Reading -/

/-- What can be read of a dictionary that shows a mapping. -/
structure Reads (hooks : Hooks σ) (w : World σ) (d : ObjId) (mapping : Bytes → Option Ref) :
    Prop where
  /-- There is the very object that was stored. -/
  item : ∀ {key name v}, w.Named key name → mapping name = some (some v) →
    Ref.item hooks (some d) (some key) w = .ok (.success v) w
  missing : ∀ {key name}, w.Named key name → mapping name = none →
    ∃ w', Ref.item hooks (some d) (some key) w = .ok (.failure (.missingKey name)) w'
  /-- A null value is no outcome. -/
  null : ∀ {key name}, w.Named key name → mapping name = some none →
    Ref.item hooks (some d) (some key) w = .error .nullSuccess w
  contains : ∀ {key name}, w.Named key name →
    Finds (Ref.contains hooks (some d) (some key)) w
      (if (mapping name).isSome then .present else .absent)
  length : ∀ n : Int32, n.toInt = Set.ncard {key | (mapping key).isSome} →
    ∃ r w', Ref.length hooks (some d) w = .ok (.success r) w' ∧
      w'.heap.contents r = some (.integer n)
  /-- There may be more keys than an integer can say. -/
  overflow : (∀ n : Int32, n.toInt ≠ Set.ncard {key | (mapping key).isSome}) →
    ∃ w', Ref.length hooks (some d) w = .ok (.failure .lengthOverflow) w'
  truth : Ref.truth (some d) w = .ok (Set.ncard {key | (mapping key).isSome} != 0) w

/-- What is not null is found just if it can be fetched. -/
theorem Reads.contains_iff (h : Reads hooks w d mapping) (hkey : w.Named key name)
    (hnull : mapping name ≠ some none) :
    Finds (Ref.contains hooks (some d) (some key)) w .present ↔
      ∃ v w', Ref.item hooks (some d) (some key) w = .ok (.success v) w' := by
  have hfinds := h.contains hkey
  cases hname : mapping name with
  | none =>
    obtain ⟨w', hitem⟩ := h.missing hkey hname
    rw [hname] at hfinds
    refine iff_of_false (fun hpresent => nomatch hpresent.unique hfinds) ?_
    rintro ⟨v, v', hv⟩
    cases hitem.symm.trans hv
  | some r =>
    cases r with
    | none => exact absurd hname hnull
    | some v =>
      rw [hname] at hfinds
      exact iff_of_true hfinds ⟨v, w, h.item hkey hname⟩

/-- A dictionary and a key that readers can have are lent together. -/
theorem World.Open.withKey {p : Payload} (hd : w.Open d) (hp : w.heap.contents d = some p)
    (hkey : w.Named key name) :
    ∃ o k v, o.payload = p ∧ k.payload = .string name ∧
      (v.endLoan .read key).endLoan .read d = w ∧
      ∀ body : Object → ObjId → Object → Action σ Outcome,
        (∀ r u, body o key k v = .ok r u →
          ValueEngine.withRead (some d) (fun _ o => ValueEngine.withRead (some key) (body o)) w =
            .ok r ((u.endLoan .read key).endLoan .read d)) ∧
        ∀ e u, body o key k v = .error e u →
          ValueEngine.withRead (some d) (fun _ o => ValueEngine.withRead (some key) (body o)) w =
            .error e ((u.endLoan .read key).endLoan .read d) := by
  obtain ⟨o, v, ho, hv, hopen, hback, hread⟩ := hd.withRead hp
  obtain ⟨k, u, hk, -, -, hback', hread'⟩ :=
    (hopen key hkey.readable).withRead (hv ▸ hkey.contents)
  refine ⟨o, k, u, ho, hk, by rw [hback', hback], fun body => ⟨fun r x hx => ?_, fun e x hx => ?_⟩⟩
  · exact (hread _).1 _ _ ((hread' (body o)).1 _ _ hx)
  · exact (hread _).2 _ _ ((hread' (body o)).2 _ _ hx)

section Size

variable {p : Payload} {k : Nat} (hd : w.Open d) (hp : w.heap.contents d = some p)
  (hk : p.length? = some k)
include hd hp hk

/-- The length of a collection is a new integer, if there is one to say it. -/
theorem length_eq {n : Int32} (hn : Checked.ofInt? k = some n) (hooks : Hooks σ) :
    Ref.length hooks (some d) w =
      .ok (.success w.nextId) (w.added (Payload.integer n).newborn) := by
  obtain ⟨o, ho, hopen⟩ := hd
  obtain rfl := Heap.payload_of_contents ho hp
  refine (Action.Arrives.withRead ho hopen fun l hl => ?_).eq_ok
  simp only [hk, lengthOutcome, hn]
  exact .of_ok (freshValue_eq rfl _) ⟨by simp, World.endLoan_added ho hl _⟩

/-- A collection counts as true just if it holds something. -/
theorem truth_eq : Ref.truth (some d) w = .ok (k != 0) w := by
  obtain ⟨o, v, ho, -, -, hback, hread⟩ := hd.withRead hp
  have htruth : o.payload.truth = (k != 0) := Payload.truth_eq_of_length? (ho ▸ hk)
  have hrun := (hread fun _ o => return o.payload.truth).1 _ v rfl
  rwa [htruth, hback] at hrun

end Size

section Entries

variable {t : Table Ref} (hd : w.Open d) (ht : w.heap.contents d = some (.dict t))
include hd ht

/-- An item is what comes of the entry, with the dictionary and the key lent. -/
theorem item_of_entry (hooks : Hooks σ) (hkey : w.Named key name) :
    ∃ v : World σ, (v.endLoan .read key).endLoan .read d = w ∧
      (∀ r u, entryItem hooks t (.string name) v = .ok r u →
        Ref.item hooks (some d) (some key) w =
          .ok r ((u.endLoan .read key).endLoan .read d)) ∧
      ∀ e u, entryItem hooks t (.string name) v = .error e u →
        Ref.item hooks (some d) (some key) w =
          .error e ((u.endLoan .read key).endLoan .read d) := by
  obtain ⟨o, k, v, ho, hk, hback, hread⟩ := hd.withKey ht hkey
  obtain ⟨hok, herror⟩ := hread fun o _ k => itemOf hooks o.payload k.payload
  have hbody : itemOf hooks o.payload k.payload = entryItem hooks t (.string name) := by
    rw [ho, hk, itemOf]
  rw [hbody] at hok herror
  exact ⟨v, hback, hok, herror⟩

/-- A key is found just if there is an entry. -/
theorem contains_of_entry (hooks : Hooks σ) (hkey : w.Named key name) :
    Finds (Ref.contains hooks (some d) (some key)) w
      (if t.contains name then .present else .absent) := by
  obtain ⟨o, k, v, ho, hk, -, hread⟩ := hd.withKey ht hkey
  have hbody : membership hooks o.payload key k = freshValue (.boolean (t.contains name)) := by
    simp only [ho, hk, membership]
  have hrun := (hread fun o j k => membership hooks o.payload j k).1 (.success v.nextId)
    (v.added (Payload.boolean (t.contains name)).newborn) (by rw [hbody]; exact freshValue_eq rfl v)
  have hnew : (v.added (Payload.boolean (t.contains name)).newborn).heap.contents v.nextId =
      some (.boolean (t.contains name)) := Heap.contents_of_get? (World.get?_added_nextId ..)
  cases hb : t.contains name with
  | true =>
    rw [hb] at hrun hnew
    exact ⟨_, _, hrun, by simpa only [World.contents_endLoan] using hnew⟩
  | false =>
    rw [hb] at hrun hnew
    exact ⟨_, _, hrun, by simpa only [World.contents_endLoan] using hnew⟩

/-- The length is that of the table, if it is one that an integer can say. -/
theorem length_of_table (hooks : Hooks σ) :
    (∀ n, Checked.ofInt? t.length = some n → ∃ r w', Ref.length hooks (some d) w =
      .ok (.success r) w' ∧ w'.heap.contents r = some (.integer n)) ∧
    (hooks.Returns → Checked.ofInt? t.length = none →
      ∃ w', Ref.length hooks (some d) w = .ok (.failure .lengthOverflow) w') := by
  have hlength : (Payload.dict t).length? = some t.length := rfl
  refine ⟨fun n hn => ⟨_, _, length_eq hd ht hlength hn hooks, ?_⟩, fun hh hn => ?_⟩
  · exact Heap.contents_of_get? (World.get?_added_nextId ..)
  · obtain ⟨o, v, ho, -, -, -, hread⟩ := hd.withRead ht
    obtain ⟨u, hfail⟩ := fail_eq_ok hh .lengthOverflow v
    refine ⟨_, (hread _).1 _ u ?_⟩
    simpa only [ho, hlength, lengthOutcome, hn] using hfail

end Entries

/-- What was stored in a dictionary is read off it. -/
theorem Stored.reads (h : Stored d mapping w) (hh : hooks.Returns) (hd : w.Open d) :
    Reads hooks w d mapping := by
  obtain ⟨t, ht, hm⟩ := h.maps
  constructor
  case item =>
    intro key name r hkey hname
    obtain ⟨v, hback, hok, -⟩ := item_of_entry hd ht hooks hkey
    rw [hok (.success r) v (by simp only [entryItem, hm.find?, hname]; rfl), hback]
  case missing =>
    intro key name hkey hname
    obtain ⟨v, -, hok, -⟩ := item_of_entry hd ht hooks hkey
    obtain ⟨u, hfail⟩ := fail_eq_ok hh (.missingKey name) v
    exact ⟨_, hok _ u (by simpa only [entryItem, hm.find?, hname] using hfail)⟩
  case null =>
    intro key name hkey hname
    obtain ⟨v, hback, -, herror⟩ := item_of_entry hd ht hooks hkey
    rw [herror .nullSuccess v (by simp only [entryItem, hm.find?, hname]; rfl), hback]
  case contains =>
    intro key name hkey
    have hfinds := contains_of_entry hd ht hooks hkey
    rwa [Table.contains, hm.find?] at hfinds
  case length =>
    intro n hn
    exact (length_of_table hd ht hooks).1 n (Checked.ofInt?_eq_some_iff.2 (by rw [hn, hm.ncard]))
  case overflow =>
    intro hn
    refine (length_of_table hd ht hooks).2 hh
      (Option.eq_none_iff_forall_ne_some.2 fun n hfits => ?_)
    exact hn n (by rw [Checked.ofInt?_eq_some_iff.1 hfits, hm.ncard])
  case truth =>
    rw [truth_eq hd ht rfl, hm.ncard]

/-! ## The laws -/

/-- **A dictionary is a finite map in the order of its keys.** After every history it holds
    one ascending table, which shows what was last stored under each key. Of a dictionary
    that readers can have that is what is read: the very object under a key, its absence,
    how many keys there are, if an integer can say it, and whether there are any. One that
    nobody has takes what is stored under a string, and under anything else it fails and
    changes no object; through a guard entries are inserted and erased. Any two histories
    that come to one mapping leave the same entries in the same order; and with the same
    objects behind them, one text, or one reason why there is none, if they are of one
    dictionary, or of two that are not reached from the entries. -/
theorem dictionary_is_finite_map {hooks : Hooks σ} (hh : hooks.Returns)
    (hstill : hooks.Within (Action.Leads Still)) {w : World σ} {d : ObjId}
    {mapping : Bytes → Option Ref} (h : Stored d mapping w) :
    (∃ t : Table Ref, w.heap.contents d = some (.dict t) ∧ t.Ascending ∧
      ∀ name, t.find? name = mapping name) ∧
    (w.Open d → Reads hooks w d mapping ∧
      ∀ key name, w.Named key name → mapping name ≠ some none →
        (Finds (Ref.contains hooks (some d) (some key)) w .present ↔
          ∃ v w', Ref.item hooks (some d) (some key) w = .ok (.success v) w')) ∧
    (w.Free d → ∀ key value,
      (∀ name, w.Named key name →
        ∃ w', Ref.store hooks (some d) (some key) (some value) w = .ok (.success noneId) w' ∧
          Stored d (Function.update mapping name (some (some value))) w') ∧
      ∀ q, w.Open key → w.heap.contents key = some q → q.kind ≠ .string →
        ∃ w', Ref.store hooks (some d) (some key) (some value) w =
          .ok (.failure (.keyNotText q.kind)) w' ∧ w'.heap = w.heap) ∧
    (∀ g : Guard, g.held = some d → ∀ name,
      (∀ value, ∃ w', g.insertEntry name value w = .ok () w' ∧
        Stored d (Function.update mapping name (some value)) w') ∧
      ∃ w', g.eraseEntry name w = .ok (mapping name).isSome w' ∧
        Stored d (Function.update mapping name none) w') ∧
    ∀ (d' : ObjId) (w' : World σ), Stored d' mapping w' →
      w'.heap.contents d' = w.heap.contents d ∧
      (w.Open d → w'.Open d' →
        (∀ k, Relation.TransGen w.heap.contents.Holds d k →
          w'.heap.contents k = w.heap.contents k ∧ (w'.Open k ↔ w.Open k)) →
        (d = d' ∨ ¬Relation.TransGen w.heap.contents.Holds d d ∧
          ¬Relation.TransGen w.heap.contents.Holds d d') →
        (∃ text, Ref.text (some d) w = .ok text w ∧ Ref.text (some d') w' = .ok text w') ∨
          ∃ e, Ref.text (some d) w = .error e w ∧ Ref.text (some d') w' = .error e w') := by
  obtain ⟨t, ht, hm⟩ := h.maps
  refine ⟨⟨t, ht, hm.ascending, hm.find?⟩, fun hd => ?_, fun hd key value => ?_,
    fun g hg name => ?_, fun d' w' h' => ?_⟩
  · have hreads := h.reads hh hd
    exact ⟨hreads, fun key name hkey hnull => hreads.contains_iff hkey hnull⟩
  · exact ⟨fun name hkey => h.store_ok hd hkey,
      fun q hkey hq hk => store_refused h hh hstill hd hkey hq hk⟩
  · exact ⟨h.insertEntry_ok hg name, h.eraseEntry_ok hg name⟩
  · obtain ⟨t', ht', hm'⟩ := h'.maps
    have hsame : w'.heap.contents d' = w.heap.contents d := by rw [ht', ht, hm.unique hm']
    refine ⟨hsame, fun hd hd' hbeyond hself => ?_⟩
    have halike : Alike w w' d d' := ⟨hsame, hbeyond⟩
    exact halike.text hd hd' hself

/-- Four strings, the empty one among them, two integers, and dictionaries. -/
def shelf (tables : List (Table Ref)) : World Unit where
  heap := ⟨#[some { payload := .string [], type := none },
    some { payload := .string [97], type := none },
    some { payload := .string [97, 98], type := none },
    some { payload := .string [128], type := none },
    some { payload := .integer 1, type := none },
    some { payload := .integer 2, type := none }] ++
      (tables.map fun t => some (Payload.dict t).newborn).toArray⟩
  host := ()

/-- One mapping, twice. -/
def shelved : World Unit := shelf [[([97], some ⟨5⟩), ([128], some ⟨5⟩)],
  [([97], some ⟨5⟩), ([128], some ⟨5⟩)]]

/-- A dictionary that is made of three entries, two of them under one key, and given a null
    value under the empty string for a while. -/
theorem stored_made : Stored ⟨6⟩ (Table.mappingOf [([97], some ⟨5⟩), ([128], some ⟨5⟩)])
    (shelf [[([97], some ⟨5⟩), ([128], some ⟨5⟩)]]) := by
  let g : Guard := { held := some ⟨6⟩, access := .write }
  have hmade : Stored ⟨6⟩ _ _ := .made (rfl : fresh (.dict (Table.ofList
    [([97], some ⟨4⟩), ([128], some ⟨5⟩), ([97], some ⟨5⟩)])) (shelf []) =
      .ok ⟨6⟩ (shelf [[([97], some ⟨5⟩), ([128], some ⟨5⟩)]]))
  have hinserted := hmade.insertEntry (g := g) rfl (rfl : g.insertEntry [] none _ =
    .ok () (shelf [[([], none), ([97], some ⟨5⟩), ([128], some ⟨5⟩)]]))
  have herased := hinserted.eraseEntry (g := g) rfl (rfl : g.eraseEntry [] _ =
    .ok true (shelf [[([97], some ⟨5⟩), ([128], some ⟨5⟩)]]))
  convert herased using 1
  funext key
  simp only [Table.mappingOf, List.foldl, Function.update_apply]
  grind

/-- A dictionary beside it that is made empty, and into which entries are stored, in another
    order; one is overwritten, and one is erased. -/
theorem stored_piecewise :
    Stored ⟨7⟩ (Table.mappingOf [([97], some ⟨5⟩), ([128], some ⟨5⟩)]) shelved := by
  let g : Guard := { held := some ⟨7⟩, access := .write }
  let beside (t : Table Ref) : World Unit := shelf [[([97], some ⟨5⟩), ([128], some ⟨5⟩)], t]
  have hmade : Stored ⟨7⟩ _ _ := .made (rfl : fresh (.dict (Table.ofList []))
    (shelf [[([97], some ⟨5⟩), ([128], some ⟨5⟩)]]) = .ok ⟨7⟩ (beside []))
  have hfirst := hmade.store rfl
    (rfl : Ref.store {} (some ⟨7⟩) (some ⟨3⟩) (some ⟨5⟩) _ =
      .ok (.success noneId) (beside [([128], some ⟨5⟩)]))
  have hprefix := hfirst.store rfl
    (rfl : Ref.store {} (some ⟨7⟩) (some ⟨2⟩) (some ⟨4⟩) _ =
      .ok (.success noneId) (beside [([97, 98], some ⟨4⟩), ([128], some ⟨5⟩)]))
  have hsecond := hprefix.store rfl
    (rfl : Ref.store {} (some ⟨7⟩) (some ⟨1⟩) (some ⟨4⟩) _ = .ok (.success noneId)
      (beside [([97], some ⟨4⟩), ([97, 98], some ⟨4⟩), ([128], some ⟨5⟩)]))
  have hagain := hsecond.store rfl
    (rfl : Ref.store {} (some ⟨7⟩) (some ⟨1⟩) (some ⟨5⟩) _ = .ok (.success noneId)
      (beside [([97], some ⟨5⟩), ([97, 98], some ⟨4⟩), ([128], some ⟨5⟩)]))
  have herased := hagain.eraseEntry (g := g) rfl (rfl : g.eraseEntry [97, 98] _ =
    .ok true shelved)
  convert herased using 1
  funext key
  simp only [Table.mappingOf, List.foldl, Function.update_apply]
  grind

/-- The second integer is all that is held. -/
theorem not_reached_shelved {d d' : ObjId} (hd : d' ≠ ⟨5⟩) :
    ¬Relation.TransGen shelved.heap.contents.Holds d d' := by
  intro hreach
  obtain ⟨k, -, a, ha, hslot⟩ := Relation.TransGen.tail'_iff.1 hreach
  obtain ⟨o, ho, rfl⟩ := Option.map_eq_some_iff.1 ha
  have hall : ∀ cell ∈ shelved.heap.cells.toList, ∀ o, cell = some o →
      ∀ r ∈ o.payload.slots, r = some ⟨5⟩ := by decide
  exact hd (Option.some.inj (Heap.forall_get? hall ho _ hslot))

/-- Both have the entries of the mapping and one text; they give the second integer for the
    first string, nothing for the longer one, and take no integer for a key. -/
theorem dictionary_is_finite_map_piecewise :
    shelved.heap.contents ⟨7⟩ = shelved.heap.contents ⟨6⟩ ∧
    Ref.item {} (some ⟨7⟩) (some ⟨1⟩) shelved = .ok (.success ⟨5⟩) shelved ∧
    (∃ w', Ref.item {} (some ⟨7⟩) (some ⟨2⟩) shelved = .ok (.failure (.missingKey [97, 98])) w') ∧
    (∃ w', Ref.store {} (some ⟨7⟩) (some ⟨4⟩) (some ⟨5⟩) shelved =
      .ok (.failure (.keyNotText .integer)) w' ∧ w'.heap = shelved.heap) ∧
    ∃ text, Ref.text (some ⟨7⟩) shelved = .ok text shelved ∧
      Ref.text (some ⟨6⟩) shelved = .ok text shelved := by
  have hh : Hooks.Returns ({} : Hooks Unit) := nofun
  have hmade : Stored ⟨6⟩ _ shelved := stored_made.other rfl
  have hopen : ∀ i : ObjId, i.index < 8 → shelved.Open i := by
    intro i hi
    have hall : ∀ n : Fin 8, (shelved.heap.get? ⟨n⟩).map Object.loan = some .free := by decide
    obtain ⟨o, ho, hl⟩ := Option.map_eq_some_iff.1 (hall ⟨i.index, hi⟩)
    exact ⟨o, ho, by rw [hl]; nofun⟩
  obtain ⟨-, hreads, hstore, -, hsame⟩ :=
    dictionary_is_finite_map hh (Hooks.within_none _) stored_piecewise
  obtain ⟨hreads, -⟩ := hreads (hopen _ (by decide))
  obtain ⟨hcontents, htext⟩ := hsame ⟨6⟩ shelved hmade
  refine ⟨hcontents.symm, hreads.item ⟨hopen _ (by decide), rfl⟩ rfl,
    hreads.missing ⟨hopen _ (by decide), rfl⟩ rfl, ?_, ?_⟩
  · exact (hstore ⟨_, rfl, rfl⟩ ⟨4⟩ ⟨5⟩).2 (.integer 1) (hopen _ (by decide)) rfl nofun
  · have hshown : ∃ text, Ref.text (some ⟨6⟩) shelved = .ok text shelved := ⟨_, rfl⟩
    obtain hone | ⟨e, -, herror⟩ := htext (hopen _ (by decide)) (hopen _ (by decide))
      (fun _ _ => ⟨rfl, .rfl⟩)
      (.inr ⟨not_reached_shelved (by decide), not_reached_shelved (by decide)⟩)
    · exact hone
    · obtain ⟨text, hok⟩ := hshown
      cases hok.symm.trans herror

/-- Two dictionaries that hold the first of them under one key. -/
def twins : World Unit := shelf [[([97], some ⟨6⟩)], [([97], some ⟨6⟩)]]

/-- Each is made empty, and then the first is stored in it. -/
theorem stored_twins :
    Stored ⟨6⟩ (Table.mappingOf [([97], some ⟨6⟩)]) twins ∧
      Stored ⟨7⟩ (Table.mappingOf [([97], some ⟨6⟩)]) twins := by
  have hfirst : Stored ⟨6⟩ _ (shelf [[]]) :=
    .made (rfl : fresh (.dict (Table.ofList [])) (shelf []) = _)
  have hsecond : Stored ⟨7⟩ _ (shelf [[], []]) :=
    .made (rfl : fresh (.dict (Table.ofList [])) (shelf [[]]) = _)
  have hboth : Stored ⟨6⟩ _ (shelf [[], []]) := hfirst.other rfl
  have hself := hboth.store rfl (rfl : Ref.store {} (some ⟨6⟩) (some ⟨1⟩) (some ⟨6⟩) _ =
    .ok (.success noneId) (shelf [[([97], some ⟨6⟩)], []]))
  have hbeside : Stored ⟨7⟩ _ (shelf [[([97], some ⟨6⟩)], []]) := hsecond.other rfl
  exact ⟨hself.other rfl, hbeside.store rfl (rfl : Ref.store {} (some ⟨7⟩) (some ⟨1⟩)
    (some ⟨6⟩) _ = .ok (.success noneId) twins)⟩

/-- **One mapping may have two texts**: a dictionary that holds itself shows an ellipsis
    where another one with the same entries shows it in full. -/
theorem texts_of_one_mapping_differ :
    Stored ⟨6⟩ (Table.mappingOf [([97], some ⟨6⟩)]) twins ∧
    Stored ⟨7⟩ (Table.mappingOf [([97], some ⟨6⟩)]) twins ∧
    twins.heap.contents.Filled ∧ twins.heap.contents.Ordered ∧ twins.heap.Unwritten ∧
    Ref.text (some ⟨6⟩) twins = .ok (.ofString "\x7b'a': \x7b...\x7d\x7d") twins ∧
    Ref.text (some ⟨7⟩) twins =
      .ok (.ofString "\x7b'a': \x7b'a': \x7b...\x7d\x7d\x7d") twins :=
  ⟨stored_twins.1, stored_twins.2, Heap.filled_of_cells (by decide),
    Heap.ordered_of_cells (by decide), Heap.unwritten_of_cells (by decide), rfl, rfl⟩

end ValueEngine
