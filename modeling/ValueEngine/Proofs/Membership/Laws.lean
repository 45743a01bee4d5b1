/-
  Value engine — laws of membership.

  Membership in a sum is membership in one part or the other, the first finding deciding.
  What was put into a list is found there, if the search comes to an end. A string is
  part of another one just if it stands in it.

  * `Action.Arrives.contains_of_mem`: a search does not miss an object that is there.
  * `append_puts`, `store_puts`: what is put into a list is there afterwards.
  * `contains_sum`: sums of lists.
  * `contains_text_iff`: parts of strings.
  * `contains_first_finding`: all of this, with the first finding of the search.
-/
import ValueEngine.Proofs.Equality.Congruence
import ValueEngine.Proofs.Membership.Scan

namespace ValueEngine

variable {σ : Type} {hooks : Hooks σ} {w w' : World σ}

/-! ## Objects that are there -/

/-- An outcome that is not a truth value saying no. -/
def NotAbsent (outcome : Outcome) (w : World σ) : Prop :=
  ∀ t, outcome = .success t → w.heap.contents t ≠ some (.boolean false)

theorem not_finds_absent {x : Action σ Outcome} (h : x.Arrives w NotAbsent fun _ => True) :
    ¬Finds x w .absent := by
  rintro ⟨t, v, hx, ht⟩
  exact h.of_run hx t rfl ht

/-- A search through elements that have the object among them does not say no. -/
theorem scan_not_absent {j : ObjId} {needle : Object} {elements : List Ref}
    (hj : some j ∈ elements) :
    (scan hooks j needle elements).Arrives w NotAbsent fun _ => True := by
  have htrue : ∀ v : World σ,
      (freshValue (.boolean true)).Arrives v NotAbsent fun _ => True := by
    intro v
    refine .of_ok (freshValue_eq rfl v) fun t ht hfalse => ?_
    cases ht
    rw [Heap.contents_of_get? (World.get?_added_nextId ..)] at hfalse
    cases hfalse
  induction elements generalizing w with
  | nil => cases hj
  | cons element rest ih =>
    rw [scan]
    refine .bind ?_
    by_cases helement : element = some j
    · have hmatch : matchElement hooks j needle element w = .ok .equal w := by
        rw [matchElement, if_pos helement]
        rfl
      exact .of_ok hmatch (htrue w)
    · have hrest : some j ∈ rest := (List.mem_cons.1 hj).resolve_left (Ne.symm helement)
      cases hmatch : matchElement hooks j needle element w with
      | error e v => exact .of_error hmatch trivial
      | ok verdict v =>
        refine .of_ok hmatch ?_
        cases verdict with
        | equal => exact htrue v
        | unequal => exact ih hrest
        | failed cause => exact .of_ok rfl fun t ht => by cases ht

/-- **A search does not miss an object** that is there. -/
theorem contains_of_mem {l v : ObjId} {elements : List Ref}
    (hl : w.heap.contents l = some (.list elements)) (hv : some v ∈ elements) :
    ¬Finds (Ref.contains hooks (some l) (some v)) w .absent := by
  have hback : ∀ (outcome : Outcome) (u : World σ) (i : ObjId), NotAbsent outcome u →
      NotAbsent outcome (u.endLoan .read i) := fun outcome u i h => by
    simpa only [NotAbsent, World.contents_endLoan] using h
  refine not_finds_absent (.lend trivial fun i o m hi ho _ => ?_)
  cases hi
  have hp : o.payload = .list elements := Option.some.inj <| by
    rw [← hl, Heap.contents_of_get? ho]
  refine .lend trivial fun j needle m' hj _ _ => ?_
  cases hj
  have hscan : membership hooks o.payload v { needle with loan := m' } =
      scan hooks v { needle with loan := m' } elements := by rw [hp, membership]
  dsimp only
  rw [hscan]
  exact (scan_not_absent hv).mono (fun outcome u h => hback _ _ _ (hback _ _ _ h))
    fun _ _ => trivial

/-- A change that succeeded is in place. -/
theorem contents_of_replaceOrFail {l r : ObjId} {f : Payload → Except Failure Payload}
    (h : withWrite (some l) (fun i o => replaceOrFail hooks i (f o.payload)) w =
      .ok (.success r) w') :
    ∃ p q, w.heap.contents l = some p ∧ f p = .ok q ∧ w'.heap.contents l = some q := by
  have harrives : (withWrite (some l) fun i o => replaceOrFail hooks i (f o.payload)).Arrives w
      (fun outcome v => outcome.Succeeded → ∃ p q, w.heap.contents l = some p ∧ f p = .ok q ∧
        v.heap.contents l = some q) fun _ => True := by
    refine .lend trivial fun i o m hi ho hm => ?_
    cases hi
    dsimp only
    cases hf : f o.payload with
    | error cause =>
      refine (Action.Arrives.fail_or_throws hooks cause _).mono ?_ fun _ _ => trivial
      rintro _ _ rfl ⟨⟩
    | ok q =>
      refine .of_ok rfl fun _ => ⟨_, q, Heap.contents_of_get? ho, hf, ?_⟩
      rw [World.contents_endLoan, Heap.contents_update_self, World.get?_lent_self ho m,
        Option.map_some]
  exact harrives.of_run h trivial

theorem append_puts {a : Ref} {v r : ObjId}
    (h : Ref.append hooks a (some v) w = .ok (.success r) w') :
    ∃ l elements, a = some l ∧ w'.heap.contents l = some (.list elements) ∧
      some v ∈ elements := by
  have hrun : Ref.append hooks a (some v) w = withWrite a
      (fun i o => replaceOrFail hooks i (o.payload.appended? (some v))) w := rfl
  rw [hrun] at h
  cases a with
  | none => cases h
  | some l =>
    obtain ⟨p, q, -, hq, hl⟩ := contents_of_replaceOrFail (f := (·.appended? (some v))) h
    cases p <;> cases hq
    exact ⟨l, _, rfl, hl, by simp⟩

theorem store_puts {l v r : ObjId} {key : Ref} {ls : List Ref}
    (hl : w.heap.contents l = some (.list ls))
    (h : Ref.store hooks (some l) key (some v) w = .ok (.success r) w') :
    ∃ elements, w'.heap.contents l = some (.list elements) ∧ some v ∈ elements := by
  rcases peek_cases key w with ⟨e, hpeek⟩ | ⟨k, o, loan, rfl, -, hpeek⟩
  · have hrun : Ref.store hooks (some l) key (some v) w = .error e w :=
      Action.bind_of_error hpeek _
    rw [hrun] at h
    cases h
  · have hrun : Ref.store hooks (some l) (some k) (some v) w = withWrite (some l)
        (fun i c => replaceOrFail hooks i (c.payload.stored? o.payload (some v))) w :=
      Action.bind_of_ok hpeek _
    rw [hrun] at h
    obtain ⟨p, q, hp, hq, hl'⟩ := contents_of_replaceOrFail (f := (·.stored? o.payload (some v))) h
    cases hl.symm.trans hp
    unfold Payload.stored? at hq
    split at hq
    · rename_i elements index hlist _
      split at hq <;> cases hq
      rename_i place hplace
      cases hlist
      exact ⟨_, hl', List.mem_set (position?_lt hplace) _⟩
    all_goals simp_all

/-! ## Sums -/

/-- **In a sum of two lists** an object is as it is in the first, unless it is absent from
    it, and else as it is in the second. -/
theorem contains_sum (hh : hooks.Returns) {a b : ObjId} {ls rs : List Ref}
    (hu : w.heap.Unwritten) (ha : w.heap.contents a = some (.list ls))
    (hb : w.heap.contents b = some (.list rs))
    (hlive : ∀ r ∈ ls ++ rs, (r.bind w.heap.contents).isSome) :
    ∃ s w', Ref.add hooks (some a) (some b) w = .ok (.success s) w' ∧
      ∀ v, (w'.heap.contents v).isSome →
        (∀ f, f ≠ .absent → Finds (Ref.contains hooks (some a) (some v)) w' f →
          Finds (Ref.contains hooks (some s) (some v)) w' f) ∧
        (Finds (Ref.contains hooks (some a) (some v)) w' .absent →
          ∀ f, Finds (Ref.contains hooks (some b) (some v)) w' f →
            Finds (Ref.contains hooks (some s) (some v)) w' f) := by
  obtain ⟨s, w', d, hadd, hw', hd⟩ := gives_sum ⟨rfl, hu⟩ ha hb (none_not_mem_of_live hlive)
  refine ⟨s, w', hadd, fun v hv => ?_⟩
  have hlive' : ∀ r ∈ ls ++ rs, (r.bind w'.heap.contents).isSome := by
    intro r hr
    obtain ⟨p, hp⟩ := Option.isSome_iff_exists.1 (hlive r hr)
    obtain ⟨k, rfl, hk⟩ := Option.bind_eq_some_iff.1 hp
    rw [hw'.contents, Option.bind_some, hd.old hk]
    rfl
  have hsum : ∀ f, Finds (Ref.contains hooks (some s) (some v)) w' f ↔
      w'.Scans v (ls ++ rs) f :=
    contains_iff_scans hh hw'.unwritten (hw'.contents ▸ hd.new) rfl hlive' hv
  have hleft : ∀ f, Finds (Ref.contains hooks (some a) (some v)) w' f ↔ w'.Scans v ls f :=
    contains_iff_scans hh hw'.unwritten (hw'.contents ▸ hd.old ha) rfl
      (fun r hr => hlive' r (List.mem_append_left _ hr)) hv
  have hright : ∀ f, Finds (Ref.contains hooks (some b) (some v)) w' f ↔ w'.Scans v rs f :=
    contains_iff_scans hh hw'.unwritten (hw'.contents ▸ hd.old hb) rfl
      (fun r hr => hlive' r (List.mem_append_right _ hr)) hv
  constructor
  · intro f hf hfinds
    exact (hsum f).2 (((hleft f).1 hfinds).append_of_ne hf rs)
  · intro habsent f hfinds
    exact (hsum f).2 (((hleft _).1 habsent).append_of_absent ((hright f).1 hfinds))

/-! ## Strings -/

section Strings

variable {s t : ObjId} {text part : Bytes} (hu : w.heap.Unwritten)
  (hs : w.heap.contents s = some (.string text)) (ht : w.heap.contents t = some (.string part))
include hu hs ht

/-- The search in a string is the search for its bytes. -/
theorem contains_text : Finds (Ref.contains hooks (some s) (some t)) w
    (if part.occursIn text then .present else .absent) := by
  refine .withRead ⟨rfl, hu⟩ hs fun collection v hcollection hv _ => ?_
  refine .withRead hv ht fun needle u hneedle _ _ => ?_
  have hrun : membership hooks collection.payload t needle =
      freshValue (.boolean (part.occursIn text)) := by
    simp only [membership, hcollection, hneedle]
  rw [hrun]
  exact finds_freshValue _ u

/-- **A string is part of another one** just if it stands in it. -/
theorem contains_text_iff :
    (Finds (Ref.contains hooks (some s) (some t)) w .present ↔
      ∃ before after, text = before ++ part ++ after) ∧
    (Finds (Ref.contains hooks (some s) (some t)) w .absent ↔
      ¬∃ before after, text = before ++ part ++ after) := by
  have hfinds : Finds (Ref.contains hooks (some s) (some t)) w
      (if part.occursIn text then .present else .absent) := contains_text hu hs ht
  rw [← Bytes.occursIn_iff]
  cases hpart : part.occursIn text
  · have habsent : Finds (Ref.contains hooks (some s) (some t)) w .absent := by
      simpa [hpart] using hfinds
    exact ⟨iff_of_false (fun h => nomatch h.unique habsent) nofun, iff_of_true habsent nofun⟩
  · have hpresent : Finds (Ref.contains hooks (some s) (some t)) w .present := by
      simpa [hpart] using hfinds
    exact ⟨iff_of_true hpresent rfl,
      iff_of_false (fun h => nomatch h.unique hpresent) fun h => h rfl⟩

end Strings

/-! ## The laws -/

/-- **Membership is the first finding.** In a list or a tuple without null slots, where no
    object is lent for writing, it is the first finding among the elements, taken in order,
    and there is always one. So in a sum of two lists it is the finding in the first,
    unless the object is absent from it, and else the one in the second; after an object
    was appended to a list, or stored in it, the list is never said not to hold it,
    whatever its kind; and a string holds exactly those that stand in it. -/
theorem contains_first_finding {hooks : Hooks σ} (hh : hooks.Returns) :
    (∀ (w : World σ) (c v : ObjId) (a : Payload) (elements : List Ref), w.heap.Unwritten →
      w.heap.contents c = some a → a.elements? = some elements →
      (∀ r ∈ elements, (r.bind w.heap.contents).isSome) → (w.heap.contents v).isSome →
      (∃ f, w.Scans v elements f) ∧
      ∀ f, Finds (Ref.contains hooks (some c) (some v)) w f ↔ w.Scans v elements f) ∧
    (∀ (w : World σ) (a b : ObjId) (ls rs : List Ref), w.heap.Unwritten →
      w.heap.contents a = some (.list ls) → w.heap.contents b = some (.list rs) →
      (∀ r ∈ ls ++ rs, (r.bind w.heap.contents).isSome) →
      ∃ s w', Ref.add hooks (some a) (some b) w = .ok (.success s) w' ∧
        ∀ v, (w'.heap.contents v).isSome →
          (∀ f, f ≠ .absent → Finds (Ref.contains hooks (some a) (some v)) w' f →
            Finds (Ref.contains hooks (some s) (some v)) w' f) ∧
          (Finds (Ref.contains hooks (some a) (some v)) w' .absent →
            ∀ f, Finds (Ref.contains hooks (some b) (some v)) w' f →
              Finds (Ref.contains hooks (some s) (some v)) w' f)) ∧
    (∀ (w w' : World σ) (l : Ref) (v r : ObjId),
      Ref.append hooks l (some v) w = .ok (.success r) w' →
      ¬Finds (Ref.contains hooks l (some v)) w' .absent) ∧
    (∀ (w w' : World σ) (l v r : ObjId) (key : Ref) (ls : List Ref),
      w.heap.contents l = some (.list ls) →
      Ref.store hooks (some l) key (some v) w = .ok (.success r) w' →
      ¬Finds (Ref.contains hooks (some l) (some v)) w' .absent) ∧
    ∀ (w : World σ) (s t : ObjId) (text part : Bytes), w.heap.Unwritten →
      w.heap.contents s = some (.string text) → w.heap.contents t = some (.string part) →
      (Finds (Ref.contains hooks (some s) (some t)) w .present ↔
        ∃ before after, text = before ++ part ++ after) ∧
      (Finds (Ref.contains hooks (some s) (some t)) w .absent ↔
        ¬∃ before after, text = before ++ part ++ after) := by
  refine ⟨fun w c v a elements hu ha helements hlive hv => ⟨w.exists_scans v elements,
      contains_iff_scans hh hu ha helements hlive hv⟩,
    fun w a b ls rs hu ha hb hlive => contains_sum hh hu ha hb hlive, ?_, ?_,
    fun w s t text part hu hs ht => contains_text_iff hu hs ht⟩
  · intro w w' l v r h
    obtain ⟨l, elements, rfl, hl, hv⟩ := append_puts h
    exact contains_of_mem hl hv
  · intro w w' l v r key ls hl h
    obtain ⟨elements, hl', hv⟩ := store_puts hl h
    exact contains_of_mem hl' hv

/-- A list that holds True, itself, a list of True and three, in this order; three again;
    another list of True; and two strings. -/
def mixed : World Unit where
  heap := ⟨#[some { payload := .list [some ⟨1⟩, some ⟨0⟩, some ⟨2⟩, some ⟨3⟩], type := none },
    some { payload := .boolean true, type := none },
    some { payload := .list [some ⟨1⟩], type := none },
    some { payload := .integer 3, type := none },
    some { payload := .integer 3, type := none },
    some { payload := .list [some ⟨1⟩], type := none },
    some { payload := .string [97, 98], type := none },
    some { payload := .string [98], type := none }]⟩
  host := ()

theorem unwritten_mixed : mixed.heap.Unwritten := fun _ _ ho =>
  Heap.forall_get? (P := fun o => o.loan ≠ .exclusive) (by decide) ho

/-- The other three is found behind elements of other kinds, also in a sum; the other list
    of True is not, since True cannot be compared; what is appended or stored is there. -/
theorem contains_first_finding_mixed :
    mixed.Scans ⟨4⟩ [some ⟨1⟩, some ⟨0⟩, some ⟨2⟩, some ⟨3⟩] .present ∧
    mixed.Scans ⟨5⟩ [some ⟨1⟩, some ⟨0⟩, some ⟨2⟩, some ⟨3⟩]
      (.failed (.incomparable .boolean .boolean)) ∧
    (∃ s w', Ref.add {} (some ⟨5⟩) (some ⟨0⟩) mixed = .ok (.success s) w' ∧
      Finds (Ref.contains {} (some s) (some ⟨4⟩)) w' .present) ∧
    ¬Finds (Ref.contains {} (some ⟨5⟩) (some ⟨6⟩))
      ((Ref.append {} (some ⟨5⟩) (some ⟨6⟩)).after mixed) .absent ∧
    ¬Finds (Ref.contains {} (some ⟨0⟩) (some ⟨6⟩))
      ((Ref.store {} (some ⟨0⟩) (some ⟨3⟩) (some ⟨6⟩)).after mixed) .absent ∧
    Finds (Ref.contains {} (some ⟨6⟩) (some ⟨7⟩)) mixed .present := by
  have hh : Hooks.Returns ({} : Hooks Unit) := nofun
  obtain ⟨hscan, hsum, happend, hstore, htext⟩ := contains_first_finding hh
  have hlist := fun v hv => (hscan mixed ⟨0⟩ v _ _ unwritten_mixed rfl rfl (by decide) hv).2
  refine ⟨(hlist ⟨4⟩ rfl _).1 ⟨_, _, rfl, rfl⟩, (hlist ⟨5⟩ rfl _).1 ⟨_, rfl⟩, ?_,
    happend mixed _ _ _ noneId rfl, hstore mixed _ _ _ noneId (some ⟨3⟩) _ rfl rfl,
    (htext mixed ⟨6⟩ ⟨7⟩ _ _ unwritten_mixed rfl rfl).1.2 ⟨[97], [], rfl⟩⟩
  obtain ⟨s, w', hadd, hlaw⟩ := hsum mixed ⟨5⟩ ⟨0⟩ _ _ unwritten_mixed rfl rfl (by decide)
  have hw' : w' = (Ref.add {} (some ⟨5⟩) (some ⟨0⟩)).after mixed := (Action.after_of_ok hadd).symm
  refine ⟨s, w', hadd, ?_⟩
  subst hw'
  exact (hlaw ⟨4⟩ rfl).2 ⟨_, _, rfl, rfl⟩ _ ⟨_, _, rfl, rfl⟩

end ValueEngine
