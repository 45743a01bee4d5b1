/-
  Value engine — searches are decided by the first element that says anything.

  An element says that it is what is looked for, that it is not, or that the two cannot be
  told apart without a failure. A search goes by the first one that does not say no.

  * `Finding`: what a search comes to; `Finds` says so of an action.
  * `World.Regards`: what one element is to an object that is looked for.
  * `World.Scans`: what the elements of a sequence are to it, taken in order.
  * `scan_finds`: the search through a sequence comes to that.
  * `contains_iff_scans`: so does membership in a list or a tuple, and to nothing else.
-/
import ValueEngine.Collection.Iteration
import ValueEngine.Collection.Membership
import ValueEngine.Proofs.Effects.Newborn
import ValueEngine.Proofs.Equality.Verdict

namespace ValueEngine

variable {σ : Type}

/-! ## Findings -/

/-- What a search comes to. -/
inductive Finding
  | present
  | absent
  | failed (cause : Failure)
  /-- The search was left. -/
  | left (e : Abort)
  deriving DecidableEq

/-- What a verdict on an element, or the abort in its place, means for a search. -/
def Finding.ofVerdict : Except Abort Verdict → Finding
  | .ok .equal => present
  | .ok .unequal => absent
  | .ok (.failed cause) => failed cause
  | .error e => left e

/-- What an action that searches comes to: a truth value, a failure or an abort. -/
def Finds (x : Action σ Outcome) (w : World σ) : Finding → Prop
  | .present => ∃ t w', x w = .ok (.success t) w' ∧ w'.heap.contents t = some (.boolean true)
  | .absent => ∃ t w', x w = .ok (.success t) w' ∧ w'.heap.contents t = some (.boolean false)
  | .failed cause => ∃ w', x w = .ok (.failure cause) w'
  | .left e => ∃ w', x w = .error e w'

theorem Finds.unique {x : Action σ Outcome} {w : World σ} {f g : Finding} (hf : Finds x w f)
    (hg : Finds x w g) : f = g := by
  cases f <;> cases g <;> simp only [Finds] at hf hg <;> grind

/-- A truth value that was just made is what it is made to be. -/
theorem finds_freshValue (b : Bool) (w : World σ) :
    Finds (freshValue (.boolean b)) w (if b then .present else .absent) := by
  have hrun : freshValue (.boolean b) w =
      .ok (.success w.nextId) (w.added (Payload.boolean b).newborn) := freshValue_eq rfl w
  have hnew : (w.added (Payload.boolean b).newborn).heap.contents w.nextId = some (.boolean b) :=
    Heap.contents_of_get? (World.get?_added_nextId ..)
  cases b <;> exact ⟨_, _, hrun, hnew⟩

/-- What is found while an object is lent is found. -/
theorem Finds.withRead {w : World σ} {c : Contents} {i : ObjId} {a : Payload}
    {body : ObjId → Object → Action σ Outcome} {f : Finding} (hw : w.Shows c) (hi : c i = some a)
    (hb : ∀ o v, o.payload = a → v.Shows c → v.heap.size = w.heap.size → Finds (body i o) v f) :
    Finds (withRead (some i) body) w f := by
  obtain ⟨o, v, ho, hv, hback, hread⟩ := hw.withRead hi
  have hsize : v.heap.size = w.heap.size := by rw [← hback, World.size_endLoan]
  have h := hb o v ho hv hsize
  cases f with
  | present | absent =>
    obtain ⟨t, v', hrun, ht⟩ := h
    exact ⟨t, v'.endLoan .read i, by rw [hread, hrun], by rw [World.contents_endLoan, ht]⟩
  | failed cause =>
    obtain ⟨v', hrun⟩ := h
    exact ⟨v'.endLoan .read i, by rw [hread, hrun]⟩
  | left e =>
    obtain ⟨v', hrun⟩ := h
    exact ⟨v'.endLoan .read i, by rw [hread, hrun]⟩

/-! ## Elements -/

/-- Two objects of one kind, and the kind has equality. -/
def Contents.Testable (c : Contents) (i j : ObjId) : Prop :=
  ∃ a b, c i = some a ∧ c j = some b ∧ a.kind = b.kind ∧ b.kind.hasEquality = true

namespace World

/-- What an element is to an object that is looked for: it is that very object; it is
    another one that cannot be tested against it; or it is what the test says. -/
inductive Regards (w : World σ) (j : ObjId) : ObjId → Finding → Prop
  | same : Regards w j j .present
  | untestable {k : ObjId} : k ≠ j → ¬w.heap.contents.Testable k j → Regards w j k .absent
  | tested {k : ObjId} : k ≠ j → w.heap.contents.Testable k j →
      Regards w j k (.ofVerdict (w.verdict k j))

/-- What the elements of a sequence, taken in order, are to an object that is looked for:
    the first one that is not passed over decides. -/
def Scans (w : World σ) (j : ObjId) (elements : List Ref) (f : Finding) : Prop :=
  (f = .absent ∧ ∀ p, some p ∈ elements → w.Regards j p .absent) ∨
    f ≠ .absent ∧ ∃ before k after, elements = before ++ some k :: after ∧
      (∀ p, some p ∈ before → w.Regards j p .absent) ∧ w.Regards j k f

variable {w : World σ} {j k : ObjId} {elements : List Ref}

theorem exists_regards (w : World σ) (j k : ObjId) : ∃ f, w.Regards j k f := by
  by_cases hkj : k = j
  · subst hkj
    exact ⟨_, .same⟩
  by_cases ht : w.heap.contents.Testable k j
  · exact ⟨_, .tested hkj ht⟩
  · exact ⟨_, .untestable hkj ht⟩

/-- Every sequence is something to every object. -/
theorem exists_scans (w : World σ) (j : ObjId) (elements : List Ref) :
    ∃ f, w.Scans j elements f := by
  induction elements with
  | nil => exact ⟨.absent, .inl ⟨rfl, by simp⟩⟩
  | cons element rest ih =>
    cases element with
    | none =>
      obtain ⟨f, ⟨rfl, hall⟩ | ⟨hf, before, k, after, rfl, hbefore, hk⟩⟩ := ih
      · exact ⟨_, .inl ⟨rfl, by simpa using hall⟩⟩
      · exact ⟨f, .inr ⟨hf, none :: before, k, after, rfl, by simpa using hbefore, hk⟩⟩
    | some p =>
      obtain ⟨g, hg⟩ := exists_regards w j p
      by_cases hpassed : g = .absent
      · subst hpassed
        have hcons : ∀ {ks : List Ref}, (∀ q, some q ∈ ks → w.Regards j q .absent) →
            ∀ q, some q ∈ some p :: ks → w.Regards j q .absent := by
          intro ks hks q hq
          obtain hqp | hq := List.mem_cons.1 hq
          · cases hqp
            exact hg
          · exact hks q hq
        obtain ⟨f, ⟨rfl, hall⟩ | ⟨hf, before, k, after, rfl, hbefore, hk⟩⟩ := ih
        · exact ⟨_, .inl ⟨rfl, hcons hall⟩⟩
        · exact ⟨f, .inr ⟨hf, some p :: before, k, after, rfl, hcons hbefore, hk⟩⟩
      · exact ⟨g, .inr ⟨hpassed, [], p, rest, rfl, by simp, hg⟩⟩

/-- What decides a part of a sequence that comes first decides the whole. -/
theorem Scans.append_of_ne {xs : List Ref} {f : Finding} (h : w.Scans j xs f) (hf : f ≠ .absent)
    (ys : List Ref) : w.Scans j (xs ++ ys) f := by
  obtain ⟨habsent, -⟩ | ⟨-, before, k, after, rfl, hbefore, hk⟩ := h
  · exact absurd habsent hf
  · exact .inr ⟨hf, before, k, after ++ ys, by simp, hbefore, hk⟩

/-- What is passed over leaves it to the rest. -/
theorem Scans.append_of_absent {xs ys : List Ref} {f : Finding} (h : w.Scans j xs .absent)
    (hys : w.Scans j ys f) : w.Scans j (xs ++ ys) f := by
  obtain ⟨-, hxs⟩ | ⟨hne, -⟩ := h
  · have hpassed : ∀ {before : List Ref}, (∀ p, some p ∈ before → w.Regards j p .absent) →
        ∀ p, some p ∈ xs ++ before → w.Regards j p .absent := fun hbefore p hp =>
      (List.mem_append.1 hp).elim (hxs p) (hbefore p)
    obtain ⟨rfl, hall⟩ | ⟨hf, before, k, after, rfl, hbefore, hk⟩ := hys
    · exact .inl ⟨rfl, hpassed hall⟩
    · exact .inr ⟨hf, xs ++ before, k, after, by simp, hpassed hbefore, hk⟩
  · exact absurd rfl hne

end World

/-! ## The search -/

section Search

variable {hooks : Hooks σ} {w v : World σ} {i j k : ObjId} {needle : Object} {f : Finding}

/-- What the match of one element comes to. -/
def Settled (x : Action σ Verdict) (v : World σ) : Finding → Prop
  | .present => x v = .ok .equal v
  | .absent => x v = .ok .unequal v
  | .failed cause => ∃ v', x v = .ok (.failed cause) v'
  | .left e => ∃ v', x v = .error e v'

theorem Settled.withRead {c : Contents} {a : Payload} {body : ObjId → Object → Action σ Verdict}
    (hv : v.Shows c) (hi : c i = some a)
    (hb : ∀ o u, o.payload = a → u.Shows c → u.heap.size = v.heap.size → Settled (body i o) u f) :
    Settled (withRead (some i) body) v f := by
  obtain ⟨o, u, ho, hu, hback, hread⟩ := hv.withRead hi
  have hsize : u.heap.size = v.heap.size := by rw [← hback, World.size_endLoan]
  have h := hb o u ho hu hsize
  cases f with
  | present | absent =>
    simp only [Settled] at h ⊢
    rw [hread, h]
    simp only [hback]
  | failed cause =>
    obtain ⟨v', hrun⟩ := h
    exact ⟨v'.endLoan .read i, by rw [hread, hrun]⟩
  | left e =>
    obtain ⟨v', hrun⟩ := h
    exact ⟨v'.endLoan .read i, by rw [hread, hrun]⟩

variable (hh : hooks.Returns) (hu : w.heap.Unwritten) (hv : v.Shows w.heap.contents)
  (hsize : v.heap.size = w.heap.size) (hneedle : w.heap.contents j = some needle.payload)
include hh hu hv hsize hneedle

/-- The match of an element is what the element is to the object. -/
theorem matchElement_settled (hk : (w.heap.contents k).isSome) (hf : w.Regards j k f) :
    Settled (matchElement hooks j needle (some k)) v f := by
  obtain ⟨a, ha⟩ := Option.isSome_iff_exists.1 hk
  cases hf with
  | same => simp [matchElement, Settled]
  | untestable hkj ht =>
    rw [matchElement, if_neg (by simpa using hkj)]
    refine .withRead hv ha fun o u ho _ _ => ?_
    have hskip : o.kind ≠ needle.kind ∨ needle.kind.hasEquality = false := by
      by_contra hcon
      rw [not_or, not_not, Bool.not_eq_false] at hcon
      exact ht ⟨_, _, ho ▸ ha, hneedle, hcon⟩
    rw [if_pos hskip]
    rfl
  | tested hkj ht =>
    obtain ⟨a', b, ha', hb, hkind, heq⟩ := ht
    cases ha.symm.trans ha'
    cases hneedle.symm.trans hb
    rw [matchElement, if_neg (by simpa using hkj)]
    refine .withRead hv ha fun o u ho hshows husize => ?_
    subst ho
    have htest : ¬(o.kind ≠ needle.kind ∨ needle.kind.hasEquality = false) := by
      rw [not_or, not_not, Bool.not_eq_false]
      exact ⟨hkind, heq⟩
    rw [if_neg htest]
    have h := judge_of_verdict hh hu hshows (husize.trans hsize) ha hneedle
    cases hverdict : w.verdict k j with
    | error e =>
      rw [hverdict] at h
      exact h
    | ok verdict =>
      rw [hverdict] at h
      obtain ⟨u', hrun, hback⟩ := h
      cases verdict with
      | equal =>
        rw [hback.resolve_left Verdict.not_failed_equal] at hrun
        exact hrun
      | unequal =>
        rw [hback.resolve_left Verdict.not_failed_unequal] at hrun
        exact hrun
      | failed cause => exact ⟨u', hrun⟩

/-- Elements that are not what is looked for are passed over. -/
theorem scan_append_of_absent {before after : List Ref}
    (hlive : ∀ r ∈ before, (r.bind w.heap.contents).isSome)
    (hbefore : ∀ p, some p ∈ before → w.Regards j p .absent) :
    scan hooks j needle (before ++ after) v = scan hooks j needle after v := by
  induction before with
  | nil => rfl
  | cons element before ih =>
    obtain ⟨a, ha⟩ := Option.isSome_iff_exists.1 (hlive element List.mem_cons_self)
    obtain ⟨p, rfl, hp⟩ := Option.bind_eq_some_iff.1 ha
    have hmatch : matchElement hooks j needle (some p) v = .ok .unequal v :=
      matchElement_settled hh hu hv hsize hneedle (by simp [hp]) (hbefore p List.mem_cons_self)
    rw [List.cons_append, scan, Action.bind_of_ok hmatch]
    exact ih (fun r hr => hlive r (List.mem_cons_of_mem _ hr))
      fun q hq => hbefore q (List.mem_cons_of_mem _ hq)

/-- **The search comes to what the elements are**, taken in order. -/
theorem scan_finds {elements : List Ref}
    (hlive : ∀ r ∈ elements, (r.bind w.heap.contents).isSome) (hf : w.Scans j elements f) :
    Finds (scan hooks j needle elements) v f := by
  obtain ⟨rfl, hall⟩ | ⟨hf, before, k, after, rfl, hbefore, hk⟩ := hf
  · have hpassed : scan hooks j needle (elements ++ []) v = scan hooks j needle [] v :=
      scan_append_of_absent hh hu hv hsize hneedle hlive hall
    rw [List.append_nil] at hpassed
    obtain ⟨t, v', hrun, ht⟩ := finds_freshValue (σ := σ) false v
    exact ⟨t, v', hpassed.trans hrun, ht⟩
  · have hpassed : scan hooks j needle (before ++ some k :: after) v =
        scan hooks j needle (some k :: after) v :=
      scan_append_of_absent hh hu hv hsize hneedle
        (fun r hr => hlive r (List.mem_append_left _ hr)) hbefore
    have hmatch := matchElement_settled hh hu hv hsize hneedle
      (hlive (some k) (List.mem_append_right _ List.mem_cons_self)) hk
    cases f with
    | absent => exact absurd rfl hf
    | present =>
      obtain ⟨t, v', hrun, ht⟩ := finds_freshValue (σ := σ) true v
      exact ⟨t, v', hpassed.trans ((Action.bind_of_ok hmatch _).trans hrun), ht⟩
    | failed cause =>
      obtain ⟨v', hrun⟩ := hmatch
      exact ⟨v', hpassed.trans (Action.bind_of_ok hrun _)⟩
    | left e =>
      obtain ⟨v', hrun⟩ := hmatch
      exact ⟨v', hpassed.trans (Action.bind_of_error hrun _)⟩

end Search

/-! ## Membership -/

/-- **Membership is the first finding of the search**: in a list or a tuple without null
    slots, where no object is lent for writing. -/
theorem contains_iff_scans {hooks : Hooks σ} {w : World σ} {c j : ObjId} {a : Payload}
    {elements : List Ref} (hh : hooks.Returns) (hu : w.heap.Unwritten)
    (ha : w.heap.contents c = some a) (helements : a.elements? = some elements)
    (hlive : ∀ r ∈ elements, (r.bind w.heap.contents).isSome)
    (hj : (w.heap.contents j).isSome) (f : Finding) :
    Finds (Ref.contains hooks (some c) (some j)) w f ↔ w.Scans j elements f := by
  have hfinds : ∀ {f}, w.Scans j elements f →
      Finds (Ref.contains hooks (some c) (some j)) w f := by
    intro f hf
    obtain ⟨b, hb⟩ := Option.isSome_iff_exists.1 hj
    refine .withRead ⟨rfl, hu⟩ ha fun collection v hcollection hv hvsize => ?_
    refine .withRead hv hb fun needle u hneedle hu' husize => ?_
    have hscan : membership hooks collection.payload j needle = scan hooks j needle elements := by
      rw [hcollection]
      unfold Payload.elements? at helements
      split at helements <;> cases helements <;> rfl
    rw [hscan]
    exact scan_finds hh hu hu' (husize.trans hvsize) (hneedle ▸ hb) hlive hf
  refine ⟨fun h => ?_, hfinds⟩
  obtain ⟨g, hg⟩ := World.exists_scans w j elements
  rwa [h.unique (hfinds hg)]

end ValueEngine
