/-
  Value engine — values do not depend on attributes or type links.

  Two worlds are compared whose objects hold the same and are lent out alike, while their
  attributes and their type links may be anything, in each world something else. Nothing
  but a look-up tells the worlds apart: every request about values ends alike in both and
  leaves two worlds of this sort, in which what has come to be since is the same.

  * `Object.Resembles`, `World.Resembles`: objects, and worlds, that are alike up to
    attributes and type links.
  * `Blind`: actions that do the same in worlds that resemble one another.
  * `ValueProcedure.blind`: what looks at values alone is blind if the host code is.
  * `Request.exists_values`: requests that call nobody.
  * `runs_ignore_attributes`, `values_ignore_attributes`: many requests about values, and
    every one.
-/
import ValueEngine.Proofs.Life.Collection
import ValueEngine.Proofs.Procedure.Pairs
import ValueEngine.Proofs.Rendering.Depiction
import ValueEngine.Proofs.Reporting.Operations

namespace ValueEngine

open Relation

variable {σ α : Type} {n : Nat}

/-! ## Worlds that resemble one another -/

/-- An object that holds the same as another and is lent out alike. From the `n`-th
    identity on, nothing else differs either. -/
structure Object.Resembles (n : Nat) (i : ObjId) (p o : Object) : Prop where
  payload : p.payload = o.payload
  loan : p.loan = o.loan
  eq_of_le : n ≤ i.index → p = o

/-- A world with the objects of another, of which the first `n` may have other
    attributes and other type links. -/
def World.Resembles (n : Nat) (v w : World σ) : Prop := v.Paired (Object.Resembles n) w

theorem Object.Resembles.refl (i : ObjId) (o : Object) : o.Resembles n i o :=
  ⟨rfl, rfl, fun _ => rfl⟩

/-- A loan of one of two such objects is as good as the same loan of the other. -/
theorem Object.Resembles.lent {i : ObjId} {p o : Object} (h : p.Resembles n i o) (loan : Loan) :
    Object.Resembles n i { p with loan := loan } { o with loan := loan } where
  payload := h.payload
  loan := rfl
  eq_of_le hn := by rw [h.eq_of_le hn]

/-- Whether a loan is given does not depend on attributes or the type. -/
theorem Object.resembles_pairing : Pairing (Object.Resembles n) fun _ => False where
  refl := Object.Resembles.refl
  grant {_ _ _ _ m} hpo hm := ⟨m, by rwa [hpo.loan], hpo.lent m⟩
  refuse hpo hm := .inr (by rwa [hpo.loan])
  release access _ p o hpo := by
    rw [hpo.loan]
    exact hpo.lent _

/-- Objects have the same contents in both worlds. -/
theorem Heap.Paired.contents_eq {h' h : Heap} (hp : h'.Paired (Object.Resembles n) h) :
    h'.contents = h.contents := by
  funext i
  cases ho : h.get? i with
  | none => simp only [Heap.contents, ho, hp.get?_none ho]
  | some o =>
    obtain ⟨p, hget, hpo⟩ := hp.get? ho
    simp only [Heap.contents, ho, hget, Option.map_some, hpo.payload]

/-! ## Blind actions -/

/-- An action that does the same in worlds that resemble one another, and leaves worlds
    that do. -/
def Blind (x : Action σ α) : Prop := ∀ n, x.Matches (Object.Resembles n) fun _ => False

/-- **What looks at values alone is blind** to attributes and type links, if the host
    code is. -/
theorem ValueProcedure.blind {foreign : ∀ {α : Type}, Action σ α → Prop} {writes : Prop}
    (hforeign : ∀ {α : Type} {x : Action σ α}, foreign x → Blind x) {x : Action σ α}
    (h : ValueProcedure foreign writes x) : Blind x := by
  intro n
  have hR : Pairing (Object.Resembles n) fun _ => False := Object.resembles_pairing
  induction h with
  | pure a => exact .pure a
  | abort e _ => exact .abort e
  | bind _ _ ihx ihf => exact ihx.bind ihf
  | lend _ hsees _ ih => exact .lend hR (fun i _ _ hpo => (hsees i).congr hpo.payload) ih
  | peek hsees _ ih => exact .peek hR (fun _ _ _ hpo => hsees.congr hpo.payload) ih
  | size _ ih => exact .size ih
  | textLimit _ ih => exact .textLimit ih
  | trace level message => exact .trace level message
  | fresh _ => exact .fresh hR _
  | iterator hq hsees _ ih =>
    exact .iterator hR (fun _ _ _ hpo => hq.congr hpo.payload)
      (fun _ _ _ hpo => hsees.congr hpo.payload) ih
  | change _ _ =>
    refine .change fun p o hpo => ⟨?_, hpo.loan, fun hn => ?_⟩
    · simp only [hpo.payload]
    · rw [hpo.eq_of_le hn]
  | foreign hx => exact hforeign hx n

/-- Two runs of a blind action end alike. -/
theorem Blind.attempt {x : Action σ α} (hx : Blind x) {v w : World σ} (h : v.Resembles n w) :
    ∃ ending v' w', x.attempt v = .ok ending v' ∧ x.attempt w = .ok ending w' ∧
      v'.Resembles n w' := by
  have hboth := hx n v w h
  cases hw : x w with
  | ok a w' =>
    rw [hw] at hboth
    obtain ⟨v', hv, hresembles⟩ := hboth
    exact ⟨.ok a, v', w', by simp only [Action.attempt, hv], by simp only [Action.attempt, hw],
      hresembles⟩
  | error e w' =>
    rw [hw] at hboth
    obtain ⟨v', hv, hresembles⟩ := hboth.resolve_left id
    exact ⟨.error e, v', w', by simp only [Action.attempt, hv], by simp only [Action.attempt, hw],
      hresembles⟩

/-! ## Requests -/

/-- Where a request about values calls nobody, it comes to something that looks at values
    alone. -/
theorem Request.exists_values {foreign : ∀ {α : Type}, Action σ α → Prop} {env : Environment σ}
    (hh : env.hooks.Within foreign) {request : Request} (hvalues : request.AsksValues) :
    ∃ x : Action σ Response, ValueProcedure foreign True x ∧
      ∀ w : World σ, request.CallsNobody w → request.run env w = x w := by
  cases request with
  | readAttribute | knows | bindAttribute | unbindAttribute => exact hvalues.elim
  | call f args =>
    cases he : env.evaluator with
    | none =>
      refine ⟨Action.abort .noEvaluator, .abort _ rfl, fun w _ => ?_⟩
      simp only [Request.run, he]
      rfl
    | some evaluator =>
      refine ⟨do return .outcome (← withRead f fun _ o => fail env.hooks (.notCallable o.kind)),
        .map (.withRead (fun _ _ _ _ _ => rfl) fun _ o => fail_values hh _) _, fun w hcall => ?_⟩
      simp only [Request.run, he, bind, EStateM.bind,
        call_of_callsNobody hcall env.hooks env.natives evaluator]
  | _ =>
    refine ⟨_, ?_, fun _ _ => rfl⟩
    exact Request.values hh trivial trivial fun _ => trivial

/-- Requests one after the other, and how each of them ends. One that aborts does not keep
    the next from being carried out. -/
def Request.runEach (env : Environment σ) (requests : List Request) :
    Action σ (List (Except Abort Response)) :=
  requests.mapM fun request => (request.run env).attempt

/-- Of requests about values, one after the other, each ends alike in both worlds. -/
theorem runs_ignore_attributes {env : Environment σ} (hhooks : env.hooks.Within Blind)
    {v w : World σ} (h : v.Resembles n w) {requests : List Request}
    (hvalues : ∀ request ∈ requests, request.AsksValues ∧ request.CallsNothing) :
    ∃ endings v' w', Request.runEach env requests v = .ok endings v' ∧
      Request.runEach env requests w = .ok endings w' ∧ v'.Resembles n w' := by
  induction requests generalizing v w with
  | nil => exact ⟨[], v, w, rfl, rfl, h⟩
  | cons request rest ih =>
    obtain ⟨⟨hasks, hnothing⟩, hrest⟩ := List.forall_mem_cons.1 hvalues
    have hblind : Blind (request.run env) :=
      (Request.values hhooks hasks hnothing fun _ => trivial).blind fun hforeign => hforeign
    obtain ⟨ending, v₁, w₁, hv₁, hw₁, h₁⟩ := hblind.attempt h
    obtain ⟨endings, v₂, w₂, hv₂, hw₂, h₂⟩ := ih h₁ hrest
    refine ⟨ending :: endings, v₂, w₂, ?_, ?_, h₂⟩
    · rw [Request.runEach, List.mapM_cons, Action.bind_of_ok hv₁]
      exact Action.bind_of_ok hv₂ _
    · rw [Request.runEach, List.mapM_cons, Action.bind_of_ok hw₁]
      exact Action.bind_of_ok hw₂ _

/-- What calls nobody in one of two worlds calls nobody in the other. -/
theorem Request.CallsNobody.of_resembles {request : Request} {v w : World σ}
    (hcall : request.CallsNobody w) (h : v.Resembles n w) : request.CallsNobody v := by
  cases request with
  | call f args =>
    intro i p hf hp
    obtain ⟨o, ho, hpayload⟩ := Option.map_eq_some_iff.1 <|
      (congrFun h.heap.contents_eq i).symm.trans (Heap.contents_of_get? hp)
    rw [Object.kind, ← hpayload]
    exact hcall i o hf ho
  | _ => trivial

/-! ## What is reclaimed -/

/-- What slots lead to from a root is never reclaimed. -/
theorem Heap.get?_collect_of_holds {h : Heap} {roots : List ObjId} {k i : ObjId} (hk : k ∈ roots)
    (hreach : ReflTransGen h.contents.Holds k i) : (h.collect roots).get? i = h.get? i := by
  have hwithin := h.within_collect roots
  by_cases hi : h.Live i
  · refine hwithin.get?_of_live (live_collect_iff.2 ⟨hi, k, .inl hk, ?_⟩)
    refine ReflTransGen.mono (fun a b hab => ?_) k i hreach
    obtain ⟨q, hq, hslot⟩ := hab
    obtain ⟨o, ho, rfl⟩ := Option.map_eq_some_iff.1 hq
    refine ⟨o, ho, ?_⟩
    simp only [Object.references, List.mem_append, List.mem_filterMap]
    exact .inl (.inl ⟨_, hslot, rfl⟩)
  · rw [get?_of_not_live hi, get?_of_not_live (mt hwithin.live hi)]

/-- **Values do not depend on attributes or type links.** Of two worlds let one have the
    objects of the other, holding the same and lent out alike, with any attributes and any
    type links, and let the hooks of the host be blind to these, if there are hooks. A
    request that is not about attributes and calls nothing that can be called ends the
    same way in both, with the same value, failure or abort, and leaves two worlds that
    differ again in nothing but attributes and type links, and those only of objects that
    were there before. Attributes and type links may keep an object alive for longer in
    one of them, but not one that slots lead to from a root: it is in both, whatever is
    reclaimed. -/
theorem values_ignore_attributes {env : Environment σ} (hhooks : env.hooks.Within Blind)
    {v w : World σ} (h : v.Resembles w.heap.size w) {request : Request}
    (hvalues : request.AsksValues) (hcall : request.CallsNobody w) :
    ∃ ending v' w', (request.run env).attempt v = .ok ending v' ∧
      (request.run env).attempt w = .ok ending w' ∧ v'.Resembles w.heap.size w' ∧
      ∀ roots, ∀ k ∈ roots, ∀ i, ReflTransGen w'.heap.contents.Holds k i →
        (v'.heap.collect roots).get? i = v'.heap.get? i ∧
          (w'.heap.collect roots).get? i = w'.heap.get? i := by
  obtain ⟨x, hx, hrun⟩ := Request.exists_values hhooks hvalues
  have hblind : Blind x := hx.blind fun hforeign => hforeign
  obtain ⟨ending, v', w', hv, hw, hresembles⟩ := hblind.attempt h
  refine ⟨ending, v', w', ?_, ?_, hresembles, fun roots k hk i hreach => ⟨?_, ?_⟩⟩
  · simpa only [Action.attempt, hrun v (hcall.of_resembles h)] using hv
  · simpa only [Action.attempt, hrun w hcall] using hw
  · refine Heap.get?_collect_of_holds hk ?_
    rwa [hresembles.heap.contents_eq]
  · exact Heap.get?_collect_of_holds hk hreach

/-- A list that holds itself and a number. -/
def dressedList : ObjId := ⟨Heap.initial.size⟩

/-- The number in that list. -/
def dressedNumber : ObjId := ⟨Heap.initial.size + 1⟩

/-- The state of a new engine with that list, which has some attributes, and the number,
    with some type links. -/
def dressed (attributes : Table ObjId) (listType numberType : Ref) : World Unit where
  heap :=
    let whole := .list [some dressedList, some dressedNumber]
    let (_, heap) := Heap.initial.allocate { payload := whole, type := listType, attributes }
    (heap.allocate { payload := .integer 5, type := numberType }).2
  host := ()

/-- The list without attributes, and the types as they come. -/
def plainDress : World Unit := dressed [] (some Kind.list.typeId) (some Kind.integer.typeId)

/-- The list with itself as an attribute and without a type, and the number with the type
    of strings. -/
def fancyDress : World Unit :=
  dressed [(.ofString "whole", dressedList)] none (some Kind.string.typeId)

theorem fancyDress_resembles : fancyDress.Resembles plainDress.heap.size plainDress := by
  have hold : ∀ {i : ObjId} {p o : Object}, i.index < plainDress.heap.size →
      p.payload = o.payload → p.loan = o.loan → p.Resembles plainDress.heap.size i o :=
    fun hi hp hl => ⟨hp, hl, fun hn => absurd hi (Nat.not_lt.2 hn)⟩
  have hinitial : Heap.initial.Paired (Object.Resembles plainDress.heap.size) Heap.initial :=
    .refl Object.Resembles.refl _
  refine ⟨.allocate (.allocate hinitial ?_) ?_, rfl, rfl, rfl⟩
  · exact hold (by decide) rfl rfl
  · exact hold (by decide) rfl rfl

/-- However it is dressed, the list has the same text, and adding the number to it fails
    in the same words. -/
theorem values_ignore_attributes_fancy :
    ((Request.text (some dressedList)).run {}).attempt.run' fancyDress =
        some (.ok (.text (.ofString "[[...], 5]"))) ∧
      ((Request.binary .add (some dressedList) (some dressedNumber)).run {}).attempt.run'
          fancyDress =
        some (.ok (.outcome (.failure (.unsupportedOperands .add .list .integer)))) := by
  have hboth : ∀ request : Request, request.AsksValues → request.CallsNobody plainDress →
      (request.run {}).attempt.run' fancyDress = (request.run {}).attempt.run' plainDress := by
    intro request hvalues hcall
    have hnone : ({} : Environment Unit).hooks.Within Blind := Hooks.within_none Blind
    obtain ⟨ending, v', w', hv, hw, -⟩ :=
      values_ignore_attributes hnone fancyDress_resembles hvalues hcall
    rw [Action.run'_of_ok hv, Action.run'_of_ok hw]
  constructor
  · rw [hboth (.text _) trivial trivial]
    decide
  · rw [hboth (.binary ..) trivial trivial]
    decide

end ValueEngine
