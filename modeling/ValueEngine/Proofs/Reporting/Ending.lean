/-
  Value engine — how an action tells of a failure.

  An operation either never speaks to the host, or it does all of its work, tells of one
  failure, and then only gives back what it was lent. So all that it does is known
  before it is known what the host makes of failures.

  * `Company`: what a host has in play beside its hook for failures.
  * `Untold`: what may lie between two worlds if no failure was told in between.
  * `Silent`: actions that never tell of a failure.
  * `Ending`: what an action comes to, with what is said to the host left open.
  * `Reports`: actions that have such an ending (`Reports.bind`, `Reports.lend`, …).
-/
import ValueEngine.Proofs.Loans.Accounting

namespace ValueEngine

variable {σ α β : Type}

/-- What a host has in play beside its hook for failures. -/
structure Company (σ : Type) where
  /-- The code that serves operators, if there is any. -/
  offer : Option (Operator → Ref → Ref → Outcome → Action σ (Bool × Outcome))
  /-- The guards that the host keeps. -/
  kept : σ → List Guard

/-- What may lie between two worlds if no failure was told in between: `lent` are the
    loans that began and go on. What the host does for operators is its own affair. -/
structure Untold (company : Company σ) (lent : List Guard) (w w' : World σ) : Prop where
  loans : ∀ gs, Exact (gs ++ company.kept w.host) w.heap →
    Exact (lent ++ (gs ++ company.kept w'.host)) w'.heap
  host : company.offer = none → w'.host = w.host
  settings : company.offer = none → w'.settings = w.settings
  lines : company.offer = none →
    ∃ lines, w'.trace = w.trace ++ lines ∧ ∀ line ∈ lines, line.level ≠ failureLevel

namespace Untold

variable {company : Company σ} {lent : List Guard} {u v w : World σ}

theorem refl (w : World σ) : Untold company [] w w where
  loans _ he := he
  host _ := rfl
  settings _ := rfl
  lines _ := ⟨[], by simp, nofun⟩

theorem trans (huv : Untold company [] u v) (hvw : Untold company lent v w) :
    Untold company lent u w where
  loans gs he := hvw.loans gs (huv.loans gs he)
  host h := (hvw.host h).trans (huv.host h)
  settings h := (hvw.settings h).trans (huv.settings h)
  lines h := by
    obtain ⟨ls, hls, hquiet⟩ := huv.lines h
    obtain ⟨ms, hms, hquiet'⟩ := hvw.lines h
    refine ⟨ls ++ ms, by rw [hms, hls, List.append_assoc], fun line hline => ?_⟩
    exact (List.mem_append.1 hline).elim (hquiet line) (hquiet' line)

/-- Changes of the heap that leave alone who has what are not told. -/
theorem heap {h : Heap} (hexact : ∀ gs, Exact gs w.heap → Exact gs h) :
    Untold company [] w { w with heap := h } where
  loans _ he := hexact _ he
  host _ := rfl
  settings _ := rfl
  lines _ := ⟨[], by simp, nofun⟩

theorem traced {level : Int} (hlevel : level ≠ failureLevel) (message : Bytes) (w : World σ) :
    Untold company [] w (w.traced level message) := by
  by_cases h : level ≤ w.settings.verbosity
  · rw [World.traced_of_le h]
    exact ⟨fun _ he => he, fun _ => rfl, fun _ => rfl, fun _ => ⟨[⟨level, message⟩], rfl, by
      simpa using hlevel⟩⟩
  · rw [World.traced_of_lt (Int.not_le.1 h)]
    exact refl w

variable {access : Access} {r : Ref} {i : ObjId} {o : Object}

/-- What is lent first is given back last. -/
theorem lend (ht : takeLoan access r u = .ok (i, o) v) (h : Untold company lent v w) :
    Untold company (lent ++ [{ held := some i, access }]) u w := by
  obtain ⟨p, loan, hp, hl, -, rfl⟩ := takeLoan_ok ht
  refine ⟨fun gs he => ?_, h.host, h.settings, h.lines⟩
  have hlent := h.loans ({ held := some i, access } :: gs) (he.acquire hp hl)
  simpa using hlent

theorem endLoan (ht : takeLoan access r u = .ok (i, o) v) (h : Untold company [] v w) :
    Untold company [] u (w.endLoan access i) where
  loans gs he := ((h.lend ht).loans gs he).release
  host := (h.lend ht).host
  settings := (h.lend ht).settings
  lines := (h.lend ht).lines

end Untold

/-! ## Actions that tell of nothing -/

/-- An action that never tells of a failure. -/
def Silent (company : Company σ) (x : Action σ α) : Prop := ∀ w, Untold company [] w (x.after w)

namespace Silent

variable {company : Company σ}

theorem pure (a : α) : Silent company (Pure.pure a : Action σ α) := .refl

theorem abort (e : Abort) : Silent company (Action.abort e : Action σ α) := .refl

theorem heap : Silent company (Action.heap : Action σ Heap) := .refl

theorem settings : Silent company (Action.settings : Action σ Settings) := .refl

theorem bind {x : Action σ α} {f : α → Action σ β} (hx : Silent company x)
    (hf : ∀ a, Silent company (f a)) : Silent company (x >>= f) := by
  intro w
  have h := hx w
  rcases Action.after_bind x f w with hafter | ⟨a, -, hafter⟩
  · rwa [hafter]
  · rw [hafter]
    exact h.trans (hf a _)

theorem ofExcept : ∀ value : Except Abort α, Silent company (Action.ofExcept value : Action σ α)
  | .ok a => pure a
  | .error e => abort e

theorem lend {access : Access} {r : Ref} {body : ObjId → Object → Action σ α}
    (hb : ∀ i o, Silent company (body i o)) : Silent company (lend access r body) := by
  intro w
  cases ht : takeLoan access r w with
  | error e w' =>
    rw [after_lend_of_refused ht, takeLoan_error ht]
    exact .refl w
  | ok p w' =>
    obtain ⟨i, o⟩ := p
    rw [after_lend ht]
    exact (hb i o w').endLoan ht

theorem peek (r : Ref) : Silent company (peek r : Action σ Object) := lend fun _ o => pure o

theorem trace {level : Int} (hlevel : level ≠ failureLevel) (message : Bytes) :
    Silent company (trace level message : Action σ Unit) := Untold.traced hlevel message

theorem fresh (payload : Payload) : Silent company (fresh payload : Action σ ObjId) := by
  unfold ValueEngine.fresh
  split
  · exact abort _
  · exact fun w => Untold.heap fun _ he => he.allocate rfl

theorem change {i : ObjId} {f : Object → Object} (hf : ∀ o, (f o).loan = o.loan) :
    Silent company (Action.updateObject i f) := fun _ => Untold.heap fun _ he => he.change hf

end Silent

/-! ## Endings -/

/-- What a value says of the operation that ends in it. -/
inductive Finish
  | well
  | failed (cause : Failure)
  /-- There is nothing left. -/
  | over
  deriving DecidableEq

/-- The world after some guards have ended, the first of them first. -/
def World.giveBack (w : World σ) (lent : List Guard) : World σ :=
  lent.foldl (fun w g => g.release.after w) w

/-- What an action comes to, with what is said to the host left open: it ends without a
    word, or it tells of a failure and then only gives back what it was lent. -/
inductive Ending (σ α : Type)
  | silent (result : EStateM.Result Abort (World σ) α)
  | told (cause : Failure) (before : World σ) (lent : List Guard) (value : α)

/-- The run with an ending, once the hooks are known. The hook for failures is entered
    by the one `report`, or not at all. -/
def Ending.resume (hooks : Hooks σ) : Ending σ α → EStateM.Result Abort (World σ) α
  | silent result => result
  | told cause before lent value =>
    match report hooks cause before with
    | .ok _ w => .ok value (w.giveBack lent)
    | .error e w => .error e (w.giveBack lent)

theorem Ending.silent_ne_told {result : EStateM.Result Abort (World σ) α} {cause : Failure}
    {before : World σ} {lent : List Guard} {value : α} :
    silent result ≠ told cause before lent value := nofun

/-- An ending is true to its value if what is told is the failure that the value is, and
    a value that comes without a word is well. `writing` are the guards for writing that
    are held when a failure is told. -/
inductive Ending.Fits (company : Company σ) (finish : α → Finish) (writing : List Guard)
    (w : World σ) : Ending σ α → Prop
  | value {a : α} {w' : World σ} : (company.offer = none → finish a = .well) →
      Untold company [] w w' → Ending.Fits company finish writing w (.silent (.ok a w'))
  | abort {e : Abort} {w' : World σ} : Untold company [] w w' →
      Ending.Fits company finish writing w (.silent (.error e w'))
  | told {cause : Failure} {before : World σ} {lent : List Guard} {value : α} :
      finish value = .failed cause → Untold company lent w before →
      lent.filter (·.access = .write) = writing →
      Ending.Fits company finish writing w (.told cause before lent value)

/-- An action, given for all hooks, that has an ending which fits it and is the same
    whatever the hook for failures. -/
def Reports (company : Company σ) (finish : α → Finish) (writing : List Guard)
    (x : Hooks σ → Action σ α) (w : World σ) : Prop :=
  ∃ ending : Ending σ α, ending.Fits company finish writing w ∧
    ∀ hooks, hooks.onUnsupported = company.offer → x hooks w = ending.resume hooks

namespace Reports

variable {company : Company σ} {finish : α → Finish} {finish' : β → Finish}
  {writing : List Guard} {w : World σ}

/-- Silent actions that end well tell of nothing. -/
theorem of_silent {x : Action σ α} (hx : Silent company x)
    (hvalue : ∀ a w', x w = .ok a w' → finish a = .well) :
    Reports company finish writing (fun _ => x) w := by
  have h := hx w
  refine ⟨.silent (x w), ?_, fun _ _ => rfl⟩
  cases hr : x w with
  | ok a w' => exact .value (fun _ => hvalue a w' hr) (Action.after_of_ok hr ▸ h)
  | error e w' => exact .abort (Action.after_of_error hr ▸ h)

theorem pure {a : α} (ha : finish a = .well) :
    Reports company finish writing (fun _ => Pure.pure a) w :=
  of_silent (.pure a) fun _ _ h => by cases h; exact ha

theorem abort (e : Abort) : Reports company finish writing (fun _ => Action.abort e) w :=
  of_silent (.abort e) nofun

theorem ite {p : Prop} [Decidable p] {x y : Hooks σ → Action σ α}
    (hx : p → Reports company finish writing x w) (hy : ¬p → Reports company finish writing y w) :
    Reports company finish writing (fun hooks => if p then x hooks else y hooks) w := by
  by_cases hp : p
  · simpa only [if_pos hp] using hx hp
  · simpa only [if_neg hp] using hy hp

/-- To report and to end in what is reported. -/
theorem report {cause : Failure} {value : α} (hvalue : finish value = .failed cause) :
    Reports company finish [] (fun hooks => do report hooks cause; return value) w := by
  refine ⟨.told cause w [] value, .told hvalue (.refl w) rfl, fun hooks _ => ?_⟩
  cases hr : ValueEngine.report hooks cause w with
  | ok u w' => simp only [Ending.resume, hr, Action.bind_of_ok hr, World.giveBack]; rfl
  | error e w' => simp only [Ending.resume, hr, Action.bind_of_error hr, World.giveBack]; rfl

/-- What is done silently before an action does not matter. -/
theorem after_untold {x y : Hooks σ → Action σ α} {v : World σ} (hwv : Untold company [] w v)
    (hx : Reports company finish writing x v)
    (h : ∀ hooks, hooks.onUnsupported = company.offer → y hooks w = x hooks v) :
    Reports company finish writing y w := by
  obtain ⟨ending, hfits, hrun⟩ := hx
  refine ⟨ending, ?_, fun hooks hh => (h hooks hh).trans (hrun hooks hh)⟩
  cases hfits with
  | value ha hw => exact .value ha (hwv.trans hw)
  | abort hw => exact .abort (hwv.trans hw)
  | told hvalue hw hlent => exact .told hvalue (hwv.trans hw) hlent

theorem bind_silent {x : Action σ α} {f : Hooks σ → α → Action σ β} (hx : Silent company x)
    (hf : ∀ a w', Reports company finish' writing (fun hooks => f hooks a) w') :
    Reports company finish' writing (fun hooks => x >>= f hooks) w := by
  have h := hx w
  cases hr : x w with
  | ok a w' =>
    rw [Action.after_of_ok hr] at h
    exact after_untold h (hf a w') fun hooks _ => Action.bind_of_ok hr _
  | error e w' =>
    rw [Action.after_of_error hr] at h
    exact ⟨.silent (.error e w'), .abort h, fun hooks _ => Action.bind_of_error hr _⟩

/-- **Composition**: what does not end well is only handed on. -/
theorem bind {x : Hooks σ → Action σ α} {f : Hooks σ → α → Action σ β}
    (hx : Reports company finish writing x w)
    (hon : ∀ a, finish a ≠ .well →
      ∃ b, finish' b = finish a ∧ ∀ hooks, f hooks a = Pure.pure b)
    (hf : ∀ a w', finish a = .well → Reports company finish' writing (fun hooks => f hooks a) w') :
    Reports company finish' writing (fun hooks => x hooks >>= f hooks) w := by
  obtain ⟨ending, hfits, hrun⟩ := hx
  cases hfits with
  | @value a w' ha hw =>
    refine after_untold (x := fun hooks => f hooks a) hw ?_ fun hooks hh =>
      Action.bind_of_ok (hrun hooks hh) _
    by_cases hwell : finish a = .well
    · exact hf a w' hwell
    · -- a failure that was not told is one that the host handed in
      obtain ⟨b, -, hb⟩ := hon a hwell
      have hoffer : company.offer ≠ none := fun h => hwell (ha h)
      exact ⟨.silent (.ok b w'), .value (fun h => absurd h hoffer) (.refl w'), fun hooks _ =>
        congrFun (hb hooks) w'⟩
  | @abort e w' hw =>
    exact ⟨.silent (.error e w'), .abort hw, fun hooks hh => Action.bind_of_error (hrun hooks hh) _⟩
  | @told cause before lent value hvalue hw hlent =>
    obtain ⟨b, hb, hpure⟩ := hon value (by rw [hvalue]; nofun)
    refine ⟨.told cause before lent b, .told (hb.trans hvalue) hw hlent, fun hooks hh => ?_⟩
    have hx := hrun hooks hh
    simp only [Ending.resume] at hx ⊢
    cases hr : ValueEngine.report hooks cause before with
    | ok u w' =>
      rw [hr] at hx
      rw [Action.bind_of_ok hx, hpure]
      rfl
    | error e w' =>
      rw [hr] at hx
      rw [Action.bind_of_error hx]

/-- Another way to put the value. -/
theorem map {x : Hooks σ → Action σ α} (hx : Reports company finish writing x w) {g : α → β}
    (hg : ∀ a, finish' (g a) = finish a) :
    Reports company finish' writing (fun hooks => do return g (← x hooks)) w :=
  hx.bind (fun a _ => ⟨g a, hg a, fun _ => rfl⟩) fun a _ ha =>
    pure ((hg a).trans ha)

/-- **Lending**: what is lent meanwhile is still lent when a failure is told. -/
theorem lend {access : Access} {r : Ref} {body : Hooks σ → ObjId → Object → Action σ α}
    (hb : ∀ i o w', Reports company finish writing (fun hooks => body hooks i o) w') :
    Reports company finish (writing ++ [{ held := r, access }].filter (·.access = .write))
      (fun hooks => lend access r (body hooks)) w := by
  cases ht : takeLoan access r w with
  | error e w' =>
    rw [takeLoan_error ht] at ht
    exact ⟨.silent (.error e w), .abort (.refl w), fun hooks _ => by
      simp only [ValueEngine.lend, ht]; rfl⟩
  | ok p w' =>
    obtain ⟨i, o⟩ := p
    obtain rfl := ref_of_takeLoan ht
    obtain ⟨ending, hfits, hrun⟩ := hb i o w'
    cases hfits with
    | @value a w'' ha hw =>
      exact ⟨.silent (.ok a (w''.endLoan access i)), .value ha (hw.endLoan ht), fun hooks hh => by
        simp only [ValueEngine.lend, ht, hrun hooks hh]; rfl⟩
    | @abort e w'' hw =>
      exact ⟨.silent (.error e (w''.endLoan access i)), .abort (hw.endLoan ht), fun hooks hh => by
        simp only [ValueEngine.lend, ht, hrun hooks hh]; rfl⟩
    | @told cause before lent value hvalue hw hlent =>
      refine ⟨.told cause before (lent ++ [{ held := some i, access }]) value,
        .told hvalue (hw.lend ht) (by rw [List.filter_append, hlent]), fun hooks hh => ?_⟩
      simp only [ValueEngine.lend, ht, hrun hooks hh, Ending.resume, World.giveBack,
        List.foldl_append]
      cases ValueEngine.report hooks cause before <;> rfl

theorem withRead {r : Ref} {body : Hooks σ → ObjId → Object → Action σ α}
    (hb : ∀ i o w', Reports company finish writing (fun hooks => body hooks i o) w') :
    Reports company finish writing (fun hooks => withRead r (body hooks)) w := by
  have h : Reports company finish (writing ++ [Guard.mk r .read].filter (·.access = .write))
      (fun hooks => ValueEngine.lend .read r (body hooks)) w := lend hb
  rwa [show [Guard.mk r .read].filter (·.access = .write) = [] from rfl, List.append_nil] at h

theorem withWrite {r : Ref} {body : Hooks σ → ObjId → Object → Action σ α}
    (hb : ∀ i o w', Reports company finish [] (fun hooks => body hooks i o) w') :
    Reports company finish [{ held := r, access := .write }]
      (fun hooks => withWrite r (body hooks)) w := by
  have h : Reports company finish ([] ++ [Guard.mk r .write].filter (·.access = .write))
      (fun hooks => ValueEngine.lend .write r (body hooks)) w := lend hb
  exact h

end Reports

end ValueEngine
