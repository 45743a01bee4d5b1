/-
  Value engine — the levels of the trace.

  Two runs of the same work are compared. They begin in the same world but for the
  verbosity, and whatever the engine enters, the code of the host takes no notice of it.
  Everything comes to the same in both, and of the messages that the more verbose run
  wrote the other wrote those within its own verbosity.

  * `Callback`, `Diary`: the entries into the code of a host, each noted with the heap that
    it found; `Environment.recorded` notes them.
  * `Errand`: what a host may do in a sequence: an operation, a message, or code of its own.
  * `World.Terser`: two worlds that differ only in the verbosity and in what it left out.
  * `Indifferent`: actions that come to the same in such worlds; `Discreet.indifferent`.
  * `verbosities_nest`: any sequence, at any two verbosities.
-/
import ValueEngine.Proofs.Tracing.Discreet

namespace ValueEngine

variable {σ τ α β : Type}

/-! ## Entries into the code of a host -/

/-- An entry into the code of a host, with what is handed over. -/
inductive Callback
  | failure (cause : Failure)
  | offer (op : Operator) (left right : Ref) (handed : Outcome)
  | native (code : NativeId) (args : List Ref)
  | evaluate (f : Ref) (args : List Ref)

/-- The state of a host with a record of the entries into its code. -/
structure Diary (τ : Type) where
  /-- The entries in order, each with the heap at the time, loans included. -/
  calls : List (Callback × Heap) := []
  /-- All else that the host remembers. -/
  own : τ

/-- Notes an entry. -/
def Diary.note (call : Callback) : Action (Diary τ) Unit :=
  modify fun w => { w with host.calls := w.host.calls ++ [(call, w.heap)] }

/-- The same code of a host, with each entry noted first. Native code is handed an evaluator
    that is entered like any other. -/
def Environment.recorded (env : Environment (Diary τ)) : Environment (Diary τ) where
  hooks := {
    onFailure := env.hooks.onFailure.map fun hook cause => do
      Diary.note (.failure cause)
      hook cause
    onUnsupported := env.hooks.onUnsupported.map fun hook op left right handed => do
      Diary.note (.offer op left right handed)
      hook op left right handed }
  natives := fun code evaluator args => do
    Diary.note (.native code args)
    env.natives code evaluator args
  evaluator := env.evaluator.map fun evaluator => ⟨fun f args => do
    Diary.note (.evaluate f args)
    evaluator.run f args⟩

theorem Discreet.note (call : Callback) : Discreet (Diary.note call : Action (Diary τ) Unit) :=
  .act fun s : Scene (Diary τ) =>
    (.ok (), { s with host.calls := s.host.calls ++ [(call, s.heap)] })

/-- To note the entries into discreet code is discreet. -/
theorem Environment.Discreet.recorded {env : Environment (Diary τ)} (h : env.Discreet) :
    env.recorded.Discreet where
  hooks := by
    refine ⟨fun hook hhook cause => ?_, fun hook hhook op left right handed => ?_⟩
    · obtain ⟨inner, hinner, rfl⟩ := Option.map_eq_some_iff.1 hhook
      exact .bind (.note _) fun _ => h.hooks.onFailure inner hinner cause
    · obtain ⟨inner, hinner, rfl⟩ := Option.map_eq_some_iff.1 hhook
      exact .bind (.note _) fun _ => h.hooks.onUnsupported inner hinner op left right handed
  natives evaluator he code args := .bind (.note _) fun _ => h.natives evaluator he code args
  evaluator evaluator he f args := by
    obtain ⟨inner, hinner, rfl⟩ := Option.map_eq_some_iff.1 he
    exact .bind (.note _) fun _ => h.evaluator inner hinner f args

/-! ## Sequences -/

/-- What a host may do: ask for an operation, write a message, or run code of its own, which
    makes objects, takes and releases guards, or changes an object in place. -/
inductive Errand (τ : Type)
  | request (env : Environment (Diary τ)) (asked : Request)
  | message (level : Int) (text : Bytes)
  | code (x : Action (Diary τ) Response)

namespace Errand

/-- Carries an errand out. The entries into the code of the host are noted. -/
def run : Errand τ → Action (Diary τ) Response
  | .request env asked => asked.run env.recorded
  | .message level text => do
    trace level text
    return .done
  | .code x => x

/-- An errand on which no code of the host takes notice of the verbosity. -/
def Discreet : Errand τ → Prop
  | .request env _ => env.Discreet
  | .message .. => True
  | .code x => ValueEngine.Discreet x

/-- Carries errands out one after the other. One that is left by an abort does not stop the
    rest. -/
def runAll (errands : List (Errand τ)) : Action (Diary τ) (List (Except Abort Response)) :=
  errands.mapM fun errand => errand.run.attempt

theorem run_discreet : ∀ {errand : Errand τ}, errand.Discreet → ValueEngine.Discreet errand.run
  | .request _ asked, h => Request.discreet h.recorded asked
  | .message level text, _ => .bind (.trace level text) fun _ => .pure _
  | .code _, h => h

theorem runAll_discreet {errands : List (Errand τ)} (h : ∀ errand ∈ errands, errand.Discreet) :
    ValueEngine.Discreet (runAll errands) := by
  induction errands with
  | nil => exact .pure []
  | cons errand errands ih =>
    rw [runAll, List.mapM_cons]
    obtain ⟨hfirst, hrest⟩ := List.forall_mem_cons.1 h
    exact .bind (.attempt (run_discreet hfirst)) fun result =>
      .bind (ih hrest) fun results => .pure (result :: results)

/-- A sequence always comes to its end. -/
theorem runAll_ends (errands : List (Errand τ)) (w : World (Diary τ)) :
    ∃ results w', runAll errands w = .ok results w' ∧ results.length = errands.length := by
  induction errands generalizing w with
  | nil => exact ⟨[], w, rfl, rfl⟩
  | cons errand errands ih =>
    obtain ⟨result, v, hfirst⟩ : ∃ result v, errand.run.attempt w = .ok result v := by
      cases hrun : errand.run w with
      | ok response v => exact ⟨_, v, Action.attempt_of_ok hrun⟩
      | error e v => exact ⟨_, v, Action.attempt_of_error hrun⟩
    obtain ⟨results, w', hrest, hlength⟩ := ih v
    refine ⟨result :: results, w', ?_, by simp [hlength]⟩
    rw [runAll, List.mapM_cons, Action.bind_of_ok hfirst]
    exact Action.bind_of_ok hrest _

end Errand

/-! ## Two runs -/

/-- The world at another verbosity. -/
def World.atVerbosity (verbosity : Int) (w : World σ) : World σ :=
  { w with settings.verbosity := verbosity }

/-- Of two worlds with a common beginning of the trace, the one has left out of the rest
    what is above a verbosity below the other's. All else is the same. -/
structure World.Terser (told : List TraceLine) (low high : Int) (v w : World σ) : Prop where
  scene : v.scene = w.scene
  verbosity : v.settings.verbosity = low
  verbosity' : w.settings.verbosity = high
  lines : ∃ lines, w.trace = told ++ lines ∧
    v.trace = told ++ lines.filter fun line => line.level ≤ low

namespace World.Terser

variable {told : List TraceLine} {low high : Int} {v w : World σ}

theorem withScene (h : v.Terser told low high w) (s : Scene σ) :
    (v.withScene s).Terser told low high (w.withScene s) :=
  ⟨rfl, h.verbosity, h.verbosity', h.lines⟩

/-- A message is kept by both, by the more verbose one only, or by neither. -/
theorem traced (hle : low ≤ high) (h : v.Terser told low high w) (level : Int) (message : Bytes) :
    (v.traced level message).Terser told low high (w.traced level message) := by
  obtain ⟨lines, hw, hv⟩ := h.lines
  by_cases hhigh : level ≤ high
  · have hloud := traced_of_le (h.verbosity' ▸ hhigh) message
    by_cases hlow : level ≤ low
    · rw [traced_of_le (h.verbosity ▸ hlow) message, hloud]
      refine ⟨h.scene, h.verbosity, h.verbosity', lines ++ [⟨level, message⟩], ?_, ?_⟩
      · simp only [hw, List.append_assoc]
      · simp [hv, hlow]
    · rw [traced_of_lt (by rw [h.verbosity]; omega) message, hloud]
      refine ⟨h.scene, h.verbosity, h.verbosity', lines ++ [⟨level, message⟩], ?_, ?_⟩
      · simp only [hw, List.append_assoc]
      · simp [hv, hlow]
  · have hquiet : v.settings.verbosity < level := by rw [h.verbosity]; omega
    have hloud : w.settings.verbosity < level := by rw [h.verbosity']; omega
    rw [traced_of_lt hquiet message, traced_of_lt hloud message]
    exact h

end World.Terser

/-- An action that comes to the same, result or abort, in worlds of which one is terser, and
    leaves such worlds behind. -/
def Indifferent (told : List TraceLine) (low high : Int) (x : Action σ α) : Prop :=
  ∀ v w : World σ, v.Terser told low high w →
    match x w with
    | .ok a w' => ∃ v', x v = .ok a v' ∧ v'.Terser told low high w'
    | .error e w' => ∃ v', x v = .error e v' ∧ v'.Terser told low high w'

namespace Indifferent

variable {told : List TraceLine} {low high : Int}

theorem act (f : Scene σ → Except Abort α × Scene σ) :
    Indifferent told low high (Action.act f) := by
  intro v w h
  simp only [Action.act, h.scene]
  cases (f w.scene).1 with
  | ok a => exact ⟨_, rfl, h.withScene _⟩
  | error e => exact ⟨_, rfl, h.withScene _⟩

theorem trace (hle : low ≤ high) (level : Int) (message : Bytes) :
    Indifferent told low high (trace level message : Action σ Unit) :=
  fun _ _ h => ⟨_, rfl, h.traced hle level message⟩

theorem bind {x : Action σ α} {f : α → Action σ β} (hx : Indifferent told low high x)
    (hf : ∀ a, Indifferent told low high (f a)) : Indifferent told low high (x >>= f) := by
  intro v w h
  have hstep := hx v w h
  cases hw : x w with
  | ok a w' =>
    rw [hw] at hstep
    obtain ⟨v', hv, h'⟩ := hstep
    rw [Action.bind_of_ok hw, Action.bind_of_ok hv]
    exact hf a v' w' h'
  | error e w' =>
    rw [hw] at hstep
    obtain ⟨v', hv, h'⟩ := hstep
    rw [Action.bind_of_error hw]
    exact ⟨v', Action.bind_of_error hv f, h'⟩

theorem attempt {x : Action σ α} (hx : Indifferent told low high x) :
    Indifferent told low high x.attempt := by
  intro v w h
  have hstep := hx v w h
  cases hw : x w with
  | ok a w' =>
    rw [hw] at hstep
    obtain ⟨v', hv, h'⟩ := hstep
    rw [Action.attempt_of_ok hw]
    exact ⟨v', Action.attempt_of_ok hv, h'⟩
  | error e w' =>
    rw [hw] at hstep
    obtain ⟨v', hv, h'⟩ := hstep
    rw [Action.attempt_of_error hw]
    exact ⟨v', Action.attempt_of_error hv, h'⟩

end Indifferent

/-- **Discreet code is indifferent** to the verbosity, wherever it stands. -/
theorem Discreet.indifferent {told : List TraceLine} {low high : Int} (hle : low ≤ high)
    {x : Action σ α} (h : Discreet x) : Indifferent told low high x := by
  induction h with
  | act f => exact .act f
  | trace level message => exact .trace hle level message
  | bind _ _ ihx ihf => exact ihx.bind ihf
  | attempt _ ih => exact ih.attempt

/-! ## The main result -/

/-- **Tracing is transparent, and its levels nest.** Let any errands be run twice from one
    world, at two verbosities of which no code of the host takes notice. Each errand gives
    the same response or is left by the same abort, and both runs come to the same heap,
    loans included, and to the same host, by which the same code was entered, with the same
    arguments and on the same heap. What the less verbose run wrote are the messages of the
    other that are within its verbosity, in the same order. -/
theorem verbosities_nest {low high : Int} (hle : low ≤ high) {errands : List (Errand τ)}
    (h : ∀ errand ∈ errands, errand.Discreet) (w : World (Diary τ)) :
    ∃ results quiet loud lines,
      Errand.runAll errands (w.atVerbosity low) = .ok results quiet ∧
      Errand.runAll errands (w.atVerbosity high) = .ok results loud ∧
      results.length = errands.length ∧
      quiet.heap = loud.heap ∧
      quiet.host.calls = loud.host.calls ∧
      quiet.host.own = loud.host.own ∧
      quiet.settings.textLimit = loud.settings.textLimit ∧
      loud.trace = w.trace ++ lines ∧
      quiet.trace = w.trace ++ lines.filter fun line => line.level ≤ low := by
  obtain ⟨results, loud, hloud, hlength⟩ := Errand.runAll_ends errands (w.atVerbosity high)
  have hstart : (w.atVerbosity low).Terser w.trace low high (w.atVerbosity high) :=
    ⟨rfl, rfl, rfl, [], by simp [World.atVerbosity], by simp [World.atVerbosity]⟩
  have hend := (Errand.runAll_discreet h).indifferent hle _ _ hstart
  rw [hloud] at hend
  obtain ⟨quiet, hquiet, hterser⟩ := hend
  obtain ⟨lines, hlines, hkept⟩ := hterser.lines
  have hhost := congrArg Scene.host hterser.scene
  exact ⟨results, quiet, loud, lines, hquiet, hloud, hlength, congrArg Scene.heap hterser.scene,
    congrArg Diary.calls hhost, congrArg Diary.own hhost, congrArg Scene.textLimit hterser.scene,
    hlines, hkept⟩

/-- A host that counts failures. -/
def countingFailures : Environment (Diary Nat) where
  hooks := { onFailure := some fun _ => modify fun w => { w with host.own := w.host.own + 1 } }

theorem countingFailures_discreet : countingFailures.Discreet where
  hooks := by
    refine ⟨fun hook hhook cause => ?_, nofun⟩
    cases hhook
    exact .act fun s : Scene (Diary Nat) => (.ok (), { s with host.own := s.host.own + 1 })
  natives _ _ _ _ := .abort _
  evaluator := nofun

/-- Two messages, and a difference that fails: the less verbose run misses the second
    message and nothing else. -/
theorem verbosities_nest_failure :
    let errands : List (Errand Nat) := [.message 0 [], .message 2 [],
      .request countingFailures (.binary .subtract (some noneId) (some noneId))]
    let w : World (Diary Nat) := .initial { own := 0 }
    ∃ results quiet loud,
      Errand.runAll errands (w.atVerbosity 1) = .ok results quiet ∧
      Errand.runAll errands (w.atVerbosity 2) = .ok results loud ∧
      loud.trace.map TraceLine.level = [0, 2, 1] ∧ quiet.trace.map TraceLine.level = [0, 1] ∧
      quiet.host.own = 1 ∧ loud.host.calls.length = 1 := by
  intro errands w
  have hdiscreet : ∀ errand ∈ errands, errand.Discreet := by
    simp only [errands, List.forall_mem_cons]
    exact ⟨trivial, trivial, countingFailures_discreet, nofun⟩
  obtain ⟨results, quiet, loud, lines, hquiet, hloud, -, -, -, hown, -, htrace, hkept⟩ :=
    verbosities_nest (by decide : (1 : Int) ≤ 2) hdiscreet w
  -- the more verbose run is carried out, and the other read off it
  have hrun := Action.after_of_ok hloud
  have hlevels : loud.trace.map TraceLine.level = [0, 2, 1] := by rw [← hrun]; decide
  have hquietLevels : quiet.trace.map TraceLine.level = [0, 1] := by
    rw [htrace] at hlevels
    rw [hkept]
    simp only [w, World.initial, List.nil_append] at hlevels ⊢
    have hfilter : (lines.filter fun line => line.level ≤ 1).map TraceLine.level =
        (lines.map TraceLine.level).filter fun level => level ≤ 1 := by
      rw [List.filter_map]
      rfl
    rw [hfilter, hlevels]
    decide
  exact ⟨results, quiet, loud, hquiet, hloud, hlevels, hquietLevels,
    hown.trans (by rw [← hrun]; decide), by rw [← hrun]; decide⟩

end ValueEngine
