/-
  Value engine — scripts: sessions.

  A session runs the steps of a script one after the other. A step that aborts does not
  end it. After each step the objects that nothing refers to are reclaimed.

  * `Session`: the engine, the registers, the guards and the chosen hooks.
  * `perform`: what a step does to the engine, its reply, and what it changes in the
    session.
  * `runStep`, `runScript`: steps with their answers.
-/
import ValueEngine.Guard
import ValueEngine.Heap.Liveness
import ValueEngine.Script.Answer
import ValueEngine.Script.Native
import ValueEngine.Script.Step

namespace ValueEngine.Script

/-- The state of a script between two steps. -/
structure Session where
  world : World Memory
  scope : Scope := {}
  guards : Table Guard := []
  onFailure : FailureMode := .none
  onUnsupported : OfferMode := .none

namespace Session

/-- A session that just started. -/
def initial : Session where
  world := .initial {}

/-- The hooks for the chosen modes. -/
def hooks (s : Session) : Hooks Memory := Script.hooks s.scope s.onFailure s.onUnsupported

/-- The objects that a session refers to, one entry for each reference: the engine's
    own, those in registers and those held by guards. -/
def roots (s : Session) : List ObjId :=
  canonicalIds ++ s.scope.registers.values.filterMap id ++ s.guards.values.filterMap Guard.held

/-- Binds a register. -/
def bind (register : Bytes) (r : Ref) (s : Session) : Session :=
  { s with scope.registers := s.scope.registers.insert register r }

/-- Unbinds registers. -/
def unbind (registers : List Bytes) (s : Session) : Session :=
  { s with scope.registers := registers.foldl (fun t name => t.erase name) s.scope.registers }

/-- Names a program. -/
def bindProgram (name : Bytes) (program : Program) (s : Session) : Session :=
  { s with scope.programs := s.scope.programs.insert name program }

/-- Keeps a guard under a name. A guard that had the name is forgotten, so its loan has
    to end before. -/
def keepGuard (name : Bytes) (g : Guard) (s : Session) : Session :=
  { s with guards := s.guards.insert name g }

/-- Forgets a guard. -/
def dropGuard (name : Bytes) (s : Session) : Session :=
  { s with guards := s.guards.erase name }

/-- The guard of a name; an unknown name has an empty one. -/
def guard (s : Session) (name : Bytes) : Guard := (s.guards.find? name).getD .empty

/-- Moves a guard to another name and leaves an empty one behind. -/
def moveGuard (name target : Bytes) (s : Session) : Session :=
  (s.keepGuard name (s.guard name).moved).keepGuard target (s.guard name)

/-- Chooses the hooks that a change names. -/
def choose (changes : Changes) (s : Session) : Session :=
  { s with
    onFailure := changes.onFailure.getD s.onFailure
    onUnsupported := changes.onUnsupported.getD s.onUnsupported }

/-- Binds a register to the value of an operation, if there are both. -/
def keepValue (register : Option Bytes) (value : Ref) (s : Session) : Session :=
  match register, value with
  | some register, some value => s.bind register (some value)
  | _, _ => s

end Session

/-! ## Parts of steps -/

/-- An operation on operands, which are evaluated in the order in which they are
    written. -/
def Operation.run (hooks : Hooks Memory) (scope : Scope) : Operation → Act Outcome
  | binary verb a b => do
    let a ← a.eval scope
    let b ← b.eval scope
    verb.run hooks a b
  | unary verb a => do verb.run hooks (← a.eval scope)
  | store a key value => do
    let a ← a.eval scope
    let key ← key.eval scope
    let value ← value.eval scope
    Ref.store hooks a key value
  | readAttribute a name => do Ref.readAttribute hooks (← a.eval scope) name
  | unbindAttribute a name => do Ref.unbindAttribute hooks (← a.eval scope) name
  | operator a b code => do
    let a ← a.eval scope
    let b ← b.eval scope
    Operator.applyCode hooks code a b
  | evaluate f args => do
    let f ← f.eval scope
    let args ← evalAll scope args
    (evaluator hooks args).run f args
  | fail payload code message => do
    let payload ← payload.eval scope
    ValueEngine.fail hooks (.raised code message payload)

/-- What a script is shown of an outcome, and the value in it. -/
def showOutcome (scope : Scope) : Outcome → Act (OutcomeReply × Ref)
  | .success value => return (.success (← describe scope (some value)), some value)
  | .failure cause => return (.failure (← describeFailure scope cause), none)
  | .exhausted => return (.exhausted, none)

/-- What an object that is lent shows of itself. -/
def inspect (scope : Scope) (o : Object) : Act Inspection := do
  let type ← describe scope o.type
  let attributes ← o.attributes.mapM fun e => return (e.1, ← describe scope (some e.2))
  return { kind := o.kind, type, attributes }

/-- The content of an object that is lent. -/
def Question.ask (scope : Scope) (question : Question) (o : Object) : Act Content := do
  match question with
  | text => return .text (← Action.ofExcept o.toText)
  | integer => return .integer (← Action.ofExcept o.toInteger).toInt
  | boolean => return .boolean (← Action.ofExcept o.toBoolean)
  | list => return .references (← (← Action.ofExcept o.toList).mapM (describe scope))
  | tuple => return .references (← (← Action.ofExcept o.toTuple).mapM (describe scope))
  | dict =>
    let entries ← Action.ofExcept o.toDict
    return .entries (← entries.mapM fun e => return (e.1, ← describe scope e.2))
  | name => return .text (← Action.ofExcept o.toName)
  | native =>
    let target ← Action.ofExcept o.toNative
    return .text ((target.map NativeId.name).getD [])
  | program =>
    let program ← Action.ofExcept o.toProgram
    return .program (program.map Program.bytes)
  | position => return .integer (← Action.ofExcept o.toCursor).position
  | target => return .reference (← describe scope (← Action.ofExcept o.toCursor).target)

/-- What is done through a guard. -/
def GuardAction.run (scope : Scope) (g : Guard) : GuardAction → Act Reply
  | text => do
    let (i, o) ← g.object
    return .text (← textOf i o)
  | inspect => do return .inspection (← Script.inspect scope (← g.object).2)
  | ask question => do return .content (← question.ask scope (← g.object).2)
  | ownAttribute name => do return .ownAttribute (← describe scope (← g.ownAttribute name))
  | push value => do
    g.push (← value.eval scope)
    return .nothing
  | truncate length => do
    g.truncate length
    return .nothing
  | insertEntry value key => do
    g.insertEntry key (← value.eval scope)
    return .nothing
  | eraseEntry key => do return .number (if ← g.eraseEntry key then 1 else 0)
  | bindAttribute value name => do
    g.bindAttribute name (← value.eval scope)
    return .nothing
  | unbindAttribute name => do return .boolean (← g.unbindAttribute name)

/-- The outcome of a form. -/
def OutcomeForm.eval (scope : Scope) : OutcomeForm → Act Outcome
  | success value => do Action.succeed (← value.eval scope)
  | failure code message => return .failure (.raised code message none)
  | blankFailure => return .failure .blank
  | exhausted => return .exhausted

/-- What an outcome shows of itself. -/
def viewOutcome (scope : Scope) (outcome : Outcome) : Act OutcomeView := do
  let value ← Action.attempt do describe scope (some (← Action.ofExcept outcome.value))
  let cause ← Action.attempt do describeFailure scope (← Action.ofExcept outcome.cause)
  return { outcome, value, cause }

/-- A function on integers. -/
def IntegerFunction.run (x y : Int32) : IntegerFunction → Except Abort Reply
  | add => .ok (.checked (Checked.add x y))
  | subtract => .ok (.checked (Checked.subtract x y))
  | multiply => .ok (.checked (Checked.multiply x y))
  | divide => (Checked.divide x y).map .checked
  | order => .ok (.number (Checked.sign (Checked.order x y)).toInt)
  | numeral => .ok (.text (Numeral.ofInt x.toInt))

/-- The answer of an equality test. -/
def showVerdict (scope : Scope) : Verdict → Act (Except FailureReport Bool)
  | .equal => return .ok true
  | .unequal => return .ok false
  | .failed cause => return .error (← describeFailure scope cause)

/-- The answer of an order test. -/
def showOrder (scope : Scope) : Except Failure Ordering → Act (Except FailureReport Ordering)
  | .ok order => return .ok order
  | .error cause => return .error (← describeFailure scope cause)

/-! ## Steps -/

/-- What a step does to the engine, its reply and what it changes in the session. A
    repetition does nothing of its own. -/
def perform (s : Session) : Step → Act (Reply × (Session → Session))
  | .operate operation register => do
    let outcome ← operation.run s.hooks s.scope
    let (shown, value) ← showOutcome s.scope outcome
    return (.outcome shown none, Session.keepValue register value)
  | .call f args withEvaluator register => do
    let f ← f.eval s.scope
    let args ← evalAll s.scope args
    let evaluator := if withEvaluator then some (evaluator s.hooks args) else none
    let outcome ← Ref.call s.hooks (natives s.hooks) evaluator f args
    let (shown, value) ← showOutcome s.scope outcome
    return (.outcome shown (some (← get).host.interpreted), Session.keepValue register value)
  | .bind value register => do
    let value ← value.eval s.scope
    return (.outcome (.success (← describe s.scope value)) none, Session.bind register value)
  | .unbind registers => return (.nothing, Session.unbind registers)
  | .program name bytes => do return (.nothing, Session.bindProgram name (← newProgram bytes))
  | .text a => do return (.text (← Ref.text (← a.eval s.scope)), id)
  | .describe a => do return (.reference (← describe s.scope (← a.eval s.scope)), id)
  | .truth a => do return (.boolean (← Ref.truth (← a.eval s.scope)), id)
  | .nullness a => do return (.nullness (← a.eval s.scope).isNone, id)
  | .same a b => do
    let a ← a.eval s.scope
    let b ← b.eval s.scope
    return (.boolean (a.isSome && a == b), id)
  | .referenceCount name => do
    let heap ← Action.heap
    return (.number ((s.scope.resolve name).elim 0 (heap.referenceCount s.roots ·)), id)
  | .inspect a => do
    let r ← a.eval s.scope
    return (.inspection (← withRead r fun _ o => inspect s.scope o), id)
  | .ask a question => do
    let r ← a.eval s.scope
    return (.content (← withRead r fun _ o => question.ask s.scope o), id)
  | .sameProgram a b => do
    let a ← a.eval s.scope
    let b ← b.eval s.scope
    let same ← withRead a fun _ x => withRead b fun _ y => do
      let p ← Action.ofExcept x.toProgram
      let q ← Action.ofExcept y.toProgram
      return p == q
    return (.boolean same, id)
  | .knows a name => do return (.boolean (← Ref.knows (← a.eval s.scope) name), id)
  | .bindAttribute a value name => do
    let a ← a.eval s.scope
    let value ← value.eval s.scope
    Ref.bindAttribute a name value
    return (.nothing, id)
  | .configure changes => do
    modify fun w => { w with settings := {
      textLimit := changes.textLimit.getD w.settings.textLimit
      verbosity := changes.verbosity.getD w.settings.verbosity } }
    let settings ← Action.settings
    let chosen := s.choose changes
    return (.settings settings (chosen.onFailure != .none) (chosen.onUnsupported != .none),
      Session.choose changes)
  | .trace level message => do
    ValueEngine.trace level message
    return (.nothing, id)
  | .failure payload code message => do
    let payload ← payload.eval s.scope
    return (.failure (← describeFailure s.scope (.raised code message payload)), id)
  | .outcome form => do return (.view (← viewOutcome s.scope (← form.eval s.scope)), id)
  | .symbol code => return (.text (Operator.symbolOfCode code), id)
  | .kind tag =>
    let kind := Kind.ofTag? tag
    return (.kind (Kind.nameOfTag tag) (kind.any Kind.hasEquality) (kind.any Kind.hasOrder), id)
  | .judge a b => do
    let a ← a.eval s.scope
    let b ← b.eval s.scope
    let answer ← withRead a fun i x => withRead b fun j y => do
      showVerdict s.scope (← ValueEngine.judge s.hooks i x j y)
    return (.equality answer, id)
  | .order a b => do
    let a ← a.eval s.scope
    let b ← b.eval s.scope
    let answer ← withRead a fun _ x => withRead b fun _ y => do
      showOrder s.scope (← orderOf s.hooks x y)
    return (.order answer, id)
  | .integer function x y => do return (← Action.ofExcept (function.run x y), id)
  | .guard access a name => do
    let g ← Ref.guard access (← a.eval s.scope)
    (s.guard name).release
    return (.nothing, Session.keepGuard name g)
  | .release name => do
    (s.guard name).release
    return (.nothing, Session.dropGuard name)
  | .moveGuard name target => do
    if target ≠ name then (s.guard target).release
    return (.nothing, Session.moveGuard name target)
  | .through name action => do return (← action.run s.scope (s.guard name), id)
  | .repeated _ _ => return (.nothing, id)

namespace Session

/-- The session with no record of earlier steps. -/
def cleared (s : Session) : Session :=
  { s with world.trace := [], world.host.events := [], world.host.interpreted := 0 }

/-- The session without the objects that nothing refers to. -/
def collected (s : Session) : Session :=
  { s with world.heap := s.world.heap.collect s.roots }

/-- The answer of a step that has left the session like this, and the session for the
    next one. -/
def answer (s : Session) (reply : Reply) : Answer × Session :=
  (.of reply s.world.host.events (s.world.trace.flatMap TraceLine.text), s.collected)

/-- Runs a step other than a repetition. -/
def runSingle (s : Session) (step : Step) : Answer × Session :=
  match perform s step s.world with
  | .ok (reply, change) world => (change { s with world := world }).answer reply
  | .error cause world => { s with world := world }.answer (.aborted cause)

end Session

/-- Runs a round so many times and gives the answers of the last one. -/
def rounds (round : Session → List Answer × Session) :
    Nat → List Answer → Session → List Answer × Session
  | 0, last, s => (last, s)
  | times + 1, _, s =>
    let (answers, s) := round s
    rounds round times answers s

mutual

/-- Runs a step. The steps of a repetition are steps of their own. -/
def runStep : Step → Session → Answer × Session
  | .repeated times body, s =>
    let (answers, s) := rounds (runAll body) times.toNat [] s
    s.cleared.answer (.last answers)
  | step, s => s.cleared.runSingle step

/-- Runs steps one after the other. -/
def runAll : List Step → Session → List Answer × Session
  | [], s => ([], s)
  | step :: rest, s =>
    let (answer, s) := runStep step s
    let (answers, s) := runAll rest s
    (answer :: answers, s)

end

/-- The answers of a script that starts from nothing. -/
def runScript (steps : List Step) : List Answer := (runAll steps .initial).1

end ValueEngine.Script
