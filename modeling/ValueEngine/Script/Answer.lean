/-
  Value engine — scripts: what a script is told.

  * `Reply`: what comes of a step.
  * `Answer`: a reply with the hooks that were called and what was traced.
-/
import ValueEngine.Script.Scope

namespace ValueEngine.Script

/-- What an object that is lent shows of itself. -/
structure Inspection where
  kind : Kind
  type : Option Description
  attributes : List (Bytes × Option Description)

/-- The content of an object. -/
inductive Content
  | text (text : Bytes)
  | integer (value : Int)
  | boolean (value : Bool)
  | references (elements : List (Option Description))
  | entries (entries : List (Bytes × Option Description))
  | program (bytes : Option Bytes)
  | reference (target : Option Description)

/-- What an outcome shows of itself: its form, and what it gives when it is asked for a
    value and for a failure. -/
structure OutcomeView where
  outcome : Outcome
  value : Except Abort (Option Description)
  cause : Except Abort FailureReport

/-- What a script is shown of an outcome. -/
inductive OutcomeReply
  | success (value : Option Description)
  | failure (report : FailureReport)
  | exhausted

mutual

/-- What comes of a step. -/
inductive Reply
  /-- An outcome, with the number of interpreted functions if the step was a call. -/
  | outcome (outcome : OutcomeReply) (interpreted : Option Nat)
  | aborted (cause : Abort)
  | nothing
  | boolean (value : Bool)
  | number (value : Int)
  | text (text : Bytes)
  | reference (value : Option Description)
  | nullness (isNull : Bool)
  | inspection (inspection : Inspection)
  | content (content : Content)
  | ownAttribute (value : Option Description)
  | settings (settings : Settings) (onFailure onUnsupported : Bool)
  | failure (report : FailureReport)
  | view (view : OutcomeView)
  | kind (name : Bytes) (hasEquality hasOrder : Bool)
  | equality (answer : Except FailureReport Bool)
  | order (answer : Except FailureReport Ordering)
  | checked (value : Option Int32)
  /-- The answers of the last round of a repetition. -/
  | last (answers : List Answer)

/-- A reply, the hooks that were called and what was traced. -/
inductive Answer
  | of (reply : Reply) (events : List Event) (trace : Bytes)

end

end ValueEngine.Script
