/-
  Value engine — hosts that only refer to what there is.

  Nobody can refer to an object that is gone. So a host makes objects of parts and types
  that are there, puts such parts into what it changes, and asks operations about them;
  and so does its code that an operation enters. Apart from that it may do as it likes.

  * `Grounded`: the code of such a host, given where it starts.
  * `Grounded.secures`: it keeps a world sound.
  * `Lawful`: the states that a run of such a host comes to; all are sound
    (`Lawful.sound`).
-/
import ValueEngine.Proofs.Soundness.Guards

namespace ValueEngine

variable {σ : Type}

/-- A payload that can be made: its parts are there or null, and the keys of a dictionary
    ascend. -/
structure Payload.Possible (h : Heap) (p : Payload) : Prop where
  slots : ∀ r ∈ p.slots, h.Admits True r
  ordered : ∀ entries, p = .dict entries → entries.Ascending

theorem Payload.Possible.fits {h : Heap} {p : Payload} (hp : p.Possible h) :
    p.Fits True h ⟨h.size⟩ where
  slots := hp.slots
  target cursor t hcursor ht := by
    have hslot : some t ∈ p.slots := by simp [hcursor, Payload.slots, ht]
    exact Heap.Live.lt_size (hp.slots _ hslot)
  ordered := hp.ordered

/-- Code of a host, begun in a world, that only refers to what there is; the references
    in its result are given beside it. It looks at anything, catches aborts, takes and
    releases guards, changes objects through them, makes objects of any type, and asks
    for operations, which may enter further code of that kind. -/
inductive Grounded : ∀ {α : Type}, World σ → Action σ α → (α → List ObjId) → Prop
  | pure {α : Type} {w : World σ} {refs : α → List ObjId} {a : α} :
      (∀ i ∈ refs a, w.heap.Live i) → Grounded w (Pure.pure a) refs
  | abort {α : Type} {w : World σ} {refs : α → List ObjId} (e : Abort) :
      Grounded w (Action.abort e) refs
  | bind {α β : Type} {w : World σ} {refsx : α → List ObjId} {refs : β → List ObjId}
      {x : Action σ α} {f : α → Action σ β} :
      Grounded w x refsx →
      (∀ a w', x w = .ok a w' → (∀ i ∈ refsx a, w'.heap.Live i) → Grounded w' (f a) refs) →
      Grounded w (x >>= f) refs
  | attempt {α : Type} {w : World σ} {refs : α → List ObjId} {x : Action σ α} :
      Grounded w x refs →
      Grounded w x.attempt fun
        | .ok a => refs a
        | .error _ => []
  | look {w : World σ} : Grounded w get fun _ => []
  /-- What the host remembers, how the engine is configured, and what is traced. -/
  | aside {w : World σ} {f : World σ → World σ} :
      (f w).heap = w.heap → Grounded w (modify f) fun _ => []
  | guard {w : World σ} (access : Access) (r : Ref) :
      Grounded w (Ref.guard access r) fun g => g.held.toList
  | release {w : World σ} (g : Guard) : Grounded w g.release fun _ => []
  | push {w : World σ} (g : Guard) {value : Ref} :
      w.heap.Admits True value → Grounded w (g.push value) fun _ => []
  | truncate {w : World σ} (g : Guard) (length : Nat) :
      Grounded w (g.truncate length) fun _ => []
  | insertEntry {w : World σ} (g : Guard) (key : Bytes) {value : Ref} :
      w.heap.Admits True value → Grounded w (g.insertEntry key value) fun _ => []
  | eraseEntry {w : World σ} (g : Guard) (key : Bytes) :
      Grounded w (g.eraseEntry key) fun _ => []
  | bindAttribute {w : World σ} (g : Guard) (name : Bytes) {value : Ref} :
      w.heap.Admits True value → Grounded w (g.bindAttribute name value) fun _ => []
  | unbindAttribute {w : World σ} (g : Guard) (name : Bytes) :
      Grounded w (g.unbindAttribute name) fun _ => []
  /-- An object of any type. -/
  | make {w : World σ} {payload : Option Payload} {type : Ref} :
      w.heap.Admits True type → (∀ p, payload = some p → p.Possible w.heap) →
      Grounded w (make payload type) fun i => [i]
  /-- An object of the canonical type of its kind. -/
  | fresh {w : World σ} {payload : Payload} :
      payload.Possible w.heap → Grounded w (fresh payload) fun i => [i]
  | request {w : World σ} {env : Environment σ} {request : Request} :
      (∀ r ∈ request.operands, w.heap.Admits True r) →
      (∀ hook, env.hooks.onFailure = some hook → ∀ cause (w : World σ),
        (∀ i ∈ cause.payload, w.heap.Live i) → Grounded w (hook cause) fun _ => []) →
      (∀ hook, env.hooks.onUnsupported = some hook → ∀ op a b outcome (w : World σ),
        w.heap.Admits True a → w.heap.Admits True b → (∀ i ∈ outcome.refs, w.heap.Live i) →
        Grounded w (hook op a b outcome) fun offered => offered.2.refs) →
      (∀ evaluator, env.evaluator = some evaluator → ∀ code args (w : World σ),
        (∀ r ∈ args, w.heap.Admits True r) →
        Grounded w (env.natives code evaluator args) Outcome.refs) →
      (∀ evaluator, env.evaluator = some evaluator → ∀ f args (w : World σ),
        w.heap.Admits True f → (∀ r ∈ args, w.heap.Admits True r) →
        Grounded w (evaluator.run f args) Outcome.refs) →
      Grounded w (request.run env) Response.refs

/-- **Code that only refers to what there is keeps a world sound**, and what it gives is
    there. -/
theorem Grounded.secures {α : Type} {w : World σ} {x : Action σ α} {refs : α → List ObjId}
    (h : Grounded w x refs) : Secures .lenient x w refs := by
  induction h with
  | pure ha => exact .pure ha
  | abort e => exact .abort trivial e
  | bind _ _ ihx ihf => exact ihx.bind_run fun a w' hrun _ hlive => ihf a w' hrun hlive
  | attempt _ ih => exact .attempt ih fun _ => rfl
  | look => exact .get
  | aside hf => exact .modify hf
  | guard access r => exact guard_secures access r
  | release g => exact release_secures g
  | push g hv => exact push_secures g hv
  | truncate g length => exact truncate_secures g length
  | insertEntry g key hv => exact insertEntry_secures g key hv
  | eraseEntry g key => exact eraseEntry_secures g key
  | bindAttribute g name hv => exact bindThrough_secures g name hv
  | unbindAttribute g name => exact unbindThrough_secures g name
  | make ht hp => exact .make trivial ht fun p he => (hp p he).fits
  | fresh hp => exact .fresh hp.fits (.inl trivial)
  | request hops _ _ _ _ ihf ihu ihn ihe =>
    have henv : Environment.Secure .lenient _ :=
      ⟨⟨ihf, ihu, fun h => (h trivial).elim⟩, ihn, ihe⟩
    exact Request.secures henv (.inl trivial) hops

/-! ## Runs -/

/-- The states that a run of a host can come to that only refers to what there is. -/
inductive Lawful : World σ → Prop
  | start (host : σ) : Lawful (.initial host)
  | step {α : Type} {w : World σ} {x : Action σ α} {refs : α → List ObjId} :
      Lawful w → Grounded w x refs → Lawful (x.after w)
  /-- What nothing refers to is reclaimed; the canonical objects are always referred to. -/
  | reclaim {w : World σ} {roots : List ObjId} :
      Lawful w → (∀ i ∈ canonicalIds, i ∈ roots) →
      Lawful { w with heap := w.heap.collect roots }

/-- **Every state of a lawful run is sound.** -/
theorem Lawful.sound {w : World σ} (h : Lawful w) : w.heap.Sound True := by
  have hsound : w.Sound .lenient := by
    induction h with
    | start host => exact ⟨Heap.Sound.initial, fun h => (h trivial).elim⟩
    | step _ hx ih => exact (hx.secures.sound_after ih).1
    | reclaim _ hroots ih => exact ⟨ih.heap.collect hroots, fun h => (h trivial).elim⟩
  exact hsound.heap

end ValueEngine
