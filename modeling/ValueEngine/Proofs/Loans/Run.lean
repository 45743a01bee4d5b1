/-
  Value engine — loans over whole runs.

  A run starts an engine, and goes on with any host code for as long as it likes. In
  between, objects that nothing refers to may be reclaimed; what a guard holds is
  referred to.

  * `Reached`: the states that a run can come to.
  * `Reached.exact`: in each of them every loan is exactly what the guards of the host
    hold.
  * `loans_exact_over_runs`: this, in numbers, with what it means for the operations.
-/
import ValueEngine.Heap.Liveness
import ValueEngine.Proofs.Loans.Host

namespace ValueEngine

/-- The number that stands for a loan: that of the readers, or `-1` for a writer. -/
def Loan.number : Loan → Int
  | .shared readers => readers
  | .exclusive => -1

/-- The states that a run can come to. -/
inductive Reached {τ : Type} : World (Hands τ) → Prop
  | start (own : τ) : Reached (.initial { own })
  | step {α : Type} {w : World (Hands τ)} {x : Action (Hands τ) α} :
      Reached w → HostCode x → Reached (x.after w)
  | reclaim {w : World (Hands τ)} {roots : List ObjId} :
      Reached w → (∀ g ∈ w.host.guards, ∀ i, g.held = some i → i ∈ roots) →
      Reached { w with heap := w.heap.collect roots }

/-! ## The start -/

theorem Heap.loan_of_initial {i : ObjId} {o : Object} (ho : initial.get? i = some o) :
    o.loan = .free :=
  forall_get? (P := fun o => o.loan = .free) (by decide) ho

theorem exact_initial : Exact [] Heap.initial where
  held := nofun
  loans i o ho := by
    rw [Heap.loan_of_initial ho]
    exact ⟨rfl, rfl⟩

/-! ## Reclaiming -/

theorem Heap.get?_collectWithin {roots : List ObjId} {i : ObjId} (rounds : Nat) (h : Heap) :
    (∀ o, (h.collectWithin roots rounds).get? i = some o → h.get? i = some o) ∧
      (i ∈ roots → (h.collectWithin roots rounds).get? i = h.get? i) := by
  induction rounds generalizing h with
  | zero => exact ⟨fun _ ho => ho, fun _ => rfl⟩
  | succ rounds ih =>
    simp only [collectWithin]
    split
    · exact ⟨fun _ ho => ho, fun _ => rfl⟩
    obtain ⟨hback, hkeep⟩ := ih (h.sweep roots)
    constructor
    · intro o ho
      have hs := hback o ho
      rw [get?_sweep] at hs
      split at hs
      · exact hs
      · cases hs
    · intro hi
      rw [hkeep hi, get?_sweep]
      exact if_pos (List.mem_append_left _ hi)

/-- Reclaiming ends no loan and begins none. -/
theorem Exact.collect {gs : List Guard} {h : Heap} {roots : List ObjId} (he : Exact gs h)
    (hr : ∀ g ∈ gs, ∀ i, g.held = some i → i ∈ roots) : Exact gs (h.collect roots) where
  held g hg i hi := by
    rw [Heap.collect, (Heap.get?_collectWithin _ _).2 (hr g hg i hi)]
    exact he.held g hg i hi
  loans i o ho := he.loans i o ((Heap.get?_collectWithin _ _).1 o ho)

/-! ## Whole runs -/

/-- **In every state of a run** every loan is exactly what the guards of the host
    hold. -/
theorem Reached.exact {τ : Type} {w : World (Hands τ)} (h : Reached w) :
    Exact w.host.guards w.heap := by
  induction h with
  | start own => exact exact_initial
  | step _ hx ih => exact hx.accounted [] _ ih
  | reclaim _ hr ih => exact ih.collect hr

/-- Once the host keeps the guards that it kept before, every loan is as it was. -/
theorem HostCode.loan_unchanged {τ α : Type} {x : Action (Hands τ) α} (hx : HostCode x)
    {lent : List Guard} {w : World (Hands τ)} (he : Exact (lent ++ w.host.guards) w.heap)
    (hp : (x.after w).host.guards.Perm w.host.guards) {i : ObjId} {o : Object}
    (ho : w.heap.get? i = some o) :
    ∃ o', (x.after w).heap.get? i = some o' ∧ o'.loan = o.loan := by
  obtain ⟨o', ho'⟩ := Option.isSome_iff_exists.1 (hx.leads w i (by simp [ho]))
  have he' := (hx.accounted lent w he).perm (hp.append_left lent)
  exact ⟨o', ho', (he'.loans i o' ho').unique (he.loans i o ho)⟩

theorem Loan.Tallies.number {count : Access → Nat} {l : Loan} (h : l.Tallies count) :
    (count .write = 0 → l.number = count .read) ∧ (l.number = -1 ↔ count .write = 1) ∧
      (count .write = 1 → count .read = 0) ∧ count .write ≤ 1 := by
  cases l with
  | shared readers =>
    obtain ⟨hr, hw⟩ := h
    refine ⟨fun _ => by simp [Loan.number, hr], ?_, by omega, by omega⟩
    simp [Loan.number, hw]
  | exclusive =>
    obtain ⟨hr, hw⟩ := h
    exact ⟨by omega, by simp [Loan.number, hw], fun _ => hr, by omega⟩

/-- **Loans are exact over whole runs.** In every state that a run can come to, the
    number that a live object shows is that of its readers unless it has a writer, and
    `-1` just if it has one, which is then all that it has. Hence a request of any kind,
    entered at any depth and however it ends, leaves every number as it was, but for
    the guards that host code took and kept; a loan that is refused changes nothing, and
    so does the release of a guard that was moved. -/
theorem loans_exact_over_runs {τ : Type} :
    (∀ w : World (Hands τ), Reached w → ∀ i o, w.heap.get? i = some o →
      (Guard.tally w.host.guards i .write = 0 →
        o.loan.number = Guard.tally w.host.guards i .read) ∧
      (o.loan.number = -1 ↔ Guard.tally w.host.guards i .write = 1) ∧
      (Guard.tally w.host.guards i .write = 1 → Guard.tally w.host.guards i .read = 0) ∧
      Guard.tally w.host.guards i .write ≤ 1) ∧
    (∀ (env : Environment (Hands τ)) (request : Request) (lent : List Guard)
      (w : World (Hands τ)), env.Within HostCode → Exact (lent ++ w.host.guards) w.heap →
      ((request.run env).after w).host.guards.Perm w.host.guards →
      ∀ i o, w.heap.get? i = some o →
        ∃ o', ((request.run env).after w).heap.get? i = some o' ∧ o'.loan = o.loan) ∧
    (∀ access r e (w w' : World (Hands τ)),
      Hands.take access r w = .error e w' ∨ (∃ e', takeLoan access r w = .error e' w') →
      w' = w) ∧
    (∀ (g : Guard) (w : World (Hands τ)), g.moved.release w = .ok () w) ∧
    ∀ place g (w : World (Hands τ)), w.host.guards[place]? = some g → g.held = none →
      ((Hands.release place).after w).heap = w.heap := by
  refine ⟨fun w hw i o ho => (hw.exact.loans i o ho).number, ?_, ?_, fun g w => rfl, ?_⟩
  · intro env request lent w henv he hp i o ho
    have hx : HostCode (request.run env) := .request henv.hooks.onFailure
      henv.hooks.onUnsupported henv.natives henv.evaluator
    exact hx.loan_unchanged he hp ho
  · rintro access r e w w' (h | ⟨_, h⟩)
    · exact Hands.take_error h
    · exact takeLoan_error h
  · intro place g w hg hm
    rw [Hands.release_of_moved hg hm]

/-- A host whose hook throws at every failure. -/
def throwing : Environment (Hands Unit) where
  hooks := { onFailure := some fun _ => Action.abort .unfinished }

theorem throwing_within : throwing.Within HostCode where
  hooks := {
    onFailure := fun _ hhook cause => by cases hhook; exact .abort _
    onUnsupported := nofun }
  natives := nofun
  evaluator := nofun

/-- The state in which the host of a new engine has a guard for None. -/
def guarded : World (Hands Unit) :=
  (Hands.take .read (some noneId)).after (.initial { own := () })

theorem reached_guarded : Reached guarded := .step (.start ()) (.take _ _)

/-- None has a reader, fails to have a length, and the hook throws from within: it has
    its reader still. -/
theorem loans_exact_of_throwing :
    (∃ o, guarded.heap.get? noneId = some o ∧ o.loan.number = 1) ∧
      ∃ o, (((Request.unary .length (some noneId)).run throwing).after guarded).heap.get? noneId =
        some o ∧ o.loan.number = 1 := by
  obtain ⟨hnumber, hrequest, -⟩ := loans_exact_over_runs (τ := Unit)
  have hsome : (guarded.heap.get? noneId).isSome := by decide
  obtain ⟨o, ho⟩ := Option.isSome_iff_exists.1 hsome
  have hone : o.loan.number = 1 :=
    (hnumber guarded reached_guarded noneId o ho).1 (by decide)
  obtain ⟨o', ho', hl⟩ := hrequest throwing (.unary .length (some noneId)) [] guarded
    throwing_within reached_guarded.exact (by decide) noneId o ho
  exact ⟨⟨o, ho, hone⟩, o', ho', by rw [hl, hone]⟩

end ValueEngine
