import CancelableEffects.Proofs.Strands

/-!
# Worlds — what the turns of a loop see

* `Store.Shows`: two stores show a loop the same.
* `Store.InStep`: they do, and since both earlier ones the same has happened.
* `Store.InStep.push`, `Store.InStep.newBoundary`, `Store.InStep.modifyBracket`: changes that keep them in step.
* **`Node.step_inStep`**, **`Frame.resume_inStep`**, **`Code.turn_inStep`**: what a loop does where stores show the
  same.
* **`Loop.Takes.inStep`**: it takes the same turn.
-/

namespace CancelableEffects

/-! ## What is shown -/

/-- The bracket, but for who opened it. -/
def Bracket.unowned (br : Bracket) : Bracket := { br with owner := 0 }

/-- The keeper of a boundary, but for who opened a bracket. -/
def Keeper.unowned : Keeper → Keeper := mapBracket Bracket.unowned

/-- The stores show a loop the same: the same connections, keepers of boundaries, callbacks, fibers, scopes,
semaphores, programs and variables. They need not agree in where the loops are that wait, how many executions
have begun, what the outside world has to do, the time, and the past. -/
structure Store.Shows (σ τ : Store) : Prop where
  connections : σ.connections = τ.connections
  keepers : σ.boundaries.keepers.map Keeper.unowned = τ.boundaries.keepers.map Keeper.unowned
  callbacks : σ.callbacks = τ.callbacks
  fibers : σ.fibers = τ.fibers
  scopes : σ.scopes = τ.scopes
  semaphores : σ.semaphores = τ.semaphores
  programs : σ.programs = τ.programs
  jobs : σ.jobs.size = τ.jobs.size
  shared : σ.shared = τ.shared

/-- Both stores show the same, and the same has happened since `σ₀` and `τ₀`. -/
structure Store.InStep (σ₀ τ₀ σ τ : Store) : Prop extends σ.Shows τ where
  happened : ∃ es : Array Event, σ.history = σ₀.history ++ es ∧ τ.history = τ₀.history ++ es

/-- Both turns lead to the same stage with the same frames, connection and calls, and the stores stay in step. -/
structure Turn.InStep (σ₀ τ₀ : Store) (t t' : Turn) : Prop where
  store : Store.InStep σ₀ τ₀ t.store t'.store
  calls : t.calls = t'.calls
  stage : t.stage = t'.stage
  link : t.link = t'.link
  frames : t.frames = t'.frames

namespace Store

variable {σ₀ τ₀ σ τ : Store}

theorem Shows.symm (h : σ.Shows τ) : τ.Shows σ :=
  ⟨h.connections.symm, h.keepers.symm, h.callbacks.symm, h.fibers.symm, h.scopes.symm, h.semaphores.symm,
    h.programs.symm, h.jobs.symm, h.shared.symm⟩

theorem InStep.symm (h : InStep σ₀ τ₀ σ τ) : InStep τ₀ σ₀ τ σ :=
  ⟨h.toShows.symm, h.happened.imp fun _ => And.symm⟩

theorem Shows.inStep (h : σ.Shows τ) : InStep σ τ σ τ := ⟨h, #[], by simp, by simp⟩

/-! ## What a loop reads -/

theorem Shows.isCancelled (h : σ.Shows τ) (link : Link) : σ.isCancelled link = τ.isCancelled link := by
  cases link with
  | none => rfl
  | some c => rw [Store.isCancelled, Store.isCancelled, h.connections]

theorem Shows.size (h : σ.Shows τ) : σ.boundaries.size = τ.boundaries.size := by
  have hsize := congrArg Array.size h.keepers
  rw [Array.size_map, Array.size_map] at hsize
  rw [Boundaries.size, Boundaries.size, ← σ.boundaries.aligned, ← τ.boundaries.aligned, hsize]

theorem Shows.keeper? (h : σ.Shows τ) (b : BoundaryId) :
    (σ.keeper? b).map Keeper.unowned = (τ.keeper? b).map Keeper.unowned := by
  rw [Store.keeper?, Store.keeper?, ← Array.getElem?_map, ← Array.getElem?_map, h.keepers]

theorem Shows.step? (h : σ.Shows τ) (s : StepId) : σ.step? s = τ.step? s := by
  have hread : ∀ (ρ : Store) x, ρ.step? s = some x ↔ (ρ.keeper? s).map Keeper.unowned = some (.step x) :=
    fun ρ x => by
      rw [Store.step?]
      cases ρ.keeper? s with
      | none => simp
      | some y => cases y <;> simp [Keeper.unowned, Keeper.mapBracket]
  exact Option.ext fun x => by rw [hread σ, hread τ, h.keeper?]

theorem Shows.bracket? (h : σ.Shows τ) (g : BracketId) :
    (σ.bracket? g).map Bracket.unowned = (τ.bracket? g).map Bracket.unowned := by
  have hread : ∀ (ρ : Store) br, (ρ.bracket? g).map Bracket.unowned = some br ↔
      (ρ.keeper? g).map Keeper.unowned = some (.bracket br) := fun ρ br => by
    rw [Store.bracket?]
    cases ρ.keeper? g with
    | none => simp
    | some y => cases y <;> simp [Keeper.unowned, Keeper.mapBracket]
  exact Option.ext fun br => by rw [hread σ, hread τ, h.keeper?]

/-- What a bracket shows, but for who opened it. -/
theorem Shows.bracket_map {α : Type} (h : σ.Shows τ) (g : BracketId) (f : Bracket → α)
    (hf : ∀ br, f (Bracket.unowned br) = f br) : (σ.bracket? g).map f = (τ.bracket? g).map f := by
  have hread : ∀ ρ : Store, (ρ.bracket? g).map f = ((ρ.bracket? g).map Bracket.unowned).map f := fun ρ => by
    rw [Option.map_map]
    exact congrArg (Option.map · (ρ.bracket? g)) (funext fun br => (hf br).symm)
  rw [hread σ, hread τ, h.bracket?]

theorem Shows.held? (h : σ.Shows τ) (g : BracketId) : σ.held? g = τ.held? g := by
  rw [Store.held?, Store.held?, h.bracket_map g Bracket.resource fun _ => rfl]

theorem Shows.bracketLink (h : σ.Shows τ) (g : BracketId) : σ.bracketLink g = τ.bracketLink g := by
  have hread : ∀ ρ : Store, ρ.bracketLink g = ((ρ.bracket? g).map Bracket.link).bind id := fun ρ => by
    rw [Option.bind_map]
    rfl
  rw [hread σ, hread τ, h.bracket_map g Bracket.link fun _ => rfl]

/-! ## What a loop changes -/

/-- Both give the same, and stores that are in step. -/
def Agree (σ₀ τ₀ : Store) {α : Type} (x y : Store × α) : Prop :=
  ∃ σ τ a, x = (σ, a) ∧ y = (τ, a) ∧ InStep σ₀ τ₀ σ τ

namespace InStep

/-- Both give stores that are in step, and the same. -/
theorem agree {α : Type} {x y : Store × α} (h : InStep σ₀ τ₀ x.1 y.1) (hxy : x.2 = y.2) : Agree σ₀ τ₀ x y :=
  ⟨x.1, y.1, x.2, rfl, hxy ▸ rfl, h⟩

variable (h : InStep σ₀ τ₀ σ τ)
include h

theorem emit (e : Event) : InStep σ₀ τ₀ (σ.emit e) (τ.emit e) := by
  obtain ⟨es, hσ, hτ⟩ := h.happened
  exact { h with happened := ⟨es.push e, by simp [Store.emit, hσ], by simp [Store.emit, hτ]⟩ }

theorem emit? (e : Option Event) : InStep σ₀ τ₀ (σ.emit? e) (τ.emit? e) := by
  cases e with
  | none => simpa [Store.emit?] using h
  | some e => simpa [Store.emit?, Store.emit] using h.emit e

/-! ### Connections -/

theorem modifyConnection (link : Link) (f : Connection → Connection) :
    InStep σ₀ τ₀ (σ.modifyConnection link f) (τ.modifyConnection link f) :=
  { h with connections := by simp only [Store.modifyConnection, h.connections] }

theorem push (link : Link) (t : Token) : Agree σ₀ τ₀ (σ.push link t) (τ.push link t) := by
  simp only [Store.push, h.isCancelled]
  exact (h.modifyConnection link _).agree rfl

theorem popToken (link : Link) : Agree σ₀ τ₀ (σ.popToken link) (τ.popToken link) := by
  simp only [Store.popToken, Store.connection?, h.connections]
  exact (h.modifyConnection link _).agree rfl

theorem dropToken (link : Link) : InStep σ₀ τ₀ (σ.dropToken link) (τ.dropToken link) := h.modifyConnection link _

theorem cancel (link : Link) : Agree σ₀ τ₀ (σ.cancel link) (τ.cancel link) := by
  have htaken : σ.connection? link = τ.connection? link := by simp only [Store.connection?, h.connections]
  simp only [Store.cancel, htaken]
  exact ((h.modifyConnection link _).emit? _).agree rfl

theorem newConnection : Agree σ₀ τ₀ σ.newConnection τ.newConnection :=
  agree { h with connections := congrArg (Array.push · _) h.connections } (congrArg Array.size h.connections)

/-! ### Programs, callbacks and variables -/

theorem keep (p : Prog) : Agree σ₀ τ₀ (σ.keep p) (τ.keep p) :=
  agree { h with programs := congrArg (Array.push · p) h.programs } (congrArg Array.size h.programs)

theorem newCallback (k : Callback) : Agree σ₀ τ₀ (σ.newCallback k) (τ.newCallback k) :=
  agree { h with callbacks := congrArg (Array.push · _) h.callbacks } (congrArg Array.size h.callbacks)

theorem pushProgram (link : Link) (p : Prog) : Agree σ₀ τ₀ (σ.pushProgram link p) (τ.pushProgram link p) := by
  obtain ⟨σ', τ', i, hσ, hτ, h'⟩ := h.keep p
  simp only [Store.pushProgram, hσ, hτ]
  exact h'.push link _

theorem answer (c : CallbackId) (r : Result) : Agree σ₀ τ₀ (σ.answer c r) (τ.answer c r) :=
  agree { h with callbacks := congrArg (Array.setIfInBounds · c none) h.callbacks }
    (by simp only [Store.answer, Store.takeCallback, h.callbacks])

theorem setVariable (x : Name) (v : Option Value) : InStep σ₀ τ₀ (σ.setVariable x v) (τ.setVariable x v) :=
  { h with shared := by simp only [Store.setVariable, h.shared] }

/-! ### Boundaries -/

theorem newBoundary {x y : Keeper} (hxy : x.unowned = y.unowned) :
    Agree σ₀ τ₀ (σ.newBoundary x) (τ.newBoundary y) :=
  agree { h with keepers := by simp only [Store.newBoundary, Boundaries.push, Array.map_push, h.keepers, hxy] }
    h.size

theorem modifyKeeper (b : BoundaryId) {f : Keeper → Keeper} (hf : ∀ x : Keeper, (f x).unowned = f x.unowned) :
    InStep σ₀ τ₀ (σ.modifyKeeper b f) (τ.modifyKeeper b f) := by
  have hmodify : ∀ ρ : Store, (ρ.modifyKeeper b f).boundaries.keepers.map Keeper.unowned =
      (ρ.boundaries.keepers.map Keeper.unowned).modify b f := fun ρ => by
    refine Array.ext_getElem? fun i => ?_
    simp only [Store.modifyKeeper, Boundaries.modify, Array.getElem?_map, Array.getElem?_modify]
    split
    · rw [Option.map_map, Option.map_map]
      exact congrArg (Option.map · _) (funext hf)
    · rfl
  exact { h with keepers := by rw [hmodify, hmodify, h.keepers] }

theorem modifyStep (s : StepId) (f : Step → Step) : InStep σ₀ τ₀ (σ.modifyStep s f) (τ.modifyStep s f) :=
  h.modifyKeeper s fun x => by cases x <;> rfl

theorem modifyBracket (g : BracketId) {f : Bracket → Bracket} (hf : ∀ br, (f br).unowned = f br.unowned) :
    InStep σ₀ τ₀ (σ.modifyBracket g f) (τ.modifyBracket g f) :=
  h.modifyKeeper g fun x => by
    cases x with
    | bracket br => exact congrArg Keeper.bracket (hf br)
    | _ => rfl

theorem takeRelease (g : BracketId) (x : ExitCase) : Agree σ₀ τ₀ (σ.takeRelease g x) (τ.takeRelease g x) := by
  have htake : ∀ br : Bracket, br.take.unowned = br.unowned.take := fun br => by
    obtain ⟨owner, link, release, resource, gate⟩ := br
    cases resource <;> rfl
  simp only [Store.takeRelease, h.held?]
  exact ((h.modifyBracket g htake).emit? _).agree rfl

theorem openGate (g : BracketId) : Agree σ₀ τ₀ (σ.openGate g) (τ.openGate g) := by
  simp only [Store.openGate, h.bracket_map g Bracket.gate fun _ => rfl]
  exact agree (h.modifyBracket g fun _ => rfl) rfl

theorem openStep (source : Source) (link : Link) : Agree σ₀ τ₀ (σ.openStep source link) (τ.openStep source link) := by
  obtain ⟨σ', τ', i, hσ, hτ, h'⟩ := h.newBoundary (x := .step { source, link }) rfl
  simp only [Store.openStep, hσ, hτ]
  exact h'.push link _

/-! ### Fibers -/

theorem modifyPromise (f : FiberId) (change : Promise Listener (Outcome Value) → Promise Listener (Outcome Value)) :
    InStep σ₀ τ₀ (σ.modifyPromise f change) (τ.modifyPromise f change) :=
  { h with fibers := by simp only [Store.modifyPromise, h.fibers] }

theorem publish (f : FiberId) (o : Outcome Value) : Agree σ₀ τ₀ (σ.publish f o) (τ.publish f o) := by
  simp only [Store.publish, h.fibers]
  exact ⟨_, _, _, rfl, rfl, h.modifyPromise f _⟩

theorem listen (f : FiberId) (l : Listener) : Agree σ₀ τ₀ (σ.listen f l) (τ.listen f l) := by
  simp only [Store.listen, h.fibers]
  exact ⟨_, _, _, rfl, rfl, h.modifyPromise f _⟩

theorem newFiber : Agree σ₀ τ₀ σ.newFiber τ.newFiber := by
  obtain ⟨σ', τ', c, hσ, hτ, h'⟩ := h.newConnection
  have hsize : σ'.fibers.size = τ'.fibers.size := congrArg Array.size h'.fibers
  have hpush : InStep σ₀ τ₀ { σ' with fibers := σ'.fibers.push { connection := c } }
      { τ' with fibers := τ'.fibers.push { connection := c } } :=
    { h' with fibers := congrArg (Array.push · _) h'.fibers }
  simp only [Store.newFiber, hσ, hτ, hsize]
  exact (hpush.emit _).agree rfl

/-- A fiber is started. -/
theorem startFiber (p : Prog) (on : Executor) : ∃ σ' τ' calls f, σ.startFiber p on = ((σ', calls), f) ∧
    τ.startFiber p on = ((τ', calls), f) ∧ InStep σ₀ τ₀ σ' τ' := by
  obtain ⟨σ', τ', f, hσ, hτ, h'⟩ := h.newFiber
  simp only [Store.startFiber, hσ, hτ, h'.fibers]
  exact ⟨_, _, _, _, rfl, rfl, h'⟩

/-! ### Jobs, scopes and semaphores -/

/-- The outside world has more to do, or less. -/
theorem newJob (x y : Job) : Agree σ₀ τ₀ (σ.newJob x) (τ.newJob y) :=
  agree { h with jobs := by simp only [Store.newJob, Array.size_push, h.jobs] } h.jobs

theorem abandon (j : JobId) : InStep σ₀ τ₀ (σ.abandon j) (τ.abandon j) :=
  { h with jobs := by simp only [Store.abandon, Array.size_modify, h.jobs] }

theorem setReady (xs ys : List Task) : InStep σ₀ τ₀ { σ with ready := xs } { τ with ready := ys } := { h with }

theorem newFuture (p : Prog) : InStep σ₀ τ₀ (σ.newFuture p).1 (τ.newFuture p).1 := by
  obtain ⟨σ', τ', i, hσ, hτ, h'⟩ := h.keep p
  simp only [Store.newFuture, hσ, hτ]
  exact { h' with }

theorem pushScope (x : Scope) :
    InStep σ₀ τ₀ { σ with scopes := σ.scopes.push x } { τ with scopes := τ.scopes.push x } :=
  { h with scopes := congrArg (Array.push · x) h.scopes }

theorem modifyScope (s : ScopeId) (f : Scope → Scope) :
    InStep σ₀ τ₀ { σ with scopes := σ.scopes.modify s f } { τ with scopes := τ.scopes.modify s f } :=
  { h with scopes := congrArg (Array.modify · s f) h.scopes }

theorem modifySemaphore (i : SemaphoreId) (f : Semaphore StepId → Semaphore StepId) :
    InStep σ₀ τ₀ { σ with semaphores := σ.semaphores.modify i f } { τ with semaphores := τ.semaphores.modify i f } :=
  { h with semaphores := congrArg (Array.modify · i f) h.semaphores }

end InStep

end Store

/-! ## Turns -/

section Turns

open Store

variable {σ₀ τ₀ σ τ : Store} {link : Link}

theorem Code.move_inStep {α : Type} (c : Code Prog α) (h : InStep σ₀ τ₀ σ τ) :
    ∃ σ' τ' calls o, c.move σ = ((σ', calls), o) ∧ c.move τ = ((τ', calls), o) ∧ InStep σ₀ τ₀ σ' τ' := by
  cases c with
  | ret a => exact ⟨_, _, _, _, rfl, rfl, h⟩
  | panic m => exact ⟨_, _, _, _, rfl, rfl, h⟩
  | log s next => exact ⟨_, _, _, _, rfl, rfl, h.emit _⟩
  | read x next =>
    simp only [move, getVariable, h.shared]
    exact ⟨_, _, _, _, rfl, rfl, h⟩
  | write x v next => exact ⟨_, _, _, _, rfl, rfl, h.setVariable x v⟩
  | launch p next => exact ⟨_, _, _, _, rfl, rfl, h⟩
  | answer c r next =>
    obtain ⟨σ', τ', calls, hσ, hτ, h'⟩ := h.answer c r
    simp only [move, hσ, hτ]
    exact ⟨_, _, _, _, rfl, rfl, h'⟩
  | push link p next =>
    obtain ⟨σ', τ', calls, hσ, hτ, h'⟩ := h.pushProgram link p
    simp only [move, hσ, hτ]
    exact ⟨_, _, _, _, rfl, rfl, h'⟩
  | keep p next =>
    obtain ⟨σ', τ', i, hσ, hτ, h'⟩ := h.keep p
    simp only [move, hσ, hτ]
    exact ⟨_, _, _, _, rfl, rfl, h'⟩

theorem Code.turn_inStep {α : Type} {again : Code Prog α → Stage} {done : Except String α → Stage}
    (c : Code Prog α) (link : Link) (h : InStep σ₀ τ₀ σ τ) :
    Turn.InStep σ₀ τ₀ (c.turn again done link σ) (c.turn again done link τ) := by
  obtain ⟨σ', τ', calls, o, hσ, hτ, h'⟩ := c.move_inStep h
  simp only [Code.turn, hσ, hτ]
  exact ⟨h', rfl, rfl, rfl, rfl⟩

theorem Instant.perform_inStep (a : Instant) (h : InStep σ₀ τ₀ σ τ) : ∃ σ' τ' calls v,
    a.perform σ = ((σ', calls), v) ∧ a.perform τ = ((τ', calls), v) ∧ InStep σ₀ τ₀ σ' τ' := by
  cases a with
  | tryAcquire i n =>
    simp only [perform, h.semaphores]
    exact ⟨_, _, _, _, rfl, rfl, by simpa only [h.semaphores] using h.modifySemaphore i fun x => (x.tryAcquire n).1⟩
  | release i n =>
    simp only [perform, h.semaphores]
    exact ⟨_, _, _, _, rfl, rfl, by
      simpa only [h.semaphores] using (h.modifySemaphore i fun x => (x.release n).1).emit? _⟩
  | available i => exact ⟨_, _, _, _, rfl, by simp only [perform, h.semaphores], h⟩
  | count i => exact ⟨_, _, _, _, rfl, by simp only [perform, h.semaphores], h⟩
  | scopeSize i => exact ⟨_, _, _, _, rfl, by simp only [perform, h.scopes], h⟩

/-! ### Steps that wait -/

/-- A loop opens a step that it waits for. -/
theorem Store.wait_inStep (source : Source) (link : Link) {register register' : StepId → Store → Next × Cleanup}
    (hregister : ∀ s {σ τ : Store}, InStep σ₀ τ₀ σ τ → ∃ σ' τ' calls c, register s σ = ((σ', calls), c) ∧
      register' s τ = ((τ', calls), c) ∧ InStep σ₀ τ₀ σ' τ') (h : InStep σ₀ τ₀ σ τ) :
    Turn.InStep σ₀ τ₀ (σ.wait source link register) (τ.wait source link register') := by
  obtain ⟨σ₁, τ₁, pushed, hσ₁, hτ₁, h₁⟩ := h.openStep source link
  obtain ⟨σ₂, τ₂, calls, c, hσ₂, hτ₂, h₂⟩ := hregister σ.boundaries.size h₁
  simp only [Store.wait, hσ₁, hτ₁, hσ₂, ← h.size, hτ₂]
  exact ⟨h₂, rfl, rfl, rfl, rfl⟩

theorem Store.awaitOutcome_inStep (f : FiberId) (link : Link) (h : InStep σ₀ τ₀ σ τ) :
    Turn.InStep σ₀ τ₀ (σ.awaitOutcome f link) (τ.awaitOutcome f link) := by
  refine wait_inStep _ link (fun s σ τ h => ?_) h
  obtain ⟨σ', τ', answer, hσ, hτ, h'⟩ := h.listen f (.step s)
  simp only [hσ, hτ]
  match answer with
  | some (.inl n) => exact ⟨_, _, _, _, rfl, rfl, h'⟩
  | some (.inr o) => exact ⟨_, _, _, _, rfl, rfl, h'⟩
  | none => exact ⟨_, _, _, _, rfl, rfl, h'⟩

theorem Store.awaitPermits_inStep (i : SemaphoreId) (n : Nat) (link : Link) (h : InStep σ₀ τ₀ σ τ) :
    Turn.InStep σ₀ τ₀ (σ.awaitPermits i n link) (τ.awaitPermits i n link) := by
  refine wait_inStep _ link (fun s σ τ h => ?_) h
  simp only [h.semaphores]
  exact ⟨_, _, _, _, rfl, rfl, by simpa only [h.semaphores] using h.modifySemaphore i fun x => (x.acquire n s).1⟩

theorem Store.awaitGate_inStep (g : BracketId) (link : Link) (h : InStep σ₀ τ₀ σ τ) :
    Turn.InStep σ₀ τ₀ (σ.awaitGate g link) (τ.awaitGate g link) := by
  refine wait_inStep _ link (fun s σ τ h => ?_) h
  have hawait : ∀ br : Bracket, (br.await s).unowned = br.unowned.await s := fun br => by
    obtain ⟨owner, link, release, resource, gate⟩ := br
    cases gate <;> rfl
  simp only [h.bracket_map g Bracket.gate fun _ => rfl]
  exact ⟨_, _, _, _, rfl, rfl, h.modifyBracket g hawait⟩

/-- What the job is does not matter. -/
theorem Store.awaitJob_inStep (job job' : StepId → Store → Job) (started : Bool) (link : Link)
    (h : InStep σ₀ τ₀ σ τ) :
    Turn.InStep σ₀ τ₀ (σ.awaitJob job started link) (τ.awaitJob job' started link) := by
  refine wait_inStep _ link (fun s σ τ h => ?_) h
  obtain ⟨σ', τ', j, hσ, hτ, h'⟩ := h.newJob (job s σ) (job' s τ)
  simp only [hσ, hτ]
  exact ⟨_, _, _, _, rfl, rfl, h'.setReady _ _⟩

/-! ### Clean-up -/

theorem Cleanup.begin_inStep (c : Cleanup) (link : Link) (h : InStep σ₀ τ₀ σ τ) :
    Turn.InStep σ₀ τ₀ (c.begin link σ) (c.begin link τ) := by
  cases c with
  | idle => exact ⟨h, rfl, rfl, rfl, rfl⟩
  | program i =>
    simp only [Cleanup.begin, h.programs]
    split <;> exact ⟨h, rfl, rfl, rfl, rfl⟩
  | unlisten f n => exact ⟨h.modifyPromise f _, rfl, rfl, rfl, rfl⟩
  | abandon j => exact ⟨h.abandon j, rfl, rfl, rfl, rfl⟩

theorem Token.begin_inStep (t : Token) (link : Link) (h : InStep σ₀ τ₀ σ τ) :
    Turn.InStep σ₀ τ₀ (t.begin link σ) (t.begin link τ) := by
  cases t with
  | cleanup c => exact c.begin_inStep link h
  | step s =>
    simp only [Token.begin, h.step?]
    exact ⟨h.modifyStep s _, rfl, rfl, rfl, rfl⟩
  | bracket g =>
    obtain ⟨σ', τ', n, hσ, hτ, h'⟩ := h.takeRelease g .cancelled
    simp only [Token.begin, hσ, hτ]
    exact ⟨h', rfl, rfl, rfl, rfl⟩
  | connection c =>
    obtain ⟨σ', τ', taken, hσ, hτ, h'⟩ := h.cancel c
    simp only [Token.begin, hσ, hτ]
    cases taken <;> exact ⟨h', rfl, rfl, rfl, rfl⟩
  | connections a b => exact ⟨h, rfl, rfl, rfl, rfl⟩
  | fiber f =>
    simp only [Token.begin, fiberLink, h.fibers]
    split
    · exact ⟨h.emit _, rfl, rfl, rfl, rfl⟩
    · exact ⟨h, rfl, rfl, rfl, rfl⟩
  | fibers a b => exact ⟨h, rfl, rfl, rfl, rfl⟩

theorem Store.sweep_inStep (of : Link) (first : Option Error) (link : Link) (below : List Frame) (ts : List Token)
    (h : InStep σ₀ τ₀ σ τ) : Turn.InStep σ₀ τ₀ (σ.sweep of first link below ts) (τ.sweep of first link below ts) := by
  cases ts <;> exact ⟨h, rfl, rfl, rfl, rfl⟩

/-! ### Programs -/

theorem Store.fork_inStep (kind : ForkKind) (p q : Prog) (on : Executor) (link : Link) (h : InStep σ₀ τ₀ σ τ) :
    Turn.InStep σ₀ τ₀ (σ.fork kind p q on link) (τ.fork kind p q on link) := by
  obtain ⟨σ₁, τ₁, left, hσ₁, hτ₁, h₁⟩ := h.newConnection
  obtain ⟨σ₂, τ₂, right, hσ₂, hτ₂, h₂⟩ := h₁.newConnection
  obtain ⟨σ₃, τ₃, k, hσ₃, hτ₃, h₃⟩ := h₂.newBoundary (x := .fork { kind, parent := link, left, right }) rfl
  obtain ⟨σ₄, τ₄, pushed, hσ₄, hτ₄, h₄⟩ := h₃.push link (.connections (some left) (some right))
  simp only [Store.fork, hσ₁, hτ₁, hσ₂, hτ₂, hσ₃, hτ₃, hσ₄, hτ₄]
  exact ⟨h₄, rfl, rfl, rfl, rfl⟩

/-- **A program is taken apart in the same way where stores show the same.** -/
theorem Prog.step_inStep (p : Prog) (e e' : ExecutionId) (link : Link) (h : InStep σ₀ τ₀ σ τ) :
    Turn.InStep σ₀ τ₀ (p.step e link σ) (p.step e' link τ) := by
  cases p with
  | connected register =>
    obtain ⟨σ₁, τ₁, b, hσ₁, hτ₁, h₁⟩ := h.newBoundary (x := .callback) rfl
    obtain ⟨σ₂, τ₂, c, hσ₂, hτ₂, h₂⟩ := h₁.newCallback (.boundary b)
    simp only [Prog.step, hσ₁, hτ₁, hσ₂, hτ₂]
    exact ⟨h₂, rfl, rfl, rfl, rfl⟩
  | cancelable register =>
    obtain ⟨σ₁, τ₁, pushed, hσ₁, hτ₁, h₁⟩ := h.openStep .user link
    obtain ⟨σ₂, τ₂, c, hσ₂, hτ₂, h₂⟩ := h₁.newCallback (.step σ.boundaries.size)
    simp only [Prog.step, hσ₁, hτ₁, ← h.size, hσ₂, hτ₂]
    exact ⟨h₂, rfl, rfl, rfl, rfl⟩
  | bracket acquire use release =>
    obtain ⟨σ₁, τ₁, g, hσ₁, hτ₁, h₁⟩ := h.newBoundary (x := .bracket { owner := e, link, release })
      (y := .bracket { owner := e', link, release }) rfl
    obtain ⟨σ₂, τ₂, pushed, hσ₂, hτ₂, h₂⟩ := h₁.push link (.bracket g)
    simp only [Prog.step, hσ₁, hτ₁, hσ₂, hτ₂]
    exact ⟨h₂, rfl, rfl, rfl, rfl⟩
  | race p q on => exact fork_inStep .first p q on link h
  | both p q on f => exact { fork_inStep .both p q on link h with frames := rfl }
  | racePair p q on =>
    obtain ⟨σ₁, τ₁, k, hσ₁, hτ₁, h₁⟩ := h.newBoundary (x := .duel none) rfl
    obtain ⟨σ₂, τ₂, calls, f, hσ₂, hτ₂, h₂⟩ := h₁.startFiber p on
    simp only [Prog.step, hσ₁, hτ₁, hσ₂, hτ₂]
    exact ⟨h₂, rfl, rfl, rfl, rfl⟩
  | start p on =>
    obtain ⟨σ₁, τ₁, calls, f, hσ₁, hτ₁, h₁⟩ := h.startFiber p on
    simp only [Prog.step, hσ₁, hτ₁]
    exact ⟨h₁, rfl, rfl, rfl, rfl⟩
  | spawn s p =>
    obtain ⟨σ₁, τ₁, calls, f, hσ₁, hτ₁, h₁⟩ := h.startFiber p ((σ.scopes[s]?.map Scope.executor).getD .immediate)
    simp only [Prog.step, hσ₁, ← h.scopes, hτ₁]
    exact ⟨h₁, rfl, rfl, rfl, rfl⟩
  | «scoped» on body =>
    simp only [Prog.step, h.scopes]
    exact ⟨by simpa only [h.scopes] using h.pushScope { executor := on }, rfl, rfl, rfl, rfl⟩
  | joinEach fs => cases fs <;> exact ⟨h, rfl, rfl, rfl, rfl⟩
  | joinScope s own =>
    simp only [Prog.step, h.scopes]
    exact ⟨h.emit _, rfl, rfl, rfl, rfl⟩
  | cancelScope s =>
    simp only [Prog.step, h.scopes]
    exact ⟨h.emit _, rfl, rfl, rfl, rfl⟩
  | outcome f => exact awaitOutcome_inStep f link h
  | permits s n => exact awaitPermits_inStep s n link h
  | instant a =>
    obtain ⟨σ₁, τ₁, calls, v, hσ₁, hτ₁, h₁⟩ := a.perform_inStep h
    simp only [Prog.step, hσ₁, hτ₁]
    exact ⟨h₁, rfl, rfl, rfl, rfl⟩
  | shift on =>
    simp only [Prog.step]
    refine wait_inStep .executor link (fun s σ τ h => ?_) h
    exact ⟨_, _, _, _, rfl, rfl, h⟩
  | sleep d => exact awaitJob_inStep _ _ false link h
  | remote c => exact awaitJob_inStep _ _ true link h
  | awaited p => exact awaitJob_inStep _ _ true link (h.newFuture p)
  | pop c =>
    obtain ⟨σ', τ', taken, hσ, hτ, h'⟩ := h.popToken c
    simp only [Prog.step, hσ, hτ]
    cases taken <;> exact ⟨h', rfl, rfl, rfl, rfl⟩
  | stored i =>
    simp only [Prog.step, h.programs]
    split <;> exact ⟨h, rfl, rfl, rfl, rfl⟩
  | _ => exact ⟨h, rfl, rfl, rfl, rfl⟩

/-- **So is whatever a loop looks at.** -/
theorem Node.step_inStep (n : Node) (e e' : ExecutionId) (link : Link) (h : InStep σ₀ τ₀ σ τ) :
    Turn.InStep σ₀ τ₀ (n.step e link σ) (n.step e' link τ) := by
  cases n with
  | program p => exact p.step_inStep e e' link h
  | result r => exact ⟨h, rfl, rfl, rfl, rfl⟩
  | token t => exact t.begin_inStep link h
  | sweep of ts => exact sweep_inStep of none none [.restore link] ts h
  | release g v x =>
    have hcode := h.bracket_map g (fun br => br.release.code v x) fun _ => rfl
    simp only [Node.step]
    cases hσ : σ.bracket? g with
    | none =>
      cases hτ : τ.bracket? g with
      | none => exact ⟨h, rfl, rfl, rfl, rfl⟩
      | some br => simp [hσ, hτ] at hcode
    | some br =>
      cases hτ : τ.bracket? g with
      | none => simp [hσ, hτ] at hcode
      | some br' =>
        simp only [hσ, hτ, Option.map_some, Option.some.injEq] at hcode
        exact ⟨h, rfl, congrArg Stage.suspending hcode, rfl, rfl⟩
  | gate g => exact awaitGate_inStep g link h

/-! ### Frames -/

theorem Store.collect_inStep (first : Option Error) (r : Result) (h : InStep σ₀ τ₀ σ τ) :
    Agree σ₀ τ₀ (σ.collect first r) (τ.collect first r) := ⟨_, _, _, rfl, rfl, h.emit? _⟩

/-- **A frame does the same with a result where stores show the same.** -/
theorem Frame.resume_inStep (f : Frame) (r : Result) (link : Link) (h : InStep σ₀ τ₀ σ τ) :
    Turn.InStep σ₀ τ₀ (f.resume r link σ) (f.resume r link τ) := by
  cases f with
  | release g =>
    obtain ⟨σ', τ', n, hσ, hτ, h'⟩ := h.takeRelease g (.ofResult r)
    simp only [Frame.resume, hσ, hτ]
    exact ⟨h', rfl, rfl, rfl, rfl⟩
  | openGate g =>
    cases r with
    | error e => exact ⟨h, rfl, rfl, rfl, rfl⟩
    | ok v =>
      obtain ⟨σ', τ', calls, hσ, hτ, h'⟩ := h.openGate g
      simp only [Frame.resume, hσ, hτ]
      exact ⟨h', rfl, rfl, rfl, rfl⟩
  | endBracket g used =>
    cases r with
    | error e => exact ⟨h, rfl, rfl, rfl, rfl⟩
    | ok v =>
      simp only [Frame.resume, h.bracketLink]
      exact ⟨h.dropToken _, rfl, rfl, rfl, rfl⟩
  | sweep of t ts first =>
    obtain ⟨σ', τ', first', hσ, hτ, h'⟩ := collect_inStep first r h
    simp only [Frame.resume, hσ, hτ]
    exact sweep_inStep of first' link [] ts h'
  | endStep s =>
    cases r with
    | error e => exact ⟨h, rfl, rfl, rfl, rfl⟩
    | ok v =>
      simp only [Frame.resume, h.step?]
      split
      · exact ⟨h.modifyStep s _, rfl, rfl, rfl, rfl⟩
      · exact ⟨h, rfl, rfl, rfl, rfl⟩
  | publishCancelled f =>
    cases r with
    | error e => exact ⟨h, rfl, rfl, rfl, rfl⟩
    | ok v =>
      obtain ⟨σ', τ', calls, hσ, hτ, h'⟩ := h.publish f .cancelled
      simp only [Frame.resume, hσ, hτ]
      exact ⟨h', rfl, rfl, rfl, rfl⟩
  | track s =>
    simp only [Frame.resume]
    split
    · exact ⟨h.modifyScope s _, rfl, rfl, rfl, rfl⟩
    · exact ⟨h, rfl, rfl, rfl, rfl⟩
  | restore enclosing => exact ⟨h, rfl, rfl, rfl, rfl⟩
  | attempt => exact ⟨h, rfl, rfl, rfl, rfl⟩
  | _ =>
    simp only [Frame.resume]
    split <;> exact ⟨h, rfl, rfl, rfl, rfl⟩

end Turns

/-! ## Loops -/

section Loops

open Store

variable {l l' : Loop} {σ τ : Store} {s : Stage} {t t' : Turn} {fs fs' : List Frame}

/-- **A loop takes the same turn where stores show the same**, whatever its execution and its sink are. -/
theorem Loop.Takes.inStep (ht : l.Takes σ s t fs) (ht' : l'.Takes τ s t' fs') (hlink : l'.link = l.link)
    (hstack : l'.stack = l.stack) (h : σ.Shows τ) : Turn.InStep σ τ t t' ∧ fs = fs' := by
  cases ht with
  | looking n =>
    cases ht' with
    | looking =>
      rw [hlink]
      exact ⟨n.step_inStep l.id l'.id l.link h.inStep, hstack.symm⟩
  | handing r f fs hcons =>
    cases ht' with
    | handing _ f' fs' hcons' =>
      obtain ⟨rfl, rfl⟩ := List.cons_eq_cons.1 (hcons.symm.trans (hstack.symm.trans hcons'))
      rw [hlink]
      exact ⟨f.resume_inStep r l.link h.inStep, rfl⟩
  | delaying c =>
    cases ht'
    rw [hlink]
    exact ⟨c.turn_inStep l.link h.inStep, hstack.symm⟩
  | suspending c =>
    cases ht'
    rw [hlink]
    exact ⟨c.turn_inStep l.link h.inStep, hstack.symm⟩
  | mapping c =>
    cases ht'
    rw [hlink]
    exact ⟨c.turn_inStep l.link h.inStep, hstack.symm⟩

end Loops

end CancelableEffects
