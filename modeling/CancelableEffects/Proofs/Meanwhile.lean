import CancelableEffects.Proofs.Growth

/-!
# Meanwhile — what others do while a loop waits at a boundary

* `Store.veil`: a store with another state of a boundary, and another past.
* `Store.Blind`, `Turn.Blind`: what is done depends on neither.
* **`Activity.step_blind`**, **`Input.step_blind`**: nothing does that keeps off the boundary.
* `Store.Level`, **`Activity.step_level`**, **`Input.step_level`**: nothing that is done depends on the past.
-/

namespace CancelableEffects

/-- Nothing changes if a boundary is set to the state that it has, or there is none. -/
theorem Boundaries.set_eq_self {bs : Boundaries} {b : BoundaryId} {x : Boundary}
    (hx : ∀ y, bs.cells[b]? = some y → y = x) : bs.set b x = bs := by
  obtain ⟨cells, keepers, aligned⟩ := bs
  have hcells : cells.setIfInBounds b x = cells := by
    refine Array.ext_getElem? fun i => ?_
    rw [Array.getElem?_setIfInBounds]
    split
    · rename_i hi
      subst hi
      cases hcell : cells[b]? with
      | none => rw [if_neg (Nat.not_lt.2 (Array.getElem?_eq_none_iff.1 hcell))]
      | some y => rw [if_pos (Array.getElem?_eq_some_iff.1 hcell).1, hx y hcell]
    · rfl
  simp [set, hcells]

/-- The store with another state of the boundary, and another past. -/
def Store.veil (b : BoundaryId) (x : Boundary) (h : Array Event) (σ : Store) : Store :=
  { σ with boundaries := σ.boundaries.set b x, history := h }

/-- What is done depends neither on the state of the boundary nor on the past, and leaves the state as it is. -/
def Store.Blind (b : BoundaryId) (σ : Store) (f : Store → Next) : Prop :=
  ∀ x h, ∃ h', f (σ.veil b x h) = ((f σ).1.veil b x h', (f σ).2)

/-- So it is with the turn of a loop. -/
def Turn.Blind (b : BoundaryId) (σ : Store) (f : Store → Turn) : Prop :=
  ∀ x h, ∃ h', f (σ.veil b x h) = { f σ with store := (f σ).store.veil b x h' }

section Blind

open Store

variable {σ : Store} {b : BoundaryId}

/-! ## What is the same behind a veil -/

namespace Store

variable (x : Boundary) (h : Array Event)

theorem size_veil : (σ.veil b x h).boundaries.size = σ.boundaries.size := by
  simp [veil, Boundaries.set, Boundaries.size]

theorem isCancelled_veil (link : Link) : (σ.veil b x h).isCancelled link = σ.isCancelled link := rfl

/-- The veil of the state that is there hides the past only. -/
theorem veil_eq_self {x : Boundary} (hx : ∀ y, σ.boundary? b = some y → y = x) (h : Array Event) :
    σ.veil b x h = { σ with history := h } := by
  rw [veil, Boundaries.set_eq_self hx]

theorem veil_veil (x y : Boundary) (h h' : Array Event) : (σ.veil b x h).veil b y h' = σ.veil b y h' := by
  simp [veil, Boundaries.set]

theorem boundary?_veil_self (hb : b < σ.boundaries.size) : (σ.veil b x h).boundary? b = some x := by
  rw [Boundaries.size] at hb
  simp [veil, boundary?, Boundaries.set, hb]

theorem keeper?_veil (b' : BoundaryId) : (σ.veil b x h).keeper? b' = σ.keeper? b' := rfl

theorem step?_veil (s : StepId) : (σ.veil b x h).step? s = σ.step? s := rfl

theorem bracket?_veil (g : BracketId) : (σ.veil b x h).bracket? g = σ.bracket? g := rfl

theorem fork?_veil (k : ForkId) : (σ.veil b x h).fork? k = σ.fork? k := rfl

theorem duel?_veil (k : DuelId) : (σ.veil b x h).duel? k = σ.duel? k := rfl

theorem popToken_veil (link : Link) :
    (σ.veil b x h).popToken link = ((σ.popToken link).1.veil b x h, (σ.popToken link).2) := rfl

theorem newConnection_veil :
    (σ.veil b x h).newConnection = (σ.newConnection.1.veil b x h, σ.newConnection.2) := rfl

theorem boundary?_veil {b' : BoundaryId} (hne : b' ≠ b) : (σ.veil b x h).boundary? b' = σ.boundary? b' := by
  simp [veil, boundary?, Boundaries.set, Array.getElem?_setIfInBounds_ne hne.symm]

theorem setBoundary_veil {b' : BoundaryId} (hne : b' ≠ b) (y : Boundary) :
    (σ.veil b x h).setBoundary b' y = (σ.setBoundary b' y).veil b x h := by
  simp [veil, setBoundary, Boundaries.set, Array.setIfInBounds_comm x y hne.symm]

theorem newBoundary_veil (hb : b ≠ σ.boundaries.size) (k : Keeper) :
    (σ.veil b x h).newBoundary k = ((σ.newBoundary k).1.veil b x h, σ.boundaries.size) := by
  have hcells : (σ.boundaries.cells.setIfInBounds b x).push .registering =
      (σ.boundaries.cells.push .registering).setIfInBounds b x := by
    refine Array.ext_getElem? fun i => ?_
    simp only [Boundaries.size] at hb
    grind
  simp [newBoundary, veil, Boundaries.set, Boundaries.push, Boundaries.size, hcells]

theorem openStep_veil (hb : b ≠ σ.boundaries.size) (source : Source) (link : Link) :
    (σ.veil b x h).openStep source link = ((σ.openStep source link).1.veil b x h, (σ.openStep source link).2) := by
  simp only [openStep, newBoundary_veil x h hb]
  rfl

end Store

/-! ## Turns -/

theorem Code.move_veil {α : Type} (c : Code Prog α) (x : Boundary) (h : Array Event) :
    ∃ h', c.move (σ.veil b x h) = (((c.move σ).1.1.veil b x h', (c.move σ).1.2), (c.move σ).2) := by
  cases c <;> exact ⟨_, rfl⟩

theorem Code.turn_blind {α : Type} (again : Code Prog α → Stage) (done : Except String α → Stage)
    (c : Code Prog α) (link : Link) : Turn.Blind b σ (c.turn again done link) := fun x h => by
  obtain ⟨h', hmove⟩ := c.move_veil (σ := σ) (b := b) x h
  exact ⟨h', by simp only [Code.turn, hmove]⟩

/-- A loop opens a step that it waits for. -/
theorem Store.wait_blind (hb : b ≠ σ.boundaries.size) (source : Source) (link : Link)
    {register : StepId → Store → Next × Cleanup}
    (hregister : ∀ s (σ : Store) x h, ∃ h', register s (σ.veil b x h) =
      (((register s σ).1.1.veil b x h', (register s σ).1.2), (register s σ).2)) :
    Turn.Blind b σ fun σ => σ.wait source link register := fun x h => by
  obtain ⟨h', hr⟩ := hregister σ.boundaries.size (σ.openStep source link).1 x h
  refine ⟨h', ?_⟩
  simp only [wait, openStep_veil x h hb, size_veil, hr]

theorem Store.awaitOutcome_blind (hb : b ≠ σ.boundaries.size) (f : FiberId) (link : Link) :
    Turn.Blind b σ fun σ => σ.awaitOutcome f link := by
  refine wait_blind hb (.outcome f) link fun s σ x h => ?_
  have hsame : (σ.veil b x h).listen f (.step s) =
    ((σ.listen f (.step s)).1.veil b x h, (σ.listen f (.step s)).2) := rfl
  rw [hsame]
  generalize σ.listen f (.step s) = y
  obtain ⟨σ', _ | _ | _⟩ := y <;> exact ⟨h, rfl⟩

theorem Store.awaitPermits_blind (hb : b ≠ σ.boundaries.size) (i : SemaphoreId) (n : Nat) (link : Link) :
    Turn.Blind b σ fun σ => σ.awaitPermits i n link :=
  wait_blind hb (.permits i) link fun _ _ _ h => ⟨h, rfl⟩

theorem Store.awaitGate_blind (hb : b ≠ σ.boundaries.size) (g : BracketId) (link : Link) :
    Turn.Blind b σ fun σ => σ.awaitGate g link :=
  wait_blind hb (.gate g) link fun _ _ _ h => ⟨h, rfl⟩

theorem Store.awaitJob_blind (hb : b ≠ σ.boundaries.size) {job : StepId → Store → Job}
    (hjob : ∀ s (σ : Store) x h, job s (σ.veil b x h) = job s σ) (started : Bool) (link : Link) :
    Turn.Blind b σ fun σ => σ.awaitJob job started link :=
  wait_blind hb .job link fun s σ x h => ⟨h, by rw [hjob]; rfl⟩

theorem Store.fork_blind (hb : b ≠ σ.boundaries.size) (kind : ForkKind) (p q : Prog) (on : Executor)
    (link : Link) : Turn.Blind b σ fun σ => σ.fork kind p q on link := fun x h => by
  have hboundary := @newBoundary_veil σ.newConnection.1.newConnection.1 b x h hb
  simp only [fork, newConnection_veil, hboundary]
  exact ⟨h, rfl⟩

theorem Cleanup.begin_blind (c : Cleanup) (link : Link) : Turn.Blind b σ (c.begin link) := fun x h => by
  cases c with
  | program i =>
    refine ⟨h, ?_⟩
    have hsame : (σ.veil b x h).programs = σ.programs := rfl
    simp only [Cleanup.begin, hsame]
    split <;> rfl
  | _ => exact ⟨h, rfl⟩

theorem Token.begin_blind (t : Token) (link : Link) : Turn.Blind b σ (t.begin link) := fun x h => by
  cases t with
  | cleanup c => exact c.begin_blind link x h
  | connection c =>
    obtain ⟨h', hcancel⟩ : ∃ h', (σ.veil b x h).cancel c = ((σ.cancel c).1.veil b x h', (σ.cancel c).2) :=
      ⟨_, rfl⟩
    simp only [Token.begin, hcancel]
    generalize σ.cancel c = y
    obtain ⟨σ', _ | ts⟩ := y <;> exact ⟨h', rfl⟩
  | fiber f =>
    have hsame : (σ.veil b x h).fiberLink f = σ.fiberLink f := rfl
    simp only [Token.begin, hsame]
    split <;> exact ⟨_, rfl⟩
  | bracket g => exact ⟨_, rfl⟩
  | step s => exact ⟨_, rfl⟩
  | _ => exact ⟨_, rfl⟩

theorem Store.sweep_blind (of : Link) (first : Option Error) (link : Link) (below : List Frame) (ts : List Token) :
    Turn.Blind b σ fun σ => σ.sweep of first link below ts := fun x h => by
  cases ts <;> exact ⟨h, rfl⟩

theorem Prog.step_blind (p : Prog) (hb : b ≠ σ.boundaries.size) (e : ExecutionId) (link : Link) :
    Turn.Blind b σ (p.step e link) := fun x h => by
  cases p with
  | connected register =>
    simp only [Prog.step, newBoundary_veil x h hb]
    exact ⟨_, rfl⟩
  | cancelable register =>
    simp only [Prog.step, openStep_veil x h hb, size_veil]
    exact ⟨_, rfl⟩
  | bracket acquire use release =>
    simp only [Prog.step, newBoundary_veil x h hb]
    exact ⟨_, rfl⟩
  | race p q on => exact fork_blind hb .first p q on link x h
  | both p q on f =>
    obtain ⟨h', hfork⟩ := fork_blind hb .both p q on link x h
    exact ⟨h', congrArg (fun t : Turn => { t with frames := [.combine f] }) hfork⟩
  | racePair p q on =>
    simp only [Prog.step, newBoundary_veil x h hb]
    exact ⟨_, rfl⟩
  | joinEach fs => cases fs <;> exact ⟨h, rfl⟩
  | outcome f => exact awaitOutcome_blind hb f link x h
  | permits s n => exact awaitPermits_blind hb s n link x h
  | shift on =>
    exact @wait_blind σ b hb .executor link (fun s σ => ((σ, [.execute on (.resume s)]), .idle))
      (fun _ _ _ h => ⟨h, rfl⟩) x h
  | sleep d => exact awaitJob_blind hb (fun _ _ _ _ => rfl) false link x h
  | remote c => exact awaitJob_blind hb (fun _ _ _ _ => rfl) true link x h
  | awaited p =>
    exact @awaitJob_blind (σ.newFuture p).1 b hb (fun s _ => .poll (σ.newFuture p).2 s) (fun _ _ _ _ => rfl) true
      link x h
  | pop c =>
    simp only [Prog.step, popToken_veil]
    generalize σ.popToken c = y
    obtain ⟨σ', _ | t⟩ := y <;> exact ⟨h, rfl⟩
  | stored i =>
    refine ⟨h, ?_⟩
    have hsame : (σ.veil b x h).programs = σ.programs := rfl
    simp only [Prog.step, hsame]
    split <;> rfl
  | instant a => cases a <;> exact ⟨_, rfl⟩
  | _ => exact ⟨_, rfl⟩

theorem Node.step_blind (n : Node) (hb : b ≠ σ.boundaries.size) (e : ExecutionId) (link : Link) :
    Turn.Blind b σ (n.step e link) := fun x h => by
  cases n with
  | program p => exact p.step_blind hb e link x h
  | result r => exact ⟨h, rfl⟩
  | token t => exact t.begin_blind link x h
  | sweep of ts => exact sweep_blind of none none [.restore link] ts x h
  | release g v y =>
    simp only [Node.step, bracket?_veil]
    split <;> exact ⟨h, rfl⟩
  | gate g => exact awaitGate_blind hb g link x h

theorem Frame.resume_blind (f : Frame) (r : Result) (link : Link) :
    Turn.Blind b σ (f.resume r link) := fun x h => by
  cases f with
  | sweep of t ts first =>
    obtain ⟨h', hcollect⟩ : ∃ h', (σ.veil b x h).collect first r =
      ((σ.collect first r).1.veil b x h', (σ.collect first r).2) := ⟨_, rfl⟩
    simp only [Frame.resume, hcollect]
    exact sweep_blind of _ link [] ts x h'
  | endStep s =>
    cases r with
    | error e => exact ⟨h, rfl⟩
    | ok v =>
      simp only [Frame.resume, step?_veil]
      split <;> exact ⟨h, rfl⟩
  | release g => exact ⟨_, rfl⟩
  | restore enclosing => exact ⟨h, rfl⟩
  | attempt => exact ⟨h, rfl⟩
  | openGate g => cases r <;> exact ⟨h, rfl⟩
  | endBracket g used => cases r <;> exact ⟨h, rfl⟩
  | publishCancelled f => cases r <;> exact ⟨h, rfl⟩
  | _ =>
    simp only [Frame.resume]
    split <;> exact ⟨h, rfl⟩

/-! ## Calls -/

theorem Turn.Blind.on {f : Store → Turn} (hf : Turn.Blind b σ f) (l : Loop) :
    Store.Blind b σ fun σ => (f σ).on l := fun x h => by
  obtain ⟨h', hturn⟩ := hf x h
  exact ⟨h', by simp only [hturn, Turn.on]⟩

theorem Loop.step_blind (l : Loop) (s : Stage) (hs : s ≠ .leaving b) (hb : b ≠ σ.boundaries.size) :
    Store.Blind b σ (l.step s) := fun x h => by
  cases s with
  | looking n =>
    by_cases hc : σ.isCancelled l.link = true
    · exact ⟨h, by simp only [Loop.step, isCancelled_veil, hc, if_true]⟩
    · simp only [Loop.step, isCancelled_veil, hc]
      exact (n.step_blind hb l.id l.link).on l x h
  | handing r =>
    simp only [Loop.step]
    split
    · exact ⟨h, rfl⟩
    · exact (Frame.resume_blind _ r l.link).on _ x h
  | delaying c => exact (c.turn_blind .delaying .delayed l.link).on l x h
  | suspending c => exact (c.turn_blind .suspending .suspended l.link).on l x h
  | mapping c => exact (c.turn_blind .mapping .mapped l.link).on l x h
  | leaving b' =>
    have hne : b' ≠ b := fun hb' => hs (hb' ▸ rfl)
    simp only [Loop.step, leave, boundary?_veil x h hne]
    split
    · exact ⟨h, by rw [setBoundary_veil x h hne]⟩
    · exact ⟨_, by rw [setBoundary_veil x h hne]; rfl⟩
    · exact ⟨h, rfl⟩

theorem Code.advance_blind {α : Type} (again : Code Prog α → Activity) {done : Except String α → Store → Next}
    (hdone : ∀ o (σ : Store), Store.Blind b σ (done o)) (c : Code Prog α) :
    Store.Blind b σ (c.advance again done) := fun x h => by
  obtain ⟨h', hmove⟩ := c.move_veil (σ := σ) (b := b) x h
  simp only [Code.advance, hmove]
  generalize c.move σ = y
  obtain ⟨⟨σ', calls⟩, o | c'⟩ := y
  · exact hdone o σ' x h'
  · exact ⟨h', rfl⟩

theorem Sink.receive_blind (k : Sink) (r : Result) : Store.Blind b σ (k.receive r) := fun x h => by
  cases k with
  | observer i =>
    have hsame : (σ.veil b x h).runs = σ.runs := rfl
    simp only [Sink.receive, report, hsame]
    split
    · exact ⟨h, rfl⟩
    · rename_i run _
      have hsilences : (σ.veil b x h).silences run r = σ.silences run r := by cases r <;> rfl
      rw [hsilences]
      split <;> exact ⟨_, rfl⟩
  | fiber f =>
    cases r with
    | ok v => exact ⟨_, rfl⟩
    | error e =>
      have hsame : (σ.veil b x h).isCancelled ((σ.veil b x h).fiberLink f) = σ.isCancelled (σ.fiberLink f) :=
        rfl
      simp only [Sink.receive, endFiber, hsame]
      split <;> exact ⟨_, rfl⟩
  | acquired g =>
    simp only [Sink.receive, endAcquire, bracket?_veil]
    cases σ.bracket? g with
    | none => exact ⟨h, rfl⟩
    | some br =>
      cases r with
      | error e => exact ⟨h, rfl⟩
      | ok v =>
        have hcancelled : ∀ f, ((σ.veil b x h).modifyBracket g f).isCancelled br.link =
          (σ.modifyBracket g f).isCancelled br.link := fun _ => rfl
        dsimp only
        rw [hcancelled]
        split <;> exact ⟨_, rfl⟩
  | side k y =>
    simp only [Sink.receive, endSide, fork?_veil]
    cases σ.fork? k with
    | none => exact ⟨h, rfl⟩
    | some f =>
      dsimp only
      split
      · exact ⟨h, rfl⟩
      · split <;> (try split) <;> exact ⟨h, rfl⟩
  | lateRelease g =>
    have hsame : ∀ o : Option Event, ((σ.veil b x h).emit? o).bracket? g = (σ.emit? o).bracket? g := fun o => by
      cases o <;> rfl
    simp only [Sink.receive, hsame]
    cases r <;> dsimp only <;> split <;> exact ⟨_, rfl⟩
  | settle k y =>
    simp only [Sink.receive, fork?_veil]
    split <;> exact ⟨h, rfl⟩
  | fail k cause =>
    simp only [Sink.receive, duel?_veil]
    split <;> exact ⟨h, rfl⟩
  | discard => exact ⟨h, rfl⟩
  | warn w => exact ⟨_, rfl⟩

/-! ### Futures, jobs and tasks -/

theorem Store.startFuture_blind (f : FutureId) (waker : Option JobId) :
    Store.Blind b σ fun σ => σ.startFuture f waker := fun x h => by
  have hsame : (σ.veil b x h).futures = σ.futures := rfl
  simp only [startFuture, hsame]
  split <;> exact ⟨h, rfl⟩

theorem Store.dropFuture_blind (f : FutureId) : Store.Blind b σ fun σ => σ.dropFuture f := fun x h => by
  have hsame : (σ.veil b x h).futures = σ.futures := rfl
  have hlink : ∀ y, (σ.veil b x h).futureLink y = σ.futureLink y := fun _ => rfl
  simp only [dropFuture, hsame, hlink]
  split
  · exact ⟨h, rfl⟩
  · split <;> exact ⟨_, rfl⟩

theorem Job.step_blind (j : JobId) (job : Job) : Store.Blind b σ (job.step j) := fun x h => by
  cases job with
  | timer due s => exact ⟨h, rfl⟩
  | call c s => exact ⟨h, rfl⟩
  | poll f s =>
    obtain ⟨h', hstart⟩ := startFuture_blind (σ := σ) (b := b) f (some j) x h
    exact ⟨h', by simp only [Job.step, hstart]⟩
  | drop f => exact dropFuture_blind (σ := σ.setJob j .over) f x h
  | «over» => exact ⟨h, rfl⟩

theorem Task.step_blind (t : Task) : Store.Blind b σ t.step := fun x h => by
  cases t with
  | job j =>
    have hsame : (σ.veil b x h).jobs = σ.jobs := rfl
    simp only [Task.step, hsame]
    split
    · exact Job.step_blind j _ x h
    · exact ⟨h, rfl⟩
  | _ => exact ⟨h, rfl⟩

theorem Executor.submit_blind (on : Executor) (t : Task) : Store.Blind b σ (on.submit t) := fun x h => by
  cases on with
  | immediate => exact t.step_blind x h
  | _ => exact ⟨h, rfl⟩

/-! ### All calls -/

/-- The call is neither about the boundary nor a step of the execution, and does not look whether a future has
ended. A future is looked at while nothing is being called, and not while the execution is at work. -/
def Activity.KeepsOff (b : BoundaryId) (e : ExecutionId) : Activity → Prop
  | .work s l => s ≠ .leaving b ∧ l.id ≠ e
  | .complete c _ => c ≠ .boundary b
  | .polling _ => False
  | _ => True

theorem Completer.complete_blind (c : Completer) (hc : c ≠ .boundary b) (r : Result) :
    Store.Blind b σ (c.complete r) := fun x h => by
  cases c with
  | boundary b' =>
    have hne : b' ≠ b := fun hb' => hc (hb' ▸ rfl)
    simp only [Completer.complete, completeBoundary, boundary?_veil x h hne]
    split
    · exact ⟨h, by rw [setBoundary_veil x h hne]⟩
    · exact ⟨_, by rw [setBoundary_veil x h hne]; rfl⟩
    · exact ⟨_, rfl⟩
  | callback b' =>
    simp only [Completer.complete, completeCallback, keeper?_veil]
    split <;> exact ⟨h, rfl⟩
  | step s source =>
    simp only [Completer.complete, completeStep, step?_veil]
    split
    · split <;> exact ⟨h, rfl⟩
    · exact ⟨h, rfl⟩

theorem Store.endDuel_blind (k : DuelId) (side : Side) (o : Outcome Value) :
    Store.Blind b σ fun σ => σ.endDuel k side o := fun x h => by
  simp only [endDuel, duel?_veil]
  split
  · exact ⟨h, rfl⟩
  · split
    · exact ⟨h, rfl⟩
    · cases o <;> exact ⟨h, rfl⟩

/-- **Who keeps off the boundary does the same behind a veil.** -/
theorem Activity.step_blind {e : ExecutionId} (a : Activity) (ha : a.KeepsOff b e) (hb : b ≠ σ.boundaries.size) :
    Store.Blind b σ a.step := fun x h => by
  cases a with
  | start n link k => exact ⟨h, rfl⟩
  | work s l => exact l.step_blind s ha.1 hb x h
  | registering c b' =>
    refine c.advance_blind _ (fun o σ x h => ?_) x h
    cases o <;> exact ⟨h, rfl⟩
  | registeringStep c s =>
    refine c.advance_blind _ (fun o σ x h => ?_) x h
    cases o <;> exact ⟨h, rfl⟩
  | fillSlot s c =>
    simp only [Activity.step, Store.fillSlot, step?_veil]
    split <;> exact ⟨h, rfl⟩
  | deliver e k r => exact k.receive_blind r x h
  | complete c r => exact c.complete_blind ha r x h
  | notify f l o =>
    cases l with
    | step s => exact ⟨h, rfl⟩
    | duel k y => exact endDuel_blind k y o x h
  | listen f l =>
    have hsame : (σ.veil b x h).listen f l = ((σ.listen f l).1.veil b x h, (σ.listen f l).2) := rfl
    exact ⟨h, by simp only [Activity.step, hsame]⟩
  | execute on t => exact on.submit_blind t x h
  | startRight left q on parent k => exact ⟨_, rfl⟩
  | tie left right parent k => exact ⟨h, rfl⟩
  | calling c s =>
    refine c.advance_blind _ (fun o σ x h => ?_) x h
    cases o <;> exact ⟨h, rfl⟩
  | polling j => exact ha.elim

/-- **So does the outside world.** -/
theorem Input.step_blind (i : Input) : Store.Blind b σ i.step := fun x h => by
  cases i with
  | move c =>
    obtain ⟨h', hmove⟩ := c.move_veil (σ := σ) (b := b) x h
    exact ⟨h', by simp only [Input.step, hmove]⟩
  | run p label cancelable => cases cancelable <;> exact ⟨h, rfl⟩
  | tick queue place =>
    have hsame : (σ.veil b x h).queue queue = σ.queue queue := rfl
    simp only [Input.step, hsame]
    split <;> exact ⟨h, rfl⟩
  | ready place =>
    have hsame : (σ.veil b x h).ready = σ.ready := rfl
    simp only [Input.step, hsame]
    split <;> exact ⟨h, rfl⟩
  | startFuture f => exact startFuture_blind f none x h
  | dropFuture f => exact dropFuture_blind f x h
  | _ => exact ⟨h, rfl⟩

/-- What is done behind a veil leaves the state of the boundary as it is. -/
theorem Store.Blind.boundary? {f : Store → Next} (hf : Store.Blind b σ f) {x : Boundary}
    (hx : σ.boundary? b = some x) (hb : b < (f σ).1.boundaries.size) : (f σ).1.boundary? b = some x := by
  obtain ⟨h, hsame⟩ := hf x σ.history
  rw [veil_eq_self fun y hy => Option.some.inj (hy.symm.trans hx)] at hsame
  rw [show f σ = _ from hsame]
  exact boundary?_veil_self x h hb

end Blind

/-! ## Stores that differ in the past -/

/-- The stores differ in the past at most. -/
def Store.Level (σ τ : Store) : Prop := ∃ h, σ = { τ with history := h }

/-- The same is done in both stores, and leads to stores that differ in the past at most. -/
def Next.Level (y z : Next) : Prop := y.1.Level z.1 ∧ y.2 = z.2

section Level

variable {σ τ : Store}

theorem Store.Level.symm (h : σ.Level τ) : τ.Level σ := by
  obtain ⟨h, rfl⟩ := h
  exact ⟨τ.history, rfl⟩

/-- What depends on the state of no boundary with a great number does not depend on the past. -/
theorem Store.Level.of_blind {f : Store → Next} (n : Nat)
    (hf : ∀ b, n ≤ b → b ≠ τ.boundaries.size → Store.Blind b τ f) (h : σ.Level τ) :
    Next.Level (f σ) (f τ) := by
  obtain ⟨h, rfl⟩ := h
  let b := n + (τ.boundaries.size + 1)
  let x := ((f τ).1.boundary? b).getD .registering
  obtain ⟨h', hsame⟩ := hf b (Nat.le_add_right ..) (by omega) x h
  have hout : τ.boundary? b = none := Array.getElem?_eq_none (by rw [← Boundaries.size]; omega)
  rw [veil_eq_self fun y hy => by rw [hout] at hy; cases hy] at hsame
  rw [hsame, veil_eq_self fun y hy => by simp [x, hy]]
  exact ⟨⟨h', rfl⟩, rfl⟩

/-- **Nothing that is called depends on the past.** -/
theorem Activity.step_level (a : Activity) (h : σ.Level τ) : Next.Level (a.step σ) (a.step τ) := by
  have hoff : (∃ n e, ∀ b, n ≤ b → a.KeepsOff b e) ∨ ∃ j, a = .polling j := by
    cases a with
    | work s l =>
      have hid : l.id ≠ l.id + 1 := (Nat.succ_ne_self _).symm
      obtain ⟨n, hn⟩ : ∃ n, ∀ b, n ≤ b → s ≠ .leaving b := by
        cases s with
        | leaving b' => exact ⟨b' + 1, fun b hb h => by cases h; exact Nat.not_succ_le_self _ hb⟩
        | _ => exact ⟨0, fun _ _ h => by cases h⟩
      exact .inl ⟨n, l.id + 1, fun b hb => ⟨hn b hb, hid⟩⟩
    | complete c r =>
      obtain ⟨n, hn⟩ : ∃ n, ∀ b, n ≤ b → c ≠ .boundary b := by
        cases c with
        | boundary b' => exact ⟨b' + 1, fun b hb h => by cases h; exact Nat.not_succ_le_self _ hb⟩
        | _ => exact ⟨0, fun _ _ h => by cases h⟩
      exact .inl ⟨n, 0, hn⟩
    | polling j => exact .inr ⟨j, rfl⟩
    | _ => exact .inl ⟨0, 0, fun _ _ => trivial⟩
  obtain ⟨n, e, hn⟩ | ⟨j, rfl⟩ := hoff
  · exact Store.Level.of_blind n (fun b hb hsize => a.step_blind (hn b hb) hsize) h
  · obtain ⟨h, rfl⟩ := h
    have hresult : ∀ f, ({ τ with history := h } : Store).futureResult f = τ.futureResult f := fun _ => rfl
    simp only [Activity.step, Store.poll, hresult]
    split
    · split <;> exact ⟨⟨h, rfl⟩, rfl⟩
    · exact ⟨⟨h, rfl⟩, rfl⟩

/-- **Nor does what the outside world does.** -/
theorem Input.step_level (i : Input) (h : σ.Level τ) : Next.Level (i.step σ) (i.step τ) :=
  Store.Level.of_blind 0 (fun _ _ _ => i.step_blind) h

end Level

end CancelableEffects
