import CancelableEffects.Proofs.Alike

/-!
# Plain steps — steps that leave brackets alone

* `Prog.Plain`, `Node.Plain`, `Frame.Plain`, `Sink.Plain`, `Stage.Plain`, `Activity.Plain`: what has
  nothing to do with a bracket.
* `Next.Plain`, `Turn.Plain`: steps that leave brackets alone.
* **`Activity.step_plain`**, **`Input.step_plain`**: ordinary calls and inputs take such steps, once
  they may have dropped the newest token of a connection.
* **`Node.step_plain`**, **`Frame.resume_plain`**: ordinary nodes and frames take such turns.
-/

namespace CancelableEffects

/-! ## Plain things -/

/-- Something other than a bracket completes the boundary. -/
def Store.KeptOtherwise (b : BoundaryId) (σ : Store) : Prop :=
  ∃ x, σ.keeper? b = some x ∧ ∀ br, x ≠ .bracket br

/-- The node neither is a release nor carries the token of a bracket or the tokens of a
connection. -/
def Node.Plain : Node → Prop
  | .token t => t.bracket? = none
  | .sweep of ts => of = none ∧ ∀ t ∈ ts, t.bracket? = none
  | .release _ _ _ => False
  | _ => True

/-- The frame neither belongs to the owner of an open bracket, nor opens a gate, nor carries the
token of a bracket or the tokens of a connection. -/
def Frame.Plain : Frame → Prop
  | .use _ _ | .release _ | .openGate _ => False
  | .sweep of _ ts _ => of = none ∧ ∀ t ∈ ts, t.bracket? = none
  | _ => True

/-- The sink is not about the acquisition of a bracket. -/
def Sink.Plain : Sink → Prop
  | .acquired _ | .lateRelease _ => False
  | _ => True

/-- The loop does not look at anything about a bracket, and does not come to its boundary. -/
def Stage.Plain (σ : Store) : Stage → Prop
  | .looking n => n.Plain
  | .leaving b => σ.KeptOtherwise b
  | _ => True

/-- The call has nothing to do with a bracket, and no loop is at work in it. -/
def Activity.Plain (σ : Store) : Activity → Prop
  | .start n _ k => n.Plain ∧ k.Plain
  | .work _ _ | .deliver _ _ _ => False
  | .complete (.boundary b) _ => σ.KeptOtherwise b
  | _ => True

/-- The step leaves brackets alone. -/
structure Next.Plain (σ : Store) (next : Next) : Prop where
  alike : σ.Alike next.1
  calls : ∀ a ∈ next.2, a.Plain next.1

/-- The turn leaves brackets alone. -/
structure Turn.Plain (σ : Store) (t : Turn) : Prop where
  alike : σ.Alike t.store
  calls : ∀ a ∈ t.calls, a.Plain t.store
  stage : t.stage.Plain t.store
  frames : ∀ f ∈ t.frames, f.Plain

/-! ## Calls -/

section Calls

variable {σ σ' : Store}

theorem Store.KeptOtherwise.of_alike (h : σ.Alike σ') {b : BoundaryId} (hb : σ.KeptOtherwise b) :
    σ'.KeptOtherwise b := by
  obtain ⟨x, hx, hne⟩ := hb
  obtain ⟨x', hx', hlike⟩ := h.old b x hx
  refine ⟨x', hx', fun br hbr => ?_⟩
  obtain ⟨br', hbr'⟩ := hlike.bracket_iff.1 ⟨br, hbr⟩
  exact hne br' hbr'

theorem Store.keptOtherwise_step {s : StepId} {st : Step} (h : σ.step? s = some st) :
    σ.KeptOtherwise s := by
  unfold Store.step? at h
  split at h
  · exact ⟨_, ‹_›, by simp⟩
  · cases h

theorem Store.keptOtherwise_fork {k : ForkId} {f : Fork} (h : σ.fork? k = some f) :
    σ.KeptOtherwise k := by
  unfold Store.fork? at h
  split at h
  · exact ⟨_, ‹_›, by simp⟩
  · cases h

theorem Store.keptOtherwise_duel {k : DuelId} {d : Duel} (h : σ.duel? k = some d) :
    σ.KeptOtherwise k := by
  unfold Store.duel? at h
  split at h
  · exact ⟨_, ‹_›, by simp⟩
  · cases h

theorem Store.plain_push (link : Link) {t : Token} (ht : t.bracket? = none) (σ σ' : Store) :
    ∀ a ∈ (σ.push link t).2, a.Plain σ' := by
  unfold Store.push
  split <;> simp [Activity.Plain, Node.Plain, Sink.Plain, ht]

theorem Store.plain_completeSteps (source : Source) (ss : List StepId) (σ : Store) :
    ∀ a ∈ Store.completeSteps source ss, a.Plain σ := by
  intro a ha
  obtain ⟨s, -, rfl⟩ := List.mem_map.1 ha
  trivial

theorem Store.plain_publish (f : FiberId) (o : Outcome Value) (σ σ' : Store) :
    ∀ a ∈ (σ.publish f o).2, a.Plain σ' := by
  intro a ha
  obtain ⟨l, -, rfl⟩ := List.mem_map.1 ha
  trivial

end Calls

/-! ## Closures and completions -/

/-- Where the newest token of some connection may have been dropped first. -/
def Store.Drops (σ σ' : Store) : Prop := σ' = σ ∨ ∃ link, σ' = σ.dropToken link

/-- A plain step that may drop a token first. -/
def Next.PlainOnceDropped (σ : Store) (next : Next) : Prop :=
  ∃ σ', σ.Drops σ' ∧ next.Plain σ'

theorem Next.Plain.onceDropped {σ : Store} {next : Next} (h : next.Plain σ) :
    next.PlainOnceDropped σ := ⟨σ, .inl rfl, h⟩

theorem Code.move_plain {α : Type} (c : Code Prog α) (σ : Store) : Next.Plain σ (c.move σ).1 := by
  cases c with
  | launch p next =>
    exact ⟨.refl σ, by simp [Code.move, Activity.Plain, Node.Plain, Sink.Plain]⟩
  | answer k r next =>
    refine ⟨.of_eq rfl rfl rfl, ?_⟩
    simp only [Code.move, Store.answer]
    split <;> simp [Activity.Plain]
  | push link p next =>
    have h : σ.Alike (σ.keep p).1 := .of_eq rfl rfl rfl
    exact ⟨h.trans (.push link rfl), Store.plain_push _ rfl _ _⟩
  | _ => exact ⟨.of_eq rfl rfl rfl, by simp [Code.move]⟩

theorem Code.advance_plain {α : Type} (again : Code Prog α → Activity)
    {done : Except String α → Store → Next} (ha : ∀ c σ, (again c).Plain σ)
    (hd : ∀ r σ, Next.Plain σ (done r σ)) (c : Code Prog α) (σ : Store) :
    Next.Plain σ (c.advance again done σ) := by
  have hm := c.move_plain σ
  unfold Code.advance
  generalize c.move σ = m at hm
  obtain ⟨⟨σ', calls⟩, r | c'⟩ := m
  · have := hd r σ'
    exact ⟨hm.alike.trans this.alike, this.calls⟩
  · refine ⟨hm.alike, ?_⟩
    simp only [List.mem_append, List.mem_singleton]
    rintro a (h | rfl)
    · exact hm.calls a h
    · exact ha c' σ'

theorem Store.fillSlot_plain (s : StepId) (c : Cleanup) (σ : Store) :
    Next.Plain σ (σ.fillSlot s c) := by
  unfold Store.fillSlot
  split
  · exact ⟨.refl σ, by simp [Activity.Plain, Node.Plain, Sink.Plain, Token.bracket?]⟩
  · exact ⟨.modifyStep s fun _ => ⟨rfl, rfl⟩, by simp⟩

theorem Store.completeCallback_plain (b : BoundaryId) (r : Result) (σ : Store) :
    Next.Plain σ (σ.completeCallback b r) := by
  unfold Store.completeCallback
  split
  · rename_i h
    exact ⟨.refl σ, by simpa [Activity.Plain] using ⟨_, h, by simp⟩⟩
  · exact ⟨.refl σ, by simp⟩

theorem Store.completeStep_plain (s : StepId) (source : Source) (r : Result) (σ : Store) :
    Next.PlainOnceDropped σ (σ.completeStep s source r) := by
  unfold Store.completeStep
  split
  · rename_i st h
    split
    · have hlike : (σ.dropToken st.link).Alike
          ((σ.modifyStep s fun st => { st with live := false }).dropToken st.link) :=
        .modifyStep s fun _ => ⟨rfl, rfl⟩
      refine ⟨σ.dropToken st.link, .inr ⟨_, rfl⟩, hlike, ?_⟩
      have hkept : (σ.dropToken st.link).KeptOtherwise s := Store.keptOtherwise_step h
      simpa [Activity.Plain] using hkept.of_alike hlike
    · exact Next.Plain.onceDropped ⟨.refl σ, by simp⟩
  · exact Next.Plain.onceDropped ⟨.refl σ, by simp⟩

/-! ## Sinks -/

theorem Store.endSide_plain (k : ForkId) (side : Side) (r : Result) (σ : Store) :
    Next.PlainOnceDropped σ (σ.endSide k side r) := by
  have hsettle : ∀ f loser r, Next.PlainOnceDropped σ (σ.settle k f loser r) := fun f loser r =>
    ⟨σ.dropToken f.parent, .inr ⟨_, rfl⟩, .modifyFork k fun _ => ⟨rfl, rfl, rfl, rfl⟩,
      by simp [Store.settle, Activity.Plain, Node.Plain, Sink.Plain, Token.bracket?]⟩
  have hboth : ∀ f a b, σ.fork? k = some f →
      Next.PlainOnceDropped σ (σ.settleBoth k f a b) := fun f a b h => by
    have hlike : (σ.dropToken f.parent).Alike
        ((σ.modifyFork k fun f => { f with settled := true }).dropToken f.parent) :=
      .modifyFork k fun _ => ⟨rfl, rfl, rfl, rfl⟩
    have hkept : (σ.dropToken f.parent).KeptOtherwise k := Store.keptOtherwise_fork h
    refine ⟨σ.dropToken f.parent, .inr ⟨_, rfl⟩, hlike, ?_⟩
    simpa [Store.settleBoth, Activity.Plain] using hkept.of_alike hlike
  have hvalue : ∀ f : Fork → Fork, (∀ x, (f x).kind = x.kind ∧ (f x).parent = x.parent ∧
      (f x).left = x.left ∧ (f x).right = x.right) →
      Next.PlainOnceDropped σ (σ.modifyFork k f, []) := fun f hf =>
    Next.Plain.onceDropped ⟨.modifyFork k hf, by simp⟩
  unfold Store.endSide
  split
  · exact Next.Plain.onceDropped ⟨.refl σ, by simp⟩
  · rename_i f h
    split
    · exact Next.Plain.onceDropped ⟨.refl σ, by simp⟩
    · dsimp only
      split
      · exact hsettle _ _ _
      · exact hsettle _ _ _
      · split
        · exact hboth _ _ _ h
        · exact hboth _ _ _ h
        · exact hvalue _ fun _ => ⟨rfl, rfl, rfl, rfl⟩
        · exact hvalue _ fun _ => ⟨rfl, rfl, rfl, rfl⟩

theorem Store.endDuel_plain (k : DuelId) (side : Side) (o : Outcome Value) (σ : Store) :
    Next.PlainOnceDropped σ (σ.endDuel k side o) := by
  unfold Store.endDuel
  split
  · exact Next.Plain.onceDropped ⟨.refl σ, by simp⟩
  · rename_i d h
    split
    · exact Next.Plain.onceDropped ⟨.refl σ, by simp⟩
    · have hlike : (σ.dropToken d.parent).Alike
          ((σ.modifyDuel k (Option.map fun d => { d with settled := true })).dropToken d.parent) :=
        .modifyDuel k _
      have hkept : (σ.dropToken d.parent).KeptOtherwise k := Store.keptOtherwise_duel h
      refine ⟨σ.dropToken d.parent, .inr ⟨_, rfl⟩, ?_⟩
      dsimp only
      split
      · refine ⟨hlike, ?_⟩
        simpa [Activity.Plain] using hkept.of_alike hlike
      · exact ⟨hlike, by simp [Activity.Plain, Node.Plain, Sink.Plain, Token.bracket?]⟩
      · exact ⟨hlike, by simp [Activity.Plain, Node.Plain, Sink.Plain, Token.bracket?]⟩

theorem Store.report_plain (r : RunId) (x : Result) (σ : Store) :
    Next.Plain σ (σ.report r x) := by
  unfold Store.report
  repeat' split
  all_goals exact ⟨.of_eq rfl rfl rfl, by simp⟩

theorem Store.endFiber_plain (f : FiberId) (r : Result) (σ : Store) :
    Next.Plain σ (σ.endFiber f r) := by
  have hpublish : ∀ event o, Next.Plain σ ((σ.emit event).publish f o) := fun event o => by
    have hemit : σ.Alike (σ.emit event) := .of_eq rfl rfl rfl
    exact ⟨hemit.trans (.publish f o), Store.plain_publish _ _ _ _⟩
  unfold Store.endFiber
  repeat' split
  · exact hpublish _ _
  · exact ⟨.of_eq rfl rfl rfl, by simp⟩
  · exact hpublish _ _

/-- A result that is not about the acquisition of a bracket arrives in a plain step. -/
theorem Sink.receive_plain {k : Sink} (hk : k.Plain) (r : Result) (σ : Store) :
    Next.PlainOnceDropped σ (k.receive r σ) := by
  cases k with
  | acquired g => exact hk.elim
  | lateRelease g => exact hk.elim
  | observer i => exact (Store.report_plain i r σ).onceDropped
  | fiber f => exact (Store.endFiber_plain f r σ).onceDropped
  | side k x => exact Store.endSide_plain k x r σ
  | settle k x =>
    simp only [Sink.receive]
    split
    · rename_i f h
      exact Next.Plain.onceDropped
        ⟨.refl σ, by simpa [Activity.Plain] using Store.keptOtherwise_fork h⟩
    · exact Next.Plain.onceDropped ⟨.refl σ, by simp⟩
  | fail k cause =>
    simp only [Sink.receive]
    split
    · rename_i d h
      exact Next.Plain.onceDropped
        ⟨.refl σ, by simpa [Activity.Plain] using Store.keptOtherwise_duel h⟩
    · exact Next.Plain.onceDropped ⟨.refl σ, by simp⟩
  | _ => exact Next.Plain.onceDropped ⟨.of_eq rfl rfl rfl, by simp [Sink.receive]⟩

/-! ## Futures, jobs and tasks -/

theorem Store.dropFuture_plain (f : FutureId) (σ : Store) : Next.Plain σ (σ.dropFuture f) := by
  unfold Store.dropFuture
  repeat' split
  all_goals
    exact ⟨.of_eq rfl rfl rfl, by simp [Activity.Plain, Node.Plain, Sink.Plain, Token.bracket?]⟩

theorem Store.startFuture_plain (f : FutureId) (waker : Option JobId) (σ : Store) :
    Next.Plain σ (σ.startFuture f waker) := by
  unfold Store.startFuture
  split
  · refine ⟨Store.Alike.newConnection.trans (.of_eq rfl rfl rfl), ?_⟩
    simp [Activity.Plain, Node.Plain, Sink.Plain, Token.bracket?]
  · exact ⟨.refl σ, by simp⟩

theorem Job.step_plain (j : JobId) (job : Job) (σ : Store) : Next.Plain σ (job.step j σ) := by
  cases job with
  | timer due s => exact ⟨.of_eq rfl rfl rfl, Store.plain_completeSteps _ _ _⟩
  | call c s => exact ⟨.of_eq rfl rfl rfl, by simp [Job.step, Activity.Plain]⟩
  | poll f s =>
    have h := σ.startFuture_plain f (some j)
    refine ⟨h.alike, ?_⟩
    simp only [Job.step, List.mem_append, List.mem_singleton]
    rintro a (ha | rfl)
    · exact h.calls a ha
    · trivial
  | drop f =>
    have hlike : σ.Alike (σ.setJob j .over) := .of_eq rfl rfl rfl
    have h := (σ.setJob j .over).dropFuture_plain f
    exact ⟨hlike.trans h.alike, h.calls⟩
  | _ => exact ⟨.refl σ, by simp [Job.step]⟩

theorem Task.step_plain (t : Task) (σ : Store) : Next.Plain σ (t.step σ) := by
  cases t with
  | side p c k s => exact ⟨.refl σ, by simp [Task.step, Activity.Plain, Node.Plain, Sink.Plain]⟩
  | fiber p c f => exact ⟨.refl σ, by simp [Task.step, Activity.Plain, Node.Plain, Sink.Plain]⟩
  | resume s => exact ⟨.refl σ, Store.plain_completeSteps _ _ _⟩
  | job j =>
    simp only [Task.step]
    split
    · exact Job.step_plain _ _ _
    · exact ⟨.refl σ, by simp⟩

theorem Executor.submit_plain (on : Executor) (t : Task) (σ : Store) :
    Next.Plain σ (on.submit t σ) := by
  cases on with
  | immediate => exact t.step_plain σ
  | _ => exact ⟨.of_eq rfl rfl rfl, by simp [Executor.submit]⟩

theorem Store.poll_plain (j : JobId) (σ : Store) : Next.Plain σ (σ.poll j) := by
  unfold Store.poll
  repeat' split
  all_goals exact ⟨.of_eq rfl rfl rfl, by simp [Activity.Plain]⟩

theorem Store.startFiber_plain (p : Prog) (on : Executor) (σ : Store) :
    Next.Plain σ (σ.startFiber p on).1 :=
  ⟨.newFiber, by simp [Store.startFiber, Activity.Plain]⟩

/-! ## Activities -/

/-- The call begins no execution, works on no loop, delivers nothing about the acquisition of a
bracket, and completes no boundary. -/
def Activity.Ordinary : Activity → Prop
  | .start _ _ _ | .work _ _ | .complete (.boundary _) _ => False
  | .deliver _ k _ => k.Plain
  | _ => True

/-- An ordinary call takes a plain step. -/
theorem Activity.step_plain {a : Activity} (h : a.Ordinary) (σ : Store) :
    Next.PlainOnceDropped σ (a.step σ) := by
  cases a with
  | start n link k => exact h.elim
  | work s l => exact h.elim
  | registering c b =>
    refine (Code.advance_plain (.registering · b) (fun _ _ => trivial) (fun r σ => ?_) c σ).onceDropped
    cases r <;> exact ⟨.refl σ, by simp [Store.registered, Activity.Plain]⟩
  | registeringStep c s =>
    refine (Code.advance_plain (.registeringStep · s) (fun _ _ => trivial)
      (fun r σ => ?_) c σ).onceDropped
    cases r <;> exact ⟨.of_eq rfl rfl rfl, by simp [Store.registeredStep, Activity.Plain]⟩
  | fillSlot s c => exact (σ.fillSlot_plain s c).onceDropped
  | deliver e k r => exact Sink.receive_plain h r σ
  | complete c r =>
    cases c with
    | boundary b => exact h.elim
    | callback b => exact (σ.completeCallback_plain b r).onceDropped
    | step s source => exact σ.completeStep_plain s source r
  | notify f l o =>
    cases l with
    | step s => exact Next.Plain.onceDropped ⟨.refl σ, by simp [Activity.step, Activity.Plain]⟩
    | duel k x => exact σ.endDuel_plain k x o
  | listen f l =>
    refine Next.Plain.onceDropped ⟨.listen f l, ?_⟩
    simp only [Activity.step]
    split <;> simp [Activity.Plain]
  | execute on t => exact (on.submit_plain t σ).onceDropped
  | startRight left q on parent k =>
    have h := σ.startFiber_plain q on
    exact Next.Plain.onceDropped
      ⟨h.alike, by simp [Activity.step, Store.startFiber, Activity.Plain]⟩
  | tie left right parent k =>
    have hlike : σ.Alike (σ.modifyDuel k fun _ => some { parent, left, right }) := .modifyDuel k _
    refine Next.Plain.onceDropped ⟨hlike.trans (.push parent rfl), ?_⟩
    simp only [Activity.step, List.mem_append, List.mem_cons, List.not_mem_nil, or_false]
    rintro a (ha | rfl | rfl)
    · exact Store.plain_push _ rfl _ _ a ha
    · trivial
    · trivial
  | calling c s =>
    refine (Code.advance_plain (.calling · s) (fun _ _ => trivial) (fun r σ => ?_) c σ).onceDropped
    cases r <;> exact ⟨.refl σ, by simp [Store.called, Activity.Plain]⟩
  | polling j => exact (σ.poll_plain j).onceDropped

/-- The outside world takes plain steps. -/
theorem Input.step_plain (i : Input) (σ : Store) : Next.PlainOnceDropped σ (i.step σ) := by
  cases i with
  | move c => exact (c.move_plain σ).onceDropped
  | run p label cancelable =>
    cases cancelable with
    | false =>
      exact Next.Plain.onceDropped
        ⟨.of_eq rfl rfl rfl, by simp [Input.step, Activity.Plain, Node.Plain, Sink.Plain]⟩
    | true =>
      exact Next.Plain.onceDropped ⟨Store.Alike.newConnection.trans (.of_eq rfl rfl rfl),
        by simp [Input.step, Activity.Plain, Node.Plain, Sink.Plain]⟩
  | connection => exact Next.Plain.onceDropped ⟨.newConnection, by simp [Input.step]⟩
  | pushPair link left right =>
    exact Next.Plain.onceDropped ⟨.push link rfl, Store.plain_push _ rfl _ _⟩
  | dropToken link => exact ⟨σ.dropToken link, .inr ⟨link, rfl⟩, .refl _, by simp [Input.step]⟩
  | tick queue place =>
    simp only [Input.step]
    split <;> exact Next.Plain.onceDropped ⟨.of_eq rfl rfl rfl, by simp [Activity.Plain]⟩
  | ready place =>
    simp only [Input.step]
    split <;> exact Next.Plain.onceDropped ⟨.of_eq rfl rfl rfl, by simp [Activity.Plain]⟩
  | startFuture f => exact (σ.startFuture_plain f none).onceDropped
  | dropFuture f => exact (σ.dropFuture_plain f).onceDropped
  | _ => exact Next.Plain.onceDropped ⟨.of_eq rfl rfl rfl, by simp [Input.step, Activity.Plain]⟩

/-! ## Turns -/

section Turns

variable {e : ExecutionId} {link : Link} {σ : Store}

/-- A turn that neither waits nor pushes frames is plain if its store, calls and stage are. -/
theorem Turn.Plain.of_stage {t : Turn} (hσ : σ.Alike t.store) (hc : ∀ a ∈ t.calls, a.Plain t.store)
    (hs : t.stage.Plain t.store) (hf : t.frames = []) : t.Plain σ :=
  ⟨hσ, hc, hs, by simp [hf]⟩

theorem Store.openStep_alike (source : Source) (link : Link) (σ : Store) :
    σ.Alike (σ.openStep source link).1 := by
  have h : σ.Alike (σ.newBoundary (.step { source, link })).1 := .newBoundary (by simp)
  exact h.trans (.push link rfl)

theorem Store.keptOtherwise_newBoundary {x : Keeper} (hx : ∀ br, x ≠ .bracket br) :
    (σ.newBoundary x).1.KeptOtherwise σ.boundaries.size :=
  ⟨x, by rw [Store.keeper?_newBoundary, if_pos rfl], hx⟩

theorem Store.wait_plain {source : Source} {register : StepId → Store → Next × Cleanup}
    (h : ∀ s σ, Next.Plain σ (register s σ).1) (σ : Store) :
    (σ.wait source link register).Plain σ := by
  have hr := h σ.boundaries.size (σ.openStep source link).1
  have hkept : (σ.openStep source link).1.KeptOtherwise σ.boundaries.size :=
    Store.keptOtherwise_newBoundary (x := .step { source, link }) (by simp)
  refine ⟨(σ.openStep_alike source link).trans hr.alike, ?_, hkept.of_alike hr.alike, by
    simp [Store.wait]⟩
  simp only [Store.wait, List.mem_append, List.mem_singleton]
  rintro a ((ha | ha) | rfl)
  · exact Store.plain_push _ rfl _ _ a ha
  · exact hr.calls a ha
  · trivial

theorem Store.awaitOutcome_plain (f : FiberId) (σ : Store) : (σ.awaitOutcome f link).Plain σ := by
  refine Store.wait_plain (fun s σ => ?_) σ
  dsimp only
  split <;> exact ⟨.listen f _, by simp [Activity.Plain]⟩

theorem Store.awaitPermits_plain (i : SemaphoreId) (n : Nat) (σ : Store) :
    (σ.awaitPermits i n link).Plain σ := by
  refine Store.wait_plain (fun s σ => ⟨.of_eq rfl rfl rfl, ?_⟩) σ
  dsimp only
  split
  · exact Store.plain_completeSteps _ _ _
  · simp

theorem Store.awaitGate_plain (g : BracketId) (σ : Store) : (σ.awaitGate g link).Plain σ := by
  refine Store.wait_plain (fun s σ => ⟨.await g s, ?_⟩) σ
  dsimp only
  split
  · simp
  · exact Store.plain_completeSteps _ _ _

theorem Store.awaitJob_plain (job : StepId → Store → Job) (started : Bool) (σ : Store) :
    (σ.awaitJob job started link).Plain σ :=
  Store.wait_plain (fun _ _ => ⟨.of_eq rfl rfl rfl, by simp⟩) σ

theorem Store.fork_plain (kind : ForkKind) (p q : Prog) (on : Executor) (σ : Store) :
    (σ.fork kind p q on link).Plain σ := by
  have hlike : σ.Alike σ.newConnection.1.newConnection.1 :=
    Store.Alike.newConnection.trans .newConnection
  have hnew : ∀ (σ' : Store) (f : Fork), σ'.Alike (σ'.newBoundary (.fork f)).1 := fun σ' f =>
    .newBoundary (by simp)
  refine ⟨hlike.trans ((hnew _ _).trans (.push link rfl)), ?_, ?_, by simp [Store.fork]⟩
  · simp only [Store.fork, List.mem_append, List.mem_cons, List.not_mem_nil, or_false]
    rintro a (ha | rfl | rfl)
    · exact Store.plain_push _ rfl _ _ a ha
    · trivial
    · trivial
  · exact (Store.keptOtherwise_newBoundary (by simp)).of_alike (.push link rfl)

theorem Cleanup.begin_plain (c : Cleanup) (σ : Store) : (c.begin link σ).Plain σ := by
  cases c with
  | program i =>
    simp only [Cleanup.begin]
    split <;> exact .of_stage (.refl σ) (by simp) (by simp [Stage.Plain, Node.Plain]) rfl
  | unlisten f n => exact .of_stage (.unlisten f n) (by simp [Cleanup.begin]) trivial rfl
  | _ => exact .of_stage (.of_eq rfl rfl rfl) (by simp [Cleanup.begin]) trivial rfl

/-- A token begins in a plain step if it neither releases a bracket nor cancels a connection. -/
theorem Token.begin_plain {t : Token} (ht : t.bracket? = none) (hc : ∀ c, t ≠ .connection (some c))
    (σ : Store) : (t.begin link σ).Plain σ := by
  cases t with
  | cleanup c => exact c.begin_plain σ
  | step s =>
    exact ⟨.modifyStep s fun _ => ⟨rfl, rfl⟩, by simp [Token.begin], rfl,
      by simp [Token.begin, Frame.Plain]⟩
  | bracket g => simp [Token.bracket?] at ht
  | connection c =>
    cases c with
    | none => exact .of_stage (.of_eq rfl rfl rfl) (by simp [Token.begin, Store.cancel, Store.connection?]) (by trivial) rfl
    | some c => exact absurd rfl (hc c)
  | connections a b =>
    exact .of_stage (.refl σ) (by simp [Token.begin]) ⟨rfl, by simp [Token.bracket?]⟩ rfl
  | fiber f =>
    simp only [Token.begin]
    split
    · exact ⟨.of_eq rfl rfl rfl, by simp, rfl, by simp [Frame.Plain]⟩
    · exact ⟨.of_eq rfl rfl rfl, by simp, rfl, by simp [Frame.Plain]⟩
  | fibers a b =>
    exact .of_stage (.refl σ) (by simp [Token.begin]) ⟨rfl, by simp [Token.bracket?]⟩ rfl

/-- A cancellation without tokens of brackets goes on in a plain step. -/
theorem Store.sweep_plain {first : Option Error} {below : List Frame} {ts : List Token}
    (hts : ∀ t ∈ ts, t.bracket? = none) (hb : ∀ f ∈ below, f.Plain) (σ : Store) :
    (σ.sweep none first link below ts).Plain σ := by
  cases ts with
  | nil => exact ⟨.refl σ, by simp [Store.sweep], trivial, hb⟩
  | cons t ts =>
    obtain ⟨ht, hts⟩ := List.forall_mem_cons.1 hts
    exact ⟨.refl σ, by simp [Store.sweep], ht, List.forall_mem_cons.2 ⟨⟨rfl, hts⟩, hb⟩⟩

theorem Instant.perform_plain (a : Instant) (σ : Store) : Next.Plain σ (a.perform σ).1 := by
  cases a with
  | release i n => exact ⟨.of_eq rfl rfl rfl, Store.plain_completeSteps _ _ _⟩
  | _ => exact ⟨.of_eq rfl rfl rfl, by simp [Instant.perform]⟩

/-- The program neither opens a bracket nor takes a token from a connection. -/
def Prog.Plain : Prog → Prop
  | .bracket _ _ _ | .pop _ => False
  | _ => True

/-- A plain program is taken apart in a plain step. -/
theorem Prog.step_plain {p : Prog} (hp : p.Plain) (e : ExecutionId) (σ : Store) :
    (p.step e link σ).Plain σ := by
  cases p with
  | bracket a u r => exact hp.elim
  | pop c => exact hp.elim
  | connected register =>
    have hnew : σ.Alike (σ.newBoundary .callback).1 := .newBoundary (by simp)
    refine ⟨hnew.trans (.of_eq rfl rfl rfl), by simp [Prog.step, Activity.Plain], ?_, by
      simp [Prog.step]⟩
    exact (Store.keptOtherwise_newBoundary (x := .callback) (by simp)).of_alike (.of_eq rfl rfl rfl)
  | cancelable register =>
    have hkept : (σ.openStep .user link).1.KeptOtherwise σ.boundaries.size :=
      Store.keptOtherwise_newBoundary (x := .step { source := .user, link }) (by simp)
    refine ⟨(σ.openStep_alike .user link).trans (.of_eq rfl rfl rfl), ?_, hkept.of_alike (.of_eq rfl rfl rfl),
      by simp [Prog.step]⟩
    simp only [Prog.step, List.mem_append, List.mem_singleton]
    rintro a (ha | rfl)
    · exact Store.plain_push _ rfl _ _ a ha
    · trivial
  | race p q on => exact σ.fork_plain .first p q on
  | both p q on f =>
    have h : (σ.fork .both p q on link).Plain σ := σ.fork_plain .both p q on
    exact ⟨h.alike, h.calls, h.stage, by simp [Prog.step, Frame.Plain]⟩
  | racePair p q on =>
    have hnew : σ.Alike (σ.newBoundary (.duel none)).1 := .newBoundary (by simp)
    have hstart := (σ.newBoundary (.duel none)).1.startFiber_plain p on
    refine ⟨hnew.trans hstart.alike, ?_, ?_, by simp [Prog.step]⟩
    · simp [Prog.step, Store.startFiber, Activity.Plain]
    · exact (Store.keptOtherwise_newBoundary (x := .duel none) (by simp)).of_alike hstart.alike
  | start p on =>
    have h := σ.startFiber_plain p on
    exact ⟨h.alike, h.calls, trivial, by simp [Prog.step]⟩
  | spawn s p =>
    have h := σ.startFiber_plain p ((σ.scopes[s]?.map Scope.executor).getD .immediate)
    exact ⟨h.alike, h.calls, trivial, by simp [Prog.step, Frame.Plain]⟩
  | joinEach fs =>
    cases fs with
    | nil => exact ⟨.refl σ, by simp [Prog.step], trivial, by simp [Prog.step]⟩
    | cons f fs => exact ⟨.refl σ, by simp [Prog.step], trivial, by simp [Prog.step, Frame.Plain]⟩
  | cancelScope s =>
    refine ⟨.of_eq rfl rfl rfl, by simp [Prog.step], ⟨rfl, ?_⟩, by simp [Prog.step]⟩
    intro t ht
    obtain ⟨f, -, rfl⟩ := List.mem_map.1 ht
    rfl
  | outcome f => exact σ.awaitOutcome_plain f
  | permits s n => exact σ.awaitPermits_plain s n
  | instant a =>
    have h := a.perform_plain σ
    exact ⟨h.alike, h.calls, trivial, by simp [Prog.step]⟩
  | shift on =>
    change (σ.wait .executor link fun s σ => ((σ, [.execute on (.resume s)]), .idle)).Plain σ
    exact Store.wait_plain (fun _ _ => ⟨.refl _, by simp [Activity.Plain]⟩) σ
  | sleep d => exact σ.awaitJob_plain _ _
  | remote c => exact σ.awaitJob_plain _ _
  | awaited p =>
    have hlike : σ.Alike (σ.newFuture p).1 := .of_eq rfl rfl rfl
    have h : ((σ.newFuture p).1.awaitJob (fun s _ => .poll (σ.newFuture p).2 s) true
        link).Plain (σ.newFuture p).1 := Store.awaitJob_plain _ _ _
    exact ⟨hlike.trans h.alike, h.calls, h.stage, h.frames⟩
  | stored i =>
    simp only [Prog.step]
    split <;> exact ⟨.refl σ, by simp, trivial, by simp⟩
  | cancel c => exact ⟨.refl σ, by simp [Prog.step], rfl, by simp [Prog.step]⟩
  | cancelFiber f => exact ⟨.refl σ, by simp [Prog.step], rfl, by simp [Prog.step]⟩
  | _ => exact ⟨.of_eq rfl rfl rfl, by simp [Prog.step], trivial, by simp [Prog.step, Frame.Plain]⟩

/-- The node takes a plain step: it is plain, and it neither opens a bracket, nor takes a token from
a connection, nor cancels one. -/
def Node.Ordinary : Node → Prop
  | .program p => p.Plain
  | .token t => t.bracket? = none ∧ ∀ c, t ≠ .connection (some c)
  | n => n.Plain

theorem Node.Ordinary.plain {n : Node} (h : n.Ordinary) : n.Plain := by
  cases n with
  | program p => trivial
  | token t => exact h.1
  | _ => exact h

theorem Node.step_plain {n : Node} (hn : n.Ordinary) (e : ExecutionId) (σ : Store) :
    (n.step e link σ).Plain σ := by
  cases n with
  | program p => exact p.step_plain hn e σ
  | result r => exact .of_stage (.refl σ) (by simp [Node.step]) trivial rfl
  | token t => exact t.begin_plain hn.1 hn.2 σ
  | sweep of ts =>
    obtain ⟨rfl, hts⟩ := hn
    change (σ.sweep none none none [.restore link] ts).Plain σ
    refine Store.sweep_plain hts (fun f hf => ?_) σ
    rw [List.mem_singleton.1 hf]
    trivial
  | release g v x => exact hn.elim
  | gate g => exact σ.awaitGate_plain g

/-- The frame receives a result in a plain step: it is plain, and it does not end a bracket. -/
def Frame.Ordinary : Frame → Prop
  | .endBracket _ _ => False
  | f => f.Plain

theorem Frame.resume_plain {f : Frame} (hf : f.Ordinary) (r : Result) (σ : Store) :
    (f.resume r link σ).Plain σ := by
  cases f with
  | sweep of t ts first =>
    obtain ⟨rfl, hts⟩ := hf
    have hlike : σ.Alike (σ.collect first r).1 := .of_eq rfl rfl rfl
    have h : ((σ.collect first r).1.sweep none (σ.collect first r).2 link [] ts).Plain
        (σ.collect first r).1 := Store.sweep_plain hts (by simp) _
    exact ⟨hlike.trans h.alike, h.calls, h.stage, h.frames⟩
  | endStep s =>
    cases r with
    | error e => exact .of_stage (.refl σ) (by simp [Frame.resume]) trivial rfl
    | ok v =>
      simp only [Frame.resume]
      split
      · rename_i h
        have hlike : σ.Alike (σ.modifyStep s fun st => { st with live := false }) :=
          .modifyStep s fun _ => ⟨rfl, rfl⟩
        refine .of_stage hlike ?_ trivial rfl
        simpa [Activity.Plain] using (Store.keptOtherwise_step h).of_alike hlike
      · exact .of_stage (.refl σ) (by simp) trivial rfl
  | publishCancelled f =>
    cases r with
    | ok v => exact .of_stage (.publish f .cancelled) (Store.plain_publish _ _ _ _) trivial rfl
    | error e => exact .of_stage (.refl σ) (by simp [Frame.resume]) trivial rfl
  | use g f => exact hf.elim
  | release g => exact hf.elim
  | endBracket g r => exact hf.elim
  | openGate g => exact hf.elim
  | _ =>
    unfold Frame.resume
    dsimp only
    repeat' split
    all_goals exact ⟨.of_eq rfl rfl rfl, by simp, trivial, by simp [Frame.Plain]⟩

theorem Code.turn_plain {α : Type} {again : Code Prog α → Stage}
    {done : Except String α → Stage} (ha : ∀ c σ, (again c).Plain σ)
    (hd : ∀ o σ, (done o).Plain σ) (c : Code Prog α) (σ : Store) :
    (c.turn again done link σ).Plain σ := by
  have hm := c.move_plain σ
  refine .of_stage hm.alike hm.calls ?_ rfl
  simp only [Code.turn]
  split
  · exact hd _ _
  · exact ha _ _

theorem Code.delaying_plain (c : Code Prog (Except Error Value)) (σ : Store) :
    (c.turn .delaying .delayed link σ).Plain σ :=
  Code.turn_plain (by simp [Stage.Plain])
    (by rintro (m | r) σ <;> simp [Stage.delayed, Stage.Plain]) c σ

theorem Code.suspending_plain (c : Code Prog Prog) (σ : Store) :
    (c.turn .suspending .suspended link σ).Plain σ :=
  Code.turn_plain (by simp [Stage.Plain])
    (by rintro (m | p) σ <;> simp [Stage.suspended, Stage.Plain, Node.Plain]) c σ

theorem Code.mapping_plain (c : Code Prog Value) (σ : Store) :
    (c.turn .mapping .mapped link σ).Plain σ :=
  Code.turn_plain (by simp [Stage.Plain])
    (by rintro (m | v) σ <;> simp [Stage.mapped, Stage.Plain]) c σ

/-! ## Loops -/

/-- The loop with the stack takes a plain turn from this stage, if it goes on. -/
def Stage.Ordinary (stack : List Frame) : Stage → Prop
  | .looking n => n.Ordinary
  | .handing _ => ∀ f ∈ stack.head?, f.Ordinary
  | .leaving _ => False
  | _ => True

/-- The loop is stopped before it looks at what comes next. -/
theorem Loop.step_of_cancelled {l : Loop} (h : σ.isCancelled l.link = true) (n : Node) :
    l.step (.looking n) σ = (σ, [.deliver l.id l.sink (.error .cancelled)]) := by
  simp only [Loop.step, h, if_true]

/-- The loop looks at what comes next. -/
theorem Loop.step_of_not_cancelled {l : Loop} (h : σ.isCancelled l.link = false) (n : Node) :
    l.step (.looking n) σ = (n.step l.id l.link σ).on l := by
  simp [Loop.step, h]

/-- From an ordinary stage a loop is stopped, or has come to its end, or takes a plain turn with
which ordinary frames leave its stack. -/
theorem Loop.step_plain {s : Stage} {l : Loop} (h : s.Ordinary l.stack) (σ : Store) :
    (∃ r, l.step s σ = (σ, [.deliver l.id l.sink r]) ∧
        ((∃ n, s = .looking n ∧ σ.isCancelled l.link = true) ∨ s = .handing r ∧ l.stack = [])) ∨
      ∃ t fs gs, l.stack = fs ++ gs ∧ (∀ f ∈ fs, f.Ordinary) ∧
        l.step s σ = Turn.on t { l with stack := gs } ∧ t.Plain σ := by
  cases s with
  | looking n =>
    cases hc : σ.isCancelled l.link with
    | true => exact .inl ⟨_, l.step_of_cancelled hc n, .inl ⟨n, rfl, rfl⟩⟩
    | false => exact .inr ⟨_, [], l.stack, rfl, by simp, l.step_of_not_cancelled hc n, n.step_plain h _ σ⟩
  | handing r =>
    obtain ⟨e, link, _ | ⟨f, fs⟩, k⟩ := l
    · exact .inl ⟨r, rfl, .inr ⟨rfl, rfl⟩⟩
    · have hf : f.Ordinary := h f rfl
      exact .inr ⟨_, [f], fs, rfl, by simpa using hf, rfl, Frame.resume_plain hf r σ⟩
  | delaying c => exact .inr ⟨_, [], l.stack, rfl, by simp, rfl, c.delaying_plain σ⟩
  | suspending c => exact .inr ⟨_, [], l.stack, rfl, by simp, rfl, c.suspending_plain σ⟩
  | mapping c => exact .inr ⟨_, [], l.stack, rfl, by simp, rfl, c.mapping_plain σ⟩
  | leaving b => exact h.elim

end Turns

end CancelableEffects
