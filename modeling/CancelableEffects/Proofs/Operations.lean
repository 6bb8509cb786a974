import CancelableEffects.Proofs.Session

/-!
# Operations — what a step does with the tokens of a connection

* `Connection.Operation`: a push, a pop, or the cancellation.
* `Activity.withdrawal`: the token that a step means to take back from a connection.
* `Activity.operation`, `Input.operation`: what a step does with the tokens of a connection.
* `Next.Operates`: a step changes connections by an operation, and tokens that come too late are run
  at once.
* **`Activity.step_operates`**, **`Input.step_operates`**: every step does at most one operation.
-/

namespace CancelableEffects

/-- What can be done with the tokens of a connection. -/
inductive Connection.Operation (T : Type) where
  /-- Registers a token. -/
  | push (t : T)
  /-- Takes the newest token. -/
  | pop
  /-- Takes all tokens, for good. -/
  | cancel
  deriving DecidableEq, Repr

/-- The connection after the operation. -/
def Connection.Operation.perform (conn : Connection) : Connection.Operation Token → Connection
  | .push t => (conn.push t).getD conn
  | .pop => conn.pop.1
  | .cancel => conn.cancel.1

/-- An operation on a linked connection, if there is one. -/
abbrev Operated := Option (Link × Connection.Operation Token)

/-- The connection `c` after an operation. -/
def Connection.after (c : ConnectionId) (conn : Connection) : Operated → Connection
  | some (link, op) => if link = some c then op.perform conn else conn
  | none => conn

/-! ## The operation of a step -/

/-- The operation of a closure's move. -/
def Code.operation {α : Type} (σ : Store) : Code Prog α → Operated
  | .push link _ _ => some (link, .push (.cleanup (.program σ.programs.size)))
  | _ => none

/-- The operation of a program's step. -/
def Prog.operation (link : Link) (σ : Store) : Prog → Operated
  | .cancelable _ | .outcome _ | .permits _ _ | .shift _ | .sleep _ | .remote _ | .awaited _ =>
    some (link, .push (.step σ.boundaries.size))
  | .bracket _ _ _ => some (link, .push (.bracket σ.boundaries.size))
  | .race _ _ _ | .both _ _ _ _ =>
    some (link, .push (.connections (some σ.connections.size) (some (σ.connections.size + 1))))
  | .pop c => some (c, .pop)
  | _ => none

/-- The operation of a node's step. -/
def Node.operation (link : Link) (σ : Store) : Node → Operated
  | .program p => p.operation link σ
  | .token (.connection c) => some (c, .cancel)
  | .gate _ => some (link, .push (.step σ.boundaries.size))
  | _ => none

/-- The token that a frame takes back when it receives the result. -/
def Frame.withdrawal (r : Result) (σ : Store) : Frame → Option (Link × Token)
  | .endBracket g _ => if r.isOk then some (σ.bracketLink g, .bracket g) else none
  | _ => none

/-- Whether the end of a side settles the fork. -/
def Fork.settles (f : Fork) (side : Side) (r : Result) : Bool :=
  !f.settled && match f.kind, r, side with
    | .first, _, _ | .both, .error _, _ => true
    | .both, .ok _, .left => f.rightValue.isSome
    | .both, .ok _, .right => f.leftValue.isSome

/-- The token that a sink takes back when it receives the result. -/
def Sink.withdrawal (r : Result) (σ : Store) : Sink → Option (Link × Token)
  | .acquired g => if r.isOk then none else some (σ.bracketLink g, .bracket g)
  | .side k x => (σ.fork? k).bind fun f =>
    if f.settles x r then some (f.parent, .connections (some f.left) (some f.right)) else none
  | _ => none

/-- The token that the step of a call means to take back, and from where: that of a step which is
completed, of a bracket that is over, or of a fork or a duel that is decided. -/
def Activity.withdrawal (σ : Store) : Activity → Option (Link × Token)
  | .work (.handing r) l => l.stack.head?.bind (·.withdrawal r σ)
  | .deliver _ k r => k.withdrawal r σ
  | .complete (.step s source) _ => (σ.step? s).bind fun st =>
    if st.live ∧ st.source = source then some (st.link, .step s) else none
  | .notify _ (.duel k _) _ => (σ.duel? k).bind fun d =>
    if d.settled then none else some (d.parent, .fibers d.left d.right)
  | _ => none

/-- The operation of a call's step. -/
def Activity.operation (σ : Store) (a : Activity) : Operated :=
  match a with
  | .work (.looking n) l => if σ.isCancelled l.link then none else n.operation l.link σ
  | .work (.delaying c) _ => c.operation σ
  | .work (.suspending c) _ => c.operation σ
  | .work (.mapping c) _ => c.operation σ
  | .registering c _ => c.operation σ
  | .registeringStep c _ => c.operation σ
  | .calling c _ => c.operation σ
  | .tie left right parent _ => some (parent, .push (.fibers left right))
  | a => (a.withdrawal σ).map fun x => (x.1, .pop)

/-- The operation of an input. -/
def Input.operation (σ : Store) : Input → Operated
  | .move c => c.operation σ
  | .pushPair link left right => some (link, .push (.connections left right))
  | .dropToken link => some (link, .pop)
  | _ => none

/-- Only a loop that looks at the effect for it cancels a connection. -/
theorem Activity.of_operation_cancel {a : Activity} {σ : Store} {link : Link}
    (h : a.operation σ = some (link, .cancel)) :
    ∃ l, a = .work (.looking (.token (.connection link))) l ∧ σ.isCancelled l.link = false := by
  have hcode : ∀ {α : Type} (c : Code Prog α), c.operation σ ≠ some (link, .cancel) := by
    intro α c
    cases c <;> simp [Code.operation]
  cases a with
  | work s l =>
    cases s with
    | looking n =>
      simp only [Activity.operation] at h
      split at h
      · cases h
      · rename_i hc
        cases n with
        | program p => cases p <;> simp [Node.operation, Prog.operation] at h
        | token t =>
          cases t with
          | connection c =>
            simp only [Node.operation, Option.some.injEq, Prod.mk.injEq, and_true] at h
            subst h
            exact ⟨l, rfl, by simpa using hc⟩
          | _ => simp [Node.operation] at h
        | _ => simp [Node.operation] at h
    | delaying c => exact absurd h (hcode c)
    | suspending c => exact absurd h (hcode c)
    | mapping c => exact absurd h (hcode c)
    | _ => simp [Activity.operation] at h
  | registering c b => exact absurd h (hcode c)
  | registeringStep c s => exact absurd h (hcode c)
  | calling c s => exact absurd h (hcode c)
  | _ => simp [Activity.operation] at h

theorem Input.operation_ne_cancel (i : Input) (σ : Store) (link : Link) :
    i.operation σ ≠ some (link, .cancel) := by
  cases i with
  | move c => cases c <;> simp [Input.operation, Code.operation]
  | _ => simp [Input.operation]

/-! ## Steps -/

/-- The connection, or a new one if it is not there yet. -/
def Store.connectionAt (c : ConnectionId) (σ : Store) : Connection := σ.connections[c]?.getD .fresh

/-- The token that the call begins to run because its connection was cancelled before it came. -/
def Activity.atOnce? : Activity → Option Token
  | .start (.token t) none (.warn .pushedToken) => some t
  | _ => none

/-- The token that comes too late and is run at once. -/
def Store.atOnce? (σ : Store) : Operated → Option Token
  | some (link, .push t) => if σ.isCancelled link then some t else none
  | _ => none

/-- The step changes connections by the operation, and runs a token that comes too late. -/
structure Next.Operates (σ : Store) (x : Operated) (next : Next) : Prop where
  size : σ.connections.size ≤ next.1.connections.size
  connection : ∀ c < next.1.connections.size, next.1.connectionAt c = (σ.connectionAt c).after c x
  atOnce : next.2.filterMap Activity.atOnce? = (σ.atOnce? x).toList

section Operates

variable {σ σ' : Store} {x : Operated} {next next' : Next}

theorem Store.isCancelled_some (c : ConnectionId) :
    σ.isCancelled (some c) = (σ.connectionAt c).isCancelled := by
  simp only [Store.isCancelled, Store.connectionAt]
  cases σ.connections[c]? <;> rfl

theorem Next.Operates.congr (h : next.Operates σ x) (hc : next'.1.connections = next.1.connections)
    (ha : next'.2.filterMap Activity.atOnce? = next.2.filterMap Activity.atOnce?) :
    next'.Operates σ x where
  size := hc ▸ h.size
  connection c hlt := by
    rw [Store.connectionAt, hc]
    exact h.connection c (hc ▸ hlt)
  atOnce := ha.trans h.atOnce

/-- A step that creates connections is like one from a store in which they are already there. -/
theorem Next.Operates.of_fresh (h : next.Operates σ' x)
    (hsize : σ.connections.size ≤ σ'.connections.size)
    (hσ : ∀ c, σ'.connectionAt c = σ.connectionAt c) : next.Operates σ x where
  size := Nat.le_trans hsize h.size
  connection c hlt := hσ c ▸ h.connection c hlt
  atOnce := by
    rw [h.atOnce]
    obtain _ | ⟨_ | c, op⟩ := x
    · rfl
    · cases op <;> rfl
    · cases op with
      | push t => simp only [Store.atOnce?, Store.isCancelled_some, hσ]
      | _ => rfl

theorem Next.Operates.idle (hc : next.1.connections = σ.connections)
    (ha : next.2.filterMap Activity.atOnce? = []) : next.Operates σ none where
  size := Nat.le_of_eq (congrArg _ hc.symm)
  connection c _ := by
    rw [Store.connectionAt, hc]
    rfl
  atOnce := ha

theorem Store.connectionAt_newConnection (c : ConnectionId) :
    σ.newConnection.1.connectionAt c = σ.connectionAt c := by
  simp only [newConnection, connectionAt, Array.getElem?_push]
  split
  · rename_i h
    rw [h, Array.getElem?_eq_none (Nat.le_refl _)]
    rfl
  · rfl

theorem Store.size_newConnection :
    σ.connections.size ≤ σ.newConnection.1.connections.size := by
  simp [newConnection]

/-- A step that creates a connection first. -/
theorem Next.Operates.of_newConnection (h : next.Operates σ.newConnection.1 x) :
    next.Operates σ x :=
  h.of_fresh Store.size_newConnection Store.connectionAt_newConnection

theorem Store.modifyConnection_operates {link : Link} {op : Connection.Operation Token}
    {f : Connection → Connection} (hf : ∀ conn, f conn = op.perform conn) {calls : List Activity}
    (hcalls : calls.filterMap Activity.atOnce? = (σ.atOnce? (some (link, op))).toList) :
    Next.Operates σ (some (link, op)) (σ.modifyConnection link f, calls) where
  size := by
    cases link with
    | none => exact Nat.le_refl _
    | some c => simp [modifyConnection]
  connection c hlt := by
    cases link with
    | none => rfl
    | some c' =>
      simp only [modifyConnection, Array.size_modify] at hlt
      simp only [connectionAt, modifyConnection, Array.getElem?_modify, Connection.after,
        Option.some.injEq, Array.getElem?_eq_getElem hlt]
      split
      · exact hf _
      · rfl
  atOnce := hcalls

theorem Store.push_operates (link : Link) (t : Token) (σ : Store) :
    Next.Operates σ (some (link, .push t)) (σ.push link t) := by
  refine σ.modifyConnection_operates (fun _ => rfl) ?_
  simp only [atOnce?]
  split <;> rfl

theorem Store.dropToken_operates (link : Link) (σ : Store) :
    Next.Operates σ (some (link, .pop)) (σ.dropToken link, []) :=
  σ.modifyConnection_operates (fun _ => rfl) rfl

theorem Store.cancel_operates (link : Link) (σ : Store) :
    Next.Operates σ (some (link, .cancel)) ((σ.cancel link).1, []) :=
  (σ.modifyConnection_operates (fun _ => rfl) rfl).congr rfl rfl

theorem Store.filterMap_completeSteps (source : Source) (ss : List StepId) :
    (Store.completeSteps source ss).filterMap Activity.atOnce? = [] := by
  simp [Store.completeSteps, Activity.atOnce?]

theorem Store.filterMap_publish (f : FiberId) (o : Outcome Value) (σ : Store) :
    (σ.publish f o).2.filterMap Activity.atOnce? = [] := by
  simp [Store.publish, Activity.atOnce?]

end Operates

/-! ## Closures and loops -/

section Loops

variable {σ : Store}

theorem Code.move_operates {α : Type} (c : Code Prog α) (σ : Store) :
    Next.Operates σ (c.operation σ) (c.move σ).1 := by
  cases c with
  | push link p next =>
    exact Next.Operates.congr (Store.push_operates link (.cleanup (.program σ.programs.size)) σ) rfl
      rfl
  | answer k r next =>
    refine .idle rfl ?_
    simp only [Code.move, Store.answer]
    split <;> rfl
  | _ => exact .idle rfl rfl

theorem Code.advance_operates {α : Type} {again : Code Prog α → Activity}
    {done : Except String α → Store → Next} (ha : ∀ c, (again c).atOnce? = none)
    (hd : ∀ o σ, (done o σ).1.connections = σ.connections ∧
      (done o σ).2.filterMap Activity.atOnce? = []) (c : Code Prog α) (σ : Store) :
    Next.Operates σ (c.operation σ) (c.advance again done σ) := by
  have hm := c.move_operates σ
  cases c with
  | ret a => exact .idle (hd _ σ).1 (hd _ σ).2
  | panic m => exact .idle (hd _ σ).1 (hd _ σ).2
  | _ =>
    refine hm.congr rfl (List.filterMap_append.trans ?_)
    rw [List.filterMap_cons_none (ha _)]
    exact List.append_nil _

theorem Store.openStep_operates (source : Source) (link : Link) (σ : Store) :
    Next.Operates σ (some (link, .push (.step σ.boundaries.size))) (σ.openStep source link) :=
  (σ.push_operates link _).congr rfl rfl

theorem Store.wait_operates {source : Source} {link : Link} {σ₀ : Store}
    (register : StepId → Store → Next × Cleanup)
    (hc : ∀ s σ, (register s σ).1.1.connections = σ.connections)
    (ha : ∀ s σ, (register s σ).1.2.filterMap Activity.atOnce? = [])
    (hσ : σ₀.connections = σ.connections) (hb : σ₀.boundaries = σ.boundaries) :
    Next.Operates σ₀ (some (link, .push (.step σ₀.boundaries.size)))
      ((σ.wait source link register).store, (σ.wait source link register).calls) := by
  have hwait : Next.Operates σ (some (link, .push (.step σ.boundaries.size)))
      ((σ.wait source link register).store, (σ.wait source link register).calls) := by
    refine (σ.openStep_operates source link).congr (hc _ _) ?_
    simp [Store.wait, ha, Activity.atOnce?]
  rw [hb]
  exact hwait.of_fresh (Nat.le_of_eq (congrArg _ hσ)) fun c => by simp only [Store.connectionAt, hσ]

theorem Store.awaitJob_operates (job : StepId → Store → Job) (started : Bool) (link : Link)
    (σ : Store) {σ₀ : Store} (hσ : σ₀.connections = σ.connections) (hb : σ₀.boundaries = σ.boundaries) :
    Next.Operates σ₀ (some (link, .push (.step σ₀.boundaries.size)))
      ((σ.awaitJob job started link).store, (σ.awaitJob job started link).calls) :=
  Store.wait_operates _ (fun _ _ => rfl) (fun _ _ => rfl) hσ hb

theorem Store.fork_operates (kind : ForkKind) (p q : Prog) (on : Executor) (link : Link)
    (σ : Store) : Next.Operates σ
      (some (link, .push (.connections (some σ.connections.size) (some (σ.connections.size + 1)))))
      ((σ.fork kind p q on link).store, (σ.fork kind p q on link).calls) := by
  have hsize : σ.newConnection.1.connections.size = σ.connections.size + 1 := by simp [newConnection]
  refine Next.Operates.of_newConnection (Next.Operates.of_newConnection ?_)
  rw [← hsize]
  exact (Store.push_operates link _ σ.newConnection.1.newConnection.1).congr rfl
    (List.filterMap_append.trans (List.append_nil _))

theorem Store.startFiber_operates (p : Prog) (on : Executor) (σ : Store) :
    Next.Operates σ none (σ.startFiber p on).1 :=
  .of_newConnection (.idle rfl rfl)

theorem Prog.step_operates (p : Prog) (e : ExecutionId) (link : Link) (σ : Store) :
    Next.Operates σ (p.operation link σ) ((p.step e link σ).store, (p.step e link σ).calls) := by
  cases p with
  | cancelable register =>
    refine (σ.openStep_operates .user link).congr rfl ?_
    simp [Prog.step, Activity.atOnce?]
  | bracket acquire use release =>
    exact (σ.push_operates link (.bracket σ.boundaries.size)).congr rfl
      (List.filterMap_append.trans (List.append_nil _))
  | race p q on => exact σ.fork_operates .first p q on link
  | both p q on f => exact σ.fork_operates .both p q on link
  | racePair p q on => exact (σ.startFiber_operates p on).congr rfl rfl
  | start p on => exact σ.startFiber_operates p on
  | spawn s p => exact σ.startFiber_operates p _
  | joinEach fs => cases fs <;> exact .idle rfl rfl
  | outcome f =>
    refine Store.wait_operates _ (fun s σ => ?_) (fun s σ => ?_) rfl rfl <;> dsimp only <;> split <;> rfl
  | permits s n =>
    refine Store.wait_operates _ (fun s σ => rfl) (fun s σ => ?_) rfl rfl
    dsimp only
    split <;> rfl
  | shift on =>
    exact Store.wait_operates (fun s σ => ((σ, [.execute on (.resume s)]), .idle))
      (fun _ _ => rfl) (fun _ _ => rfl) rfl rfl
  | sleep d => exact σ.awaitJob_operates _ _ link rfl rfl
  | remote c => exact σ.awaitJob_operates _ _ link rfl rfl
  | awaited p => exact (σ.newFuture p).1.awaitJob_operates _ _ link rfl rfl
  | instant a =>
    cases a with
    | release i n => exact .idle rfl (Store.filterMap_completeSteps _ _)
    | _ => exact .idle rfl rfl
  | pop c =>
    refine (σ.dropToken_operates c).congr ?_ ?_ <;> simp only [Prog.step] <;> split <;>
      simp_all [Store.dropToken]
  | stored i =>
    refine .idle ?_ ?_ <;> simp only [Prog.step] <;> split <;> rfl
  | _ => exact .idle rfl rfl

theorem Token.begin_operates (t : Token) (link : Link) (σ : Store) :
    Next.Operates σ ((Node.token t).operation link σ) ((t.begin link σ).store, (t.begin link σ).calls) := by
  cases t with
  | cleanup c =>
    cases c with
    | program i =>
      refine .idle ?_ ?_ <;> simp only [Token.begin, Cleanup.begin] <;> split <;> rfl
    | _ => exact .idle rfl rfl
  | connection c =>
    refine (σ.cancel_operates c).congr ?_ ?_ <;> simp only [Token.begin] <;> split <;> simp_all
  | fiber f =>
    refine .idle ?_ ?_ <;> simp only [Token.begin] <;> split <;> rfl
  | _ => exact .idle rfl rfl

theorem Node.step_operates (n : Node) (e : ExecutionId) (link : Link) (σ : Store) :
    Next.Operates σ (n.operation link σ) ((n.step e link σ).store, (n.step e link σ).calls) := by
  cases n with
  | program p => exact p.step_operates e link σ
  | token t => exact t.begin_operates link σ
  | sweep of ts => cases ts <;> exact .idle rfl rfl
  | release g v x =>
    refine .idle ?_ ?_ <;> simp only [Node.step] <;> split <;> rfl
  | gate g =>
    refine Store.wait_operates _ (fun s σ => rfl) (fun s σ => ?_) rfl rfl
    dsimp only
    split <;> rfl
  | result r => exact .idle rfl rfl

theorem Frame.resume_operates (f : Frame) (r : Result) (link : Link) (σ : Store) :
    Next.Operates σ ((f.withdrawal r σ).map fun x => (x.1, .pop))
      ((f.resume r link σ).store, (f.resume r link σ).calls) := by
  cases f with
  | sweep of t ts first => cases ts <;> exact .idle rfl rfl
  | endBracket g used =>
    cases r with
    | ok v => exact σ.dropToken_operates (σ.bracketLink g)
    | error e => exact .idle rfl rfl
  | openGate g =>
    cases r with
    | ok v => exact .idle rfl (Store.filterMap_completeSteps _ _)
    | error e => exact .idle rfl rfl
  | publishCancelled f =>
    cases r with
    | ok v => exact .idle rfl (Store.filterMap_publish _ _ _)
    | error e => exact .idle rfl rfl
  | _ =>
    unfold Frame.resume
    dsimp only
    repeat' split
    all_goals exact .idle rfl rfl

theorem Loop.step_operates (s : Stage) (l : Loop) (σ : Store) :
    Next.Operates σ ((Activity.work s l).operation σ) (l.step s σ) := by
  have hwork : ∀ {t : Turn} {s l} {x : Operated}, Next.Operates σ x (t.store, t.calls) →
      Next.Operates σ x (t.store, t.calls ++ [.work s l]) := fun h =>
    h.congr rfl (by simp [Activity.atOnce?])
  cases s with
  | looking n =>
    simp only [Activity.operation, Loop.step]
    split
    · exact .idle rfl rfl
    · exact hwork (n.step_operates l.id l.link σ)
  | handing r =>
    obtain ⟨e, link, _ | ⟨f, fs⟩, k⟩ := l
    · exact .idle rfl rfl
    · exact hwork (f.resume_operates r link σ)
  | delaying c => exact hwork (t := c.turn .delaying .delayed l.link σ) (c.move_operates σ)
  | suspending c => exact hwork (t := c.turn .suspending .suspended l.link σ) (c.move_operates σ)
  | mapping c => exact hwork (t := c.turn .mapping .mapped l.link σ) (c.move_operates σ)
  | leaving b =>
    refine .idle ?_ ?_ <;> simp only [Loop.step, Store.leave] <;> split <;> rfl

end Loops

/-! ## Calls -/

section Calls

variable {σ : Store}

theorem Store.endAcquire_operates (g : BracketId) (r : Result) (σ : Store) :
    Next.Operates σ (((Sink.acquired g).withdrawal r σ).map fun x => (x.1, .pop))
      (σ.endAcquire g r) := by
  cases hbr : σ.bracket? g with
  | none =>
    have hlink : σ.bracketLink g = none := by simp [Store.bracketLink, hbr]
    have hnext : σ.endAcquire g r = (σ, []) := by simp only [Store.endAcquire, hbr]
    rw [hnext]
    cases r with
    | ok v => exact .idle rfl rfl
    | error e =>
      simp only [Sink.withdrawal, hlink]
      exact (σ.dropToken_operates none)
  | some br =>
    have hlink : σ.bracketLink g = br.link := by simp [Store.bracketLink, hbr]
    cases r with
    | ok v =>
      refine .idle ?_ ?_ <;> simp only [Store.endAcquire, hbr] <;> split
      · rfl
      · rfl
      · simp [Activity.atOnce?]
      · rfl
    | error e =>
      simp only [Sink.withdrawal, hlink]
      refine (σ.dropToken_operates br.link).congr ?_ ?_ <;> simp only [Store.endAcquire, hbr]
      · rfl
      · simp [Store.openGate, Store.filterMap_completeSteps, Activity.atOnce?]

theorem Store.endSide_operates (k : ForkId) (side : Side) (r : Result) (σ : Store) :
    Next.Operates σ (((Sink.side k side).withdrawal r σ).map fun x => (x.1, .pop))
      (σ.endSide k side r) := by
  cases hf : σ.fork? k with
  | none =>
    simp only [Sink.withdrawal, Store.endSide, hf]
    exact .idle rfl rfl
  | some f =>
    obtain ⟨kind, parent, left, right, _ | _, leftValue, rightValue⟩ := f
    · have hpop : ∀ {change calls}, calls.filterMap Activity.atOnce? = [] →
          Next.Operates σ (some (parent, .pop)) ((σ.modifyFork k change).dropToken parent, calls) :=
        fun h => (σ.dropToken_operates parent).congr rfl h
      cases kind with
      | first =>
        simp only [Sink.withdrawal, Store.endSide, hf, Option.bind_some, Fork.settles]
        exact hpop rfl
      | both =>
        cases r with
        | error e =>
          simp only [Sink.withdrawal, Store.endSide, hf, Option.bind_some, Fork.settles]
          exact hpop rfl
        | ok v =>
          simp only [Sink.withdrawal, Store.endSide, hf, Option.bind_some, Fork.settles]
          cases side <;> cases leftValue <;> cases rightValue <;>
            first | exact hpop rfl | exact .idle rfl rfl
    · simp only [Sink.withdrawal, Store.endSide, hf, Option.bind_some, Fork.settles]
      exact .idle rfl rfl

theorem Sink.receive_operates (k : Sink) (r : Result) (σ : Store) :
    Next.Operates σ ((k.withdrawal r σ).map fun x => (x.1, .pop)) (k.receive r σ) := by
  cases k with
  | observer i =>
    refine .idle ?_ ?_ <;> simp only [Sink.receive, Store.report] <;> repeat' split
    all_goals rfl
  | fiber f =>
    refine .idle ?_ ?_ <;> simp only [Sink.receive, Store.endFiber] <;> repeat' split
    all_goals first | rfl | exact Store.filterMap_publish _ _ _
  | acquired g => exact σ.endAcquire_operates g r
  | side k x => exact σ.endSide_operates k x r
  | lateRelease g =>
    refine .idle ?_ ?_ <;> simp only [Sink.receive] <;> split <;> rfl
  | settle k x =>
    refine .idle ?_ ?_ <;> simp only [Sink.receive] <;> split <;> rfl
  | fail k cause =>
    refine .idle ?_ ?_ <;> simp only [Sink.receive] <;> split <;> rfl
  | _ => exact .idle rfl rfl

theorem Store.endDuel_operates (f : FiberId) (k : DuelId) (side : Side) (o : Outcome Value)
    (σ : Store) : Next.Operates σ
      (((Activity.notify f (.duel k side) o).withdrawal σ).map fun x => (x.1, .pop))
      (σ.endDuel k side o) := by
  cases hd : σ.duel? k with
  | none =>
    simp only [Activity.withdrawal, Store.endDuel, hd]
    exact .idle rfl rfl
  | some d =>
    simp only [Activity.withdrawal, Store.endDuel, hd, Option.bind_some]
    split
    · exact .idle rfl rfl
    · cases o <;> exact (σ.dropToken_operates d.parent).congr rfl rfl

theorem Store.startFuture_operates (f : FutureId) (waker : Option JobId) (σ : Store) :
    Next.Operates σ none (σ.startFuture f waker) := by
  unfold Store.startFuture
  split
  · exact .of_newConnection (.idle rfl rfl)
  · exact .idle rfl rfl

theorem Store.dropFuture_operates (f : FutureId) (σ : Store) :
    Next.Operates σ none (σ.dropFuture f) := by
  unfold Store.dropFuture
  repeat' split
  all_goals exact .idle rfl rfl

theorem Task.step_operates (t : Task) (σ : Store) : Next.Operates σ none (t.step σ) := by
  cases t with
  | job j =>
    simp only [Task.step]
    split
    · rename_i job _
      cases job with
      | poll f s =>
        refine (σ.startFuture_operates f (some j)).congr rfl ?_
        simp [Job.step, Activity.atOnce?]
      | drop f => exact ((σ.setJob j .over).dropFuture_operates f).of_fresh (Nat.le_refl _) fun _ => rfl
      | _ => exact .idle rfl rfl
    · exact .idle rfl rfl
  | _ => exact .idle rfl rfl

/-- **A call does at most one operation**, and at once it runs only a token that comes too late. -/
theorem Activity.step_operates (a : Activity) (σ : Store) :
    Next.Operates σ (a.operation σ) (a.step σ) := by
  cases a with
  | work s l => exact l.step_operates s σ
  | registering c b =>
    exact Code.advance_operates (fun _ => rfl) (fun o _ => by cases o <;> exact ⟨rfl, rfl⟩) c σ
  | registeringStep c s =>
    exact Code.advance_operates (fun _ => rfl) (fun o _ => by cases o <;> exact ⟨rfl, rfl⟩) c σ
  | calling c s =>
    exact Code.advance_operates (fun _ => rfl) (fun o _ => by cases o <;> exact ⟨rfl, rfl⟩) c σ
  | fillSlot s c =>
    refine .idle ?_ ?_ <;> simp only [Activity.step, Store.fillSlot] <;> split <;> rfl
  | deliver e k r => exact k.receive_operates r σ
  | complete c r =>
    cases c with
    | boundary b =>
      refine .idle ?_ ?_ <;>
        simp only [Activity.step, Completer.complete, Store.completeBoundary] <;> split <;> rfl
    | callback b =>
      refine .idle ?_ ?_ <;>
        simp only [Activity.step, Completer.complete, Store.completeCallback] <;> split <;> rfl
    | step s source =>
      cases hs : σ.step? s with
      | none =>
        simp only [Activity.operation, Activity.withdrawal, Activity.step, Completer.complete,
          Store.completeStep, hs]
        exact .idle rfl rfl
      | some st =>
        simp only [Activity.operation, Activity.withdrawal, Activity.step, Completer.complete,
          Store.completeStep, hs, Option.bind_some]
        split
        · exact (σ.dropToken_operates st.link).congr rfl rfl
        · exact .idle rfl rfl
  | notify f l o =>
    cases l with
    | step s => exact .idle rfl rfl
    | duel k x => exact σ.endDuel_operates f k x o
  | listen f l =>
    refine .idle rfl ?_
    simp only [Activity.step]
    split <;> rfl
  | execute on t =>
    cases on with
    | immediate => exact t.step_operates σ
    | _ => exact .idle rfl rfl
  | startRight left q on parent k =>
    refine (σ.startFiber_operates q on).congr rfl ?_
    simp [Activity.step, List.filterMap_cons, Activity.atOnce?]
  | tie left right parent k =>
    refine (σ.push_operates parent (.fibers left right)).congr rfl ?_
    exact List.filterMap_append.trans (List.append_nil _)
  | polling j =>
    refine .idle ?_ ?_ <;> simp only [Activity.step, Store.poll] <;> repeat' split
    all_goals rfl
  | _ => exact .idle rfl rfl

/-- **An input does at most one operation.** -/
theorem Input.step_operates (i : Input) (σ : Store) :
    Next.Operates σ (i.operation σ) (i.step σ) := by
  cases i with
  | move c => exact c.move_operates σ
  | run p label cancelable =>
    cases cancelable with
    | true => exact .of_newConnection (.idle rfl rfl)
    | false => exact .idle rfl rfl
  | connection => exact .of_newConnection (.idle rfl rfl)
  | pushPair link left right => exact σ.push_operates link _
  | dropToken link => exact σ.dropToken_operates link
  | tick queue place =>
    refine .idle ?_ ?_ <;> simp only [Input.step] <;> split <;> rfl
  | ready place =>
    refine .idle ?_ ?_ <;> simp only [Input.step] <;> split <;> rfl
  | startFuture f => exact σ.startFuture_operates f none
  | dropFuture f => exact σ.dropFuture_operates f
  | _ => exact .idle rfl rfl

end Calls

end CancelableEffects
