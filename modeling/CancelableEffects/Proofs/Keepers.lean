import CancelableEffects.Proofs.Brackets
import CancelableEffects.Proofs.Operations

/-!
# Keepers — what a step does with what completes boundaries

* `Edit`: a boundary is opened, or its keeper is changed.
* `Matter`: what a call is about, if it is about a boundary.
* `Activity.edits`, `Activity.matters`: what a step does with the keepers, and the matters of the calls
  that follow it.
* **`Activity.makes_of_edits`**, **`Activity.raises_of_matters`**: which calls make an edit, and after which
  calls a matter comes up.
* **`Activity.step_does`**, **`Input.step_does`**: every step does exactly that.
-/

namespace CancelableEffects

/-! ## Edits and matters -/

/-- What is done with the keepers of boundaries. -/
inductive Edit where
  /-- A boundary with this keeper is opened. -/
  | opens (x : Keeper)
  /-- Something of a bracket is changed. -/
  | bracket (g : BracketId) (f : Bracket → Bracket)
  /-- The slot of a step is changed. -/
  | slot (s : StepId) (x : Slot)
  /-- A step is no longer live. -/
  | endsStep (s : StepId)
  /-- One side of a fork has a value. -/
  | value (k : ForkId) (side : Side) (v : Value)
  /-- A fork is settled. -/
  | endsFork (k : ForkId)
  /-- A duel is settled. -/
  | endsDuel (k : DuelId)
  /-- The fibers of a duel are there. -/
  | ties (k : DuelId) (d : Duel)

/-- The keepers after an edit. -/
def Edit.apply (xs : Array Keeper) : Edit → Array Keeper
  | .opens x => xs.push x
  | .bracket g f => xs.modify g (.mapBracket f)
  | .slot s x => xs.modify s (.mapStep fun st => { st with slot := x })
  | .endsStep s => xs.modify s (.mapStep fun st => { st with live := false })
  | .value k .left v => xs.modify k (.mapFork fun f => { f with leftValue := some v })
  | .value k .right v => xs.modify k (.mapFork fun f => { f with rightValue := some v })
  | .endsFork k => xs.modify k (.mapFork fun f => { f with settled := true })
  | .endsDuel k => xs.modify k (.mapDuel (Option.map fun d => { d with settled := true }))
  | .ties k d => xs.modify k (.mapDuel fun _ => some d)

/-- What a call is about. -/
inductive Matter where
  /-- It completes the boundary. -/
  | completes (b : BoundaryId) (r : Result)
  /-- The execution that it begins completes the boundary at its end. -/
  | ends (b : BoundaryId)
  /-- It starts or ties together the fibers of a duel. -/
  | ties (k : DuelId) (parent : Link)
  /-- It runs the token of a step. -/
  | runs (s : StepId)

/-- The step whose token this is. -/
def Token.step? : Token → Option StepId
  | .step s => some s
  | _ => none

/-- The steps whose tokens are about to be run. -/
def Node.flying : Node → List StepId
  | .token t => t.step?.toList
  | .sweep _ ts => ts.filterMap Token.step?
  | _ => []

/-- The boundary that is completed when the result has come to the sink. -/
def Sink.ends : Sink → List Matter
  | .settle k _ => [.ends k]
  | .fail k _ => [.ends k]
  | .lateRelease g => [.ends g]
  | _ => []

/-- The matters of a call other than that of a loop at work. -/
def Activity.carries : Activity → List Matter
  | .start n _ k => k.ends ++ n.flying.map .runs
  | .complete (.boundary b) r => [.completes b r]
  | .startRight _ _ _ parent k => [.ties k parent]
  | .tie _ _ parent k => [.ties k parent]
  | _ => []

/-! ## The edits of a step -/

/-- The keeper of the boundary at which the program waits. -/
def Prog.opens (e : ExecutionId) (link : Link) (σ : Store) : Prog → Option Keeper
  | .connected _ => some .callback
  | .cancelable _ => some (.step { source := .user, link })
  | .bracket _ _ release => some (.bracket { owner := e, link, release })
  | .race _ _ _ => some (.fork ⟨.first, link, σ.connections.size, σ.connections.size + 1, false, none, none⟩)
  | .both _ _ _ _ => some (.fork ⟨.both, link, σ.connections.size, σ.connections.size + 1, false, none, none⟩)
  | .racePair _ _ _ => some (.duel none)
  | .outcome f => some (.step { source := .outcome f, link })
  | .permits i _ => some (.step { source := .permits i, link })
  | .shift _ => some (.step { source := .executor, link })
  | .sleep _ | .remote _ | .awaited _ => some (.step { source := .job, link })
  | _ => none

/-- What looking at the node does with the keepers. -/
def Node.edits (e : ExecutionId) (link : Link) (σ : Store) : Node → List Edit
  | .program p => ((p.opens e link σ).map .opens).toList
  | .token (.step s) => [.slot s .cancelRequested]
  | .token (.bracket g) => [.bracket g Bracket.take]
  | .gate g => [.opens (.step { source := .gate g, link }),
      .bracket g (Bracket.await σ.boundaries.size)]
  | _ => []

/-- The matters of the calls that looking at the node makes. -/
def Node.matters (link : Link) (σ : Store) : Node → List Matter
  | .program (.racePair _ _ _) => [.ties σ.boundaries.size link]
  | _ => []

/-- Whether the result ends the wait of a step that was not completed before. -/
def Store.endsStep (s : StepId) (r : Result) (σ : Store) : Bool :=
  r.isOk && ((σ.step? s).map Step.live).getD false

/-- What the frame does with the keepers when it receives the result. -/
def Frame.edits (r : Result) (σ : Store) : Frame → List Edit
  | .release g => [.bracket g Bracket.take]
  | .openGate g => if r.isOk then [.bracket g fun br => { br with gate := .opened }] else []
  | .endStep s => if σ.endsStep s r then [.endsStep s] else []
  | _ => []

/-- The matters of the calls that the frame makes. -/
def Frame.matters (r : Result) (σ : Store) : Frame → List Matter
  | .endStep s => if σ.endsStep s r then [.completes s (.error .cancelled)] else []
  | _ => []

/-- What the end of a fork's side does with the keepers. -/
def Fork.edits (k : ForkId) (side : Side) (r : Result) (f : Fork) : List Edit :=
  if f.settled then []
  else if f.settles side r then [.endsFork k]
  else match r with
    | .ok v => [.value k side v]
    | .error _ => []

/-- The matters of the calls that the end of a fork's side makes. -/
def Fork.matters (k : ForkId) (side : Side) (r : Result) (f : Fork) : List Matter :=
  if f.settles side r then
    match f.kind, r with
    | .both, .ok v => [.completes k (.ok (match side with
        | .left => .pair v (f.rightValue.getD .unit)
        | .right => .pair (f.leftValue.getD .unit) v))]
    | _, _ => [.ends k]
  else []

/-- What the sink does with the keepers when it receives the result. -/
def Sink.edits (r : Result) (σ : Store) : Sink → List Edit
  | .acquired g => match σ.bracket? g, r with
    | some _, .error _ => [.bracket g fun br => { br with gate := .opened }]
    | some br, .ok v => .bracket g (fun br => { br with resource := .held v }) ::
      if σ.isCancelled br.link then [.bracket g Bracket.take] else []
    | none, _ => []
  | .side k x => ((σ.fork? k).map (Fork.edits k x r)).getD []
  | _ => []

/-- The matters of the calls that the sink makes. -/
def Sink.matters (r : Result) (σ : Store) : Sink → List Matter
  | .acquired g => match σ.bracket? g, r with
    | some _, .error e => [.completes g (.error e)]
    | some br, .ok v => if σ.isCancelled br.link then [.ends g] else [.completes g (.ok v)]
    | none, _ => []
  | .lateRelease g => if (σ.bracket? g).isSome then [.completes g (.error .cancelled)] else []
  | .side k x => ((σ.fork? k).map (Fork.matters k x r)).getD []
  | .settle k x => if (σ.fork? k).isSome then [.completes k (x.afterCancel r)] else []
  | .fail k cause =>
    if (σ.duel? k).isSome then [.completes k (.error (.afterCancel cause r))] else []
  | _ => []

/-- The matter of the call with which a duel ends. -/
def Duel.matter (k : DuelId) (side : Side) (o : Outcome Value) (d : Duel) : Matter :=
  match o with
  | .completed v => .completes k (.ok (match side with
      | .left => .left (.pair v (.handle (.fiber d.right)))
      | .right => .right (.pair v (.handle (.fiber d.left)))))
  | _ => .ends k

/-- Whether the source may complete the step. -/
def Store.completesStep (s : StepId) (source : Source) (σ : Store) : Bool :=
  ((σ.step? s).map fun st => st.live && st.source == source).getD false

/-- What the step of a call does with the keepers. -/
def Activity.edits (σ : Store) : Activity → List Edit
  | .work (.looking n) l => if σ.isCancelled l.link then [] else n.edits l.id l.link σ
  | .work (.handing r) l => (l.stack.head?.map (·.edits r σ)).getD []
  | .deliver _ k r => k.edits r σ
  | .complete (.step s source) _ => if σ.completesStep s source then [.endsStep s] else []
  | .notify _ (.duel k _) _ => match σ.duel? k with
    | some d => if d.settled then [] else [.endsDuel k]
    | none => []
  | .fillSlot s c => match (σ.step? s).map Step.slot with
    | some .cancelRequested => []
    | _ => [.slot s (.filled c)]
  | .tie left right parent k => [.ties k { parent, left, right }]
  | _ => []

/-- The matters of the calls that follow the step of a call. -/
def Activity.matters (σ : Store) : Activity → List Matter
  | .work (.looking n) l => if σ.isCancelled l.link then [] else n.matters l.link σ
  | .work (.handing r) l => (l.stack.head?.map (·.matters r σ)).getD []
  | .deliver _ k r => k.matters r σ
  | .complete (.callback b) r => match σ.keeper? b with
    | some .callback => [.completes b r]
    | _ => []
  | .complete (.step s source) r => if σ.completesStep s source then [.completes s r] else []
  | .notify _ (.duel k x) o => match σ.duel? k with
    | some d => if d.settled then [] else [d.matter k x o]
    | none => []
  | .startRight _ _ _ parent k => [.ties k parent]
  | _ => []

/-! ## Where an edit comes from -/

/-- The call makes the edit. -/
inductive Activity.Makes (σ : Store) : Activity → Edit → Prop where
  | opens {p : Prog} {l : Loop} {x : Keeper} (hc : σ.isCancelled l.link = false)
      (hx : p.opens l.id l.link σ = some x) : Makes σ (.work (.looking (.program p)) l) (.opens x)
  | opensGate {g : BracketId} {l : Loop} (hc : σ.isCancelled l.link = false) :
      Makes σ (.work (.looking (.gate g)) l) (.opens (.step { source := .gate g, link := l.link }))
  | awaits {g : BracketId} {l : Loop} (hc : σ.isCancelled l.link = false) :
      Makes σ (.work (.looking (.gate g)) l) (.bracket g (Bracket.await σ.boundaries.size))
  | requests {s : StepId} {l : Loop} (hc : σ.isCancelled l.link = false) :
      Makes σ (.work (.looking (.token (.step s))) l) (.slot s .cancelRequested)
  | takes {g : BracketId} {l : Loop} (hc : σ.isCancelled l.link = false) :
      Makes σ (.work (.looking (.token (.bracket g))) l) (.bracket g Bracket.take)
  | releases {g : BracketId} {r : Result} {l : Loop} {fs : List Frame} (hl : l.stack = .release g :: fs) :
      Makes σ (.work (.handing r) l) (.bracket g Bracket.take)
  | released {g : BracketId} {v : Value} {l : Loop} {fs : List Frame} (hl : l.stack = .openGate g :: fs) :
      Makes σ (.work (.handing (.ok v)) l) (.bracket g fun br => { br with gate := .opened })
  | endStep {s : StepId} {r : Result} {l : Loop} {fs : List Frame} (hl : l.stack = .endStep s :: fs)
      (hends : σ.endsStep s r = true) : Makes σ (.work (.handing r) l) (.endsStep s)
  | refused {g : BracketId} {br : Bracket} (e : ExecutionId) (x : Error) (hg : σ.bracket? g = some br) :
      Makes σ (.deliver e (.acquired g) (.error x)) (.bracket g fun br => { br with gate := .opened })
  | acquired {g : BracketId} {br : Bracket} (e : ExecutionId) (v : Value) (hg : σ.bracket? g = some br) :
      Makes σ (.deliver e (.acquired g) (.ok v)) (.bracket g fun br => { br with resource := .held v })
  | acquiredLate {g : BracketId} {br : Bracket} (e : ExecutionId) (v : Value) (hg : σ.bracket? g = some br)
      (hc : σ.isCancelled br.link = true) : Makes σ (.deliver e (.acquired g) (.ok v)) (.bracket g Bracket.take)
  | value {k : ForkId} {f : Fork} {x : Side} (e : ExecutionId) (v : Value) (hf : σ.fork? k = some f)
      (hopen : f.settled = false) : Makes σ (.deliver e (.side k x) (.ok v)) (.value k x v)
  | endsFork {k : ForkId} {f : Fork} {x : Side} {r : Result} (e : ExecutionId) (hf : σ.fork? k = some f)
      (hsettles : f.settles x r = true) : Makes σ (.deliver e (.side k x) r) (.endsFork k)
  | step {s : StepId} {source : Source} (r : Result) (hc : σ.completesStep s source = true) :
      Makes σ (.complete (.step s source) r) (.endsStep s)
  | endsDuel {k : DuelId} {d : Duel} (f : FiberId) (x : Side) (o : Outcome Value)
      (hd : σ.duel? k = some d) (hopen : d.settled = false) :
      Makes σ (.notify f (.duel k x) o) (.endsDuel k)
  | fills {s : StepId} (c : Cleanup) (hs : (σ.step? s).map Step.slot ≠ some .cancelRequested) :
      Makes σ (.fillSlot s c) (.slot s (.filled c))
  | ties (left right : FiberId) (parent : Link) (k : DuelId) :
      Makes σ (.tie left right parent k) (.ties k { parent, left, right })

section Makes

variable {σ : Store} {a : Activity} {e : Edit}

theorem Node.makes_of_edits {n : Node} {l : Loop} (hc : σ.isCancelled l.link = false)
    (he : e ∈ n.edits l.id l.link σ) : Activity.Makes σ (.work (.looking n) l) e := by
  cases n with
  | program p =>
    obtain ⟨x, hx, rfl⟩ : ∃ x, p.opens l.id l.link σ = some x ∧ .opens x = e := by simpa [Node.edits] using he
    exact .opens hc hx
  | token t =>
    cases t with
    | step s =>
      cases List.mem_singleton.1 he
      exact .requests hc
    | bracket g =>
      cases List.mem_singleton.1 he
      exact .takes hc
    | _ => exact (List.not_mem_nil he).elim
  | gate g =>
    obtain rfl | he := List.mem_cons.1 he
    · exact .opensGate hc
    · cases List.mem_singleton.1 he
      exact .awaits hc
  | _ => exact (List.not_mem_nil he).elim

theorem Frame.makes_of_edits {f : Frame} {r : Result} {l : Loop} {fs : List Frame} (hl : l.stack = f :: fs)
    (he : e ∈ f.edits r σ) : Activity.Makes σ (.work (.handing r) l) e := by
  cases f with
  | release g =>
    cases List.mem_singleton.1 he
    exact .releases hl
  | openGate g =>
    cases r with
    | ok v =>
      cases List.mem_singleton.1 he
      exact .released hl
    | error x => exact (List.not_mem_nil he).elim
  | endStep s =>
    simp only [Frame.edits] at he
    split at he
    · cases List.mem_singleton.1 he
      exact .endStep hl ‹_›
    · exact (List.not_mem_nil he).elim
  | _ => exact (List.not_mem_nil he).elim

theorem Fork.makes_of_edits {k : ForkId} {x : Side} {r : Result} {f : Fork} {e' : ExecutionId}
    (hf : σ.fork? k = some f) (he : e ∈ f.edits k x r) : Activity.Makes σ (.deliver e' (.side k x) r) e := by
  unfold Fork.edits at he
  split at he
  · exact (List.not_mem_nil he).elim
  · split at he
    · cases List.mem_singleton.1 he
      exact .endsFork e' hf ‹_›
    · cases r with
      | ok v =>
        cases List.mem_singleton.1 he
        exact .value e' v hf (Bool.eq_false_iff.2 ‹_›)
      | error x => exact (List.not_mem_nil he).elim

theorem Sink.makes_of_edits {k : Sink} {r : Result} {e' : ExecutionId} (he : e ∈ k.edits r σ) :
    Activity.Makes σ (.deliver e' k r) e := by
  cases k with
  | side k x =>
    cases hf : σ.fork? k with
    | none => simp [Sink.edits, hf] at he
    | some f => exact Fork.makes_of_edits hf (by simpa [Sink.edits, hf] using he)
  | acquired g =>
    simp only [Sink.edits] at he
    split at he
    · cases List.mem_singleton.1 he
      exact .refused e' _ ‹_›
    · obtain rfl | he := List.mem_cons.1 he
      · exact .acquired e' _ ‹_›
      · split at he
        · cases List.mem_singleton.1 he
          exact .acquiredLate e' _ ‹_› ‹_›
        · exact (List.not_mem_nil he).elim
    · exact (List.not_mem_nil he).elim
  | _ => exact (List.not_mem_nil he).elim

/-- **Each edit is made by a call of its kind.** -/
theorem Activity.makes_of_edits (he : e ∈ a.edits σ) : a.Makes σ e := by
  cases a with
  | work x l =>
    cases x with
    | looking n =>
      simp only [Activity.edits] at he
      split at he
      · exact (List.not_mem_nil he).elim
      · exact Node.makes_of_edits (Bool.eq_false_iff.2 ‹_›) he
    | handing r =>
      obtain ⟨e', link, _ | ⟨f, fs⟩, k⟩ := l
      · exact (List.not_mem_nil he).elim
      · exact Frame.makes_of_edits rfl he
    | _ => exact (List.not_mem_nil he).elim
  | deliver e' k r => exact Sink.makes_of_edits he
  | complete c r =>
    cases c with
    | step s source =>
      simp only [Activity.edits] at he
      split at he
      · cases List.mem_singleton.1 he
        exact .step r ‹_›
      · exact (List.not_mem_nil he).elim
    | _ => exact (List.not_mem_nil he).elim
  | notify f l o =>
    cases l with
    | step s => exact (List.not_mem_nil he).elim
    | duel k x =>
      simp only [Activity.edits] at he
      split at he
      · split at he
        · exact (List.not_mem_nil he).elim
        · cases List.mem_singleton.1 he
          exact .endsDuel f x o ‹_› (Bool.eq_false_iff.2 ‹_›)
      · exact (List.not_mem_nil he).elim
  | fillSlot s c =>
    simp only [Activity.edits] at he
    split at he
    · exact (List.not_mem_nil he).elim
    · cases List.mem_singleton.1 he
      exact .fills c ‹_›
  | tie left right parent k =>
    cases List.mem_singleton.1 he
    exact .ties left right parent k
  | _ => exact (List.not_mem_nil he).elim

end Makes

/-! ## Where a matter comes from -/

/-- The call raises the matter: another call about it follows. -/
inductive Activity.Raises (σ : Store) : Activity → Matter → Prop where
  | racePair {p q : Prog} {on : Executor} {l : Loop} (hc : σ.isCancelled l.link = false) :
      Raises σ (.work (.looking (.program (.racePair p q on))) l) (.ties σ.boundaries.size l.link)
  | startRight (left : FiberId) (q : Prog) (on : Executor) (parent : Link) (k : DuelId) :
      Raises σ (.startRight left q on parent k) (.ties k parent)
  | callback {b : BoundaryId} (r : Result) (hb : σ.keeper? b = some .callback) :
      Raises σ (.complete (.callback b) r) (.completes b r)
  | step {s : StepId} {st : Step} {source : Source} (r : Result) (hs : σ.step? s = some st)
      (hc : σ.completesStep s source = true) : Raises σ (.complete (.step s source) r) (.completes s r)
  | endStep {s : StepId} {st : Step} {r : Result} {l : Loop} {fs : List Frame}
      (hl : l.stack = .endStep s :: fs) (hs : σ.step? s = some st) (hends : σ.endsStep s r = true) :
      Raises σ (.work (.handing r) l) (.completes s (.error .cancelled))
  | refused {g : BracketId} {br : Bracket} (e : ExecutionId) (x : Error) (hg : σ.bracket? g = some br) :
      Raises σ (.deliver e (.acquired g) (.error x)) (.completes g (.error x))
  | acquired {g : BracketId} {br : Bracket} (e : ExecutionId) (v : Value) (hg : σ.bracket? g = some br)
      (hc : σ.isCancelled br.link = false) :
      Raises σ (.deliver e (.acquired g) (.ok v)) (.completes g (.ok v))
  | acquiredLate {g : BracketId} {br : Bracket} (e : ExecutionId) (v : Value) (hg : σ.bracket? g = some br)
      (hc : σ.isCancelled br.link = true) : Raises σ (.deliver e (.acquired g) (.ok v)) (.ends g)
  | releasedLate {g : BracketId} {br : Bracket} (e : ExecutionId) (r : Result)
      (hg : σ.bracket? g = some br) :
      Raises σ (.deliver e (.lateRelease g) r) (.completes g (.error .cancelled))
  | side {k : ForkId} {f : Fork} {x : Side} {r : Result} {m : Matter} (e : ExecutionId)
      (hf : σ.fork? k = some f) (hm : m ∈ f.matters k x r) : Raises σ (.deliver e (.side k x) r) m
  | settle {k : ForkId} {f : Fork} (e : ExecutionId) (x r : Result) (hf : σ.fork? k = some f) :
      Raises σ (.deliver e (.settle k x) r) (.completes k (x.afterCancel r))
  | outcome {k : DuelId} {d : Duel} (f : FiberId) (x : Side) (o : Outcome Value)
      (hd : σ.duel? k = some d) (hopen : d.settled = false) :
      Raises σ (.notify f (.duel k x) o) (d.matter k x o)
  | fail {k : DuelId} {d : Duel} (e : ExecutionId) (cause : Option Error) (r : Result) (hd : σ.duel? k = some d) :
      Raises σ (.deliver e (.fail k cause) r) (.completes k (.error (.afterCancel cause r)))

section Raises

variable {σ : Store} {a : Activity} {m : Matter}

theorem Store.step?_of_completesStep {s : StepId} {source : Source} (h : σ.completesStep s source = true) :
    ∃ st, σ.step? s = some st ∧ st.live = true ∧ st.source = source := by
  cases hs : σ.step? s with
  | none => simp [completesStep, hs] at h
  | some st => exact ⟨st, rfl, by simpa [completesStep, hs] using h⟩

theorem Store.step?_of_endsStep {s : StepId} {r : Result} (h : σ.endsStep s r = true) :
    ∃ st, σ.step? s = some st := by
  cases hs : σ.step? s with
  | none => simp [endsStep, hs] at h
  | some st => exact ⟨st, rfl⟩

/-- A fork raises a matter of its own boundary, when it is settled. -/
theorem Fork.of_matters {f : Fork} {k : ForkId} {x : Side} {r : Result} (h : m ∈ f.matters k x r) :
    f.settles x r = true ∧ (m = .ends k ∨ ∃ v, m = .completes k (.ok v)) := by
  unfold Fork.matters at h
  split at h
  · rename_i hsettles
    split at h
    · exact ⟨hsettles, .inr ⟨_, List.mem_singleton.1 h⟩⟩
    · exact ⟨hsettles, .inl (List.mem_singleton.1 h)⟩
  · exact (List.not_mem_nil h).elim

theorem Node.raises_of_matters {n : Node} {l : Loop} (hc : σ.isCancelled l.link = false)
    (h : m ∈ n.matters l.link σ) : Activity.Raises σ (.work (.looking n) l) m := by
  unfold Node.matters at h
  split at h
  · cases List.mem_singleton.1 h
    exact .racePair hc
  · exact (List.not_mem_nil h).elim

theorem Frame.raises_of_matters {f : Frame} {r : Result} {l : Loop} {fs : List Frame}
    (hl : l.stack = f :: fs) (h : m ∈ f.matters r σ) : Activity.Raises σ (.work (.handing r) l) m := by
  unfold Frame.matters at h
  split at h
  · split at h
    · rename_i hends
      obtain ⟨st, hs⟩ := Store.step?_of_endsStep hends
      cases List.mem_singleton.1 h
      exact .endStep hl hs hends
    · exact (List.not_mem_nil h).elim
  · exact (List.not_mem_nil h).elim

theorem Sink.raises_of_matters {k : Sink} {r : Result} {e : ExecutionId} (h : m ∈ k.matters r σ) :
    Activity.Raises σ (.deliver e k r) m := by
  cases k with
  | acquired g =>
    simp only [Sink.matters] at h
    split at h
    · cases List.mem_singleton.1 h
      exact .refused e _ ‹_›
    · split at h <;> cases List.mem_singleton.1 h
      · exact .acquiredLate e _ ‹_› ‹_›
      · exact .acquired e _ ‹_› (Bool.eq_false_iff.2 ‹_›)
    · exact (List.not_mem_nil h).elim
  | lateRelease g =>
    cases hg : σ.bracket? g <;> simp only [Sink.matters, hg, Option.isSome_none, Option.isSome_some,
      Bool.false_eq_true, if_false, if_true, List.not_mem_nil, List.mem_singleton] at h
    subst h
    exact .releasedLate e r hg
  | side k x =>
    cases hf : σ.fork? k <;> simp only [Sink.matters, hf, Option.map_none, Option.map_some,
      Option.getD_none, Option.getD_some, List.not_mem_nil] at h
    exact .side e hf h
  | settle k x =>
    cases hf : σ.fork? k <;> simp only [Sink.matters, hf, Option.isSome_none, Option.isSome_some,
      Bool.false_eq_true, if_false, if_true, List.not_mem_nil, List.mem_singleton] at h
    subst h
    exact .settle e x r hf
  | fail k cause =>
    cases hd : σ.duel? k <;> simp only [Sink.matters, hd, Option.isSome_none, Option.isSome_some,
      Bool.false_eq_true, if_false, if_true, List.not_mem_nil, List.mem_singleton] at h
    subst h
    exact .fail e cause r hd
  | _ => exact (List.not_mem_nil h).elim

/-- **Each matter is raised by a call of its kind.** -/
theorem Activity.raises_of_matters (h : m ∈ a.matters σ) : a.Raises σ m := by
  cases a with
  | work x l =>
    cases x with
    | looking n =>
      simp only [Activity.matters] at h
      split at h
      · exact (List.not_mem_nil h).elim
      · exact Node.raises_of_matters (Bool.eq_false_iff.2 ‹_›) h
    | handing r =>
      obtain ⟨e, link, _ | ⟨f, fs⟩, k⟩ := l
      · exact (List.not_mem_nil h).elim
      · exact Frame.raises_of_matters rfl h
    | _ => exact (List.not_mem_nil h).elim
  | deliver e k r => exact Sink.raises_of_matters h
  | complete c r =>
    cases c with
    | boundary b => exact (List.not_mem_nil h).elim
    | callback b =>
      simp only [Activity.matters] at h
      split at h
      · cases List.mem_singleton.1 h
        exact .callback r ‹_›
      · exact (List.not_mem_nil h).elim
    | step s source =>
      simp only [Activity.matters] at h
      split at h
      · rename_i hc
        obtain ⟨st, hs, -⟩ := Store.step?_of_completesStep hc
        cases List.mem_singleton.1 h
        exact .step r hs hc
      · exact (List.not_mem_nil h).elim
  | notify f l o =>
    cases l with
    | step s => exact (List.not_mem_nil h).elim
    | duel k x =>
      simp only [Activity.matters] at h
      split at h
      · split at h
        · exact (List.not_mem_nil h).elim
        · rw [List.mem_singleton.1 h]
          exact .outcome f x o ‹_› (Bool.eq_false_iff.2 ‹_›)
      · exact (List.not_mem_nil h).elim
  | startRight left q on parent k =>
    cases List.mem_singleton.1 h
    exact .startRight left q on parent k
  | _ => exact (List.not_mem_nil h).elim

end Raises

/-! ## Steps -/

/-- The step does these edits, and calls that are about these matters follow. -/
structure Next.Does (σ : Store) (es : List Edit) (ms : List Matter) (next : Next) : Prop where
  keepers : next.1.boundaries.keepers = es.foldl Edit.apply σ.boundaries.keepers
  matters : next.2.flatMap Activity.carries = ms

section Does

variable {σ σ' : Store} {es : List Edit} {ms : List Matter} {next next' : Next}

theorem Next.Does.idle (hk : next.1.boundaries.keepers = σ.boundaries.keepers)
    (hm : next.2.flatMap Activity.carries = []) : next.Does σ [] [] := ⟨hk, hm⟩

theorem Next.Does.congr (h : next.Does σ es ms)
    (hk : next'.1.boundaries.keepers = next.1.boundaries.keepers)
    (hm : next'.2.flatMap Activity.carries = next.2.flatMap Activity.carries) :
    next'.Does σ es ms := ⟨hk.trans h.keepers, hm.trans h.matters⟩

theorem Next.Does.of_boundaries (h : next.Does σ' es ms) (hb : σ'.boundaries = σ.boundaries) :
    next.Does σ es ms := ⟨hb ▸ h.keepers, h.matters⟩

/-- A token that is pushed is run only if it came too late. -/
theorem Store.carries_push {link : Link} {t : Token} (h : t.step? = none ∨ σ.isCancelled link = false) :
    (σ.push link t).2.flatMap Activity.carries = [] := by
  obtain ht | hc := h
  · simp only [Store.push]
    split
    · simp [Activity.carries, Sink.ends, Node.flying, ht]
    · rfl
  · simp [Store.push, hc]

theorem Store.carries_completeSteps (source : Source) (ss : List StepId) :
    (Store.completeSteps source ss).flatMap Activity.carries = [] := by
  simp [Store.completeSteps, Activity.carries, List.flatMap_map]

theorem Store.carries_publish (f : FiberId) (o : Outcome Value) (σ : Store) :
    (σ.publish f o).2.flatMap Activity.carries = [] := by
  simp [Store.publish, Activity.carries, List.flatMap_map]

theorem Code.move_does {α : Type} (c : Code Prog α) (σ : Store) :
    Next.Does σ [] [] (c.move σ).1 := by
  cases c with
  | push link p next => exact .idle rfl (Store.carries_push (.inl rfl))
  | answer k r next =>
    refine .idle rfl ?_
    simp only [Code.move, Store.answer]
    split <;> rfl
  | _ => exact .idle rfl rfl

theorem Code.advance_does {α : Type} {again : Code Prog α → Activity}
    {done : Except String α → Store → Next} (ha : ∀ c, (again c).carries = [])
    (hd : ∀ o σ, Next.Does σ [] [] (done o σ)) (c : Code Prog α) (σ : Store) :
    Next.Does σ [] [] (c.advance again done σ) := by
  have hm := c.move_does σ
  cases c with
  | ret a => exact hd _ σ
  | panic m => exact hd _ σ
  | _ =>
    have hagain : ∀ c, [again c].flatMap Activity.carries = [] := fun c => by simp [ha]
    refine hm.congr rfl (List.flatMap_append.trans ?_)
    rw [hagain, List.append_nil]
    rfl

/-- A loop opens a step under a connection that is not cancelled. -/
theorem Store.wait_does {source : Source} {link : Link}
    {register : StepId → Store → Next × Cleanup} (hc : σ.isCancelled link = false)
    (h : ∀ σ', Next.Does σ' es [] (register σ.boundaries.size σ').1) :
    Next.Does σ (.opens (.step { source, link }) :: es) []
      ((σ.wait source link register).store, (σ.wait source link register).calls) where
  keepers := (h (σ.openStep source link).1).keepers
  matters := by
    have hpush : (σ.openStep source link).2.flatMap Activity.carries = [] :=
      Store.carries_push (σ := (σ.newBoundary (.step { source, link })).1) (.inr hc)
    have hcalls := (h (σ.openStep source link).1).matters
    simp only [Store.wait, List.flatMap_append, List.flatMap_cons, List.flatMap_nil, hpush, hcalls]
    rfl

theorem Store.awaitJob_does (job : StepId → Store → Job) (started : Bool) {link : Link}
    (hc : σ.isCancelled link = false) : Next.Does σ [.opens (.step { source := .job, link })] []
      ((σ.awaitJob job started link).store, (σ.awaitJob job started link).calls) :=
  Store.wait_does hc fun _ => .idle rfl rfl

theorem Prog.step_does {link : Link} (hc : σ.isCancelled link = false) (p : Prog) (e : ExecutionId) :
    Next.Does σ ((Node.program p).edits e link σ)
      ((Node.program p).matters link σ)
      ((p.step e link σ).store, (p.step e link σ).calls) := by
  have hfork : ∀ kind p q on, Next.Does σ
      [.opens (.fork ⟨kind, link, σ.connections.size, σ.connections.size + 1, false, none, none⟩)] []
      ((σ.fork kind p q on link).store, (σ.fork kind p q on link).calls) := by
    intro kind p q on
    have hsize : σ.newConnection.1.connections.size = σ.connections.size + 1 := by
      simp [Store.newConnection]
    rw [← hsize]
    exact ⟨rfl, List.flatMap_append.trans (congrArg (· ++ []) (Store.carries_push (.inl rfl)))⟩
  cases p with
  | cancelable register =>
    have hpush : (σ.openStep .user link).2.flatMap Activity.carries = [] :=
      Store.carries_push (σ := (σ.newBoundary (.step { source := .user, link })).1) (.inr hc)
    exact ⟨rfl, List.flatMap_append.trans (congrArg (· ++ []) hpush)⟩
  | bracket acquire use release =>
    exact ⟨rfl, List.flatMap_append.trans (congrArg (· ++ []) (Store.carries_push (.inl rfl)))⟩
  | race p q on => exact hfork .first p q on
  | both p q on f => exact hfork .both p q on
  | racePair p q on => exact ⟨rfl, rfl⟩
  | joinEach fs => cases fs <;> exact .idle rfl rfl
  | outcome f =>
    refine Store.wait_does hc fun σ' => .idle ?_ ?_ <;> dsimp only <;> split <;> rfl
  | permits s n =>
    refine Store.wait_does hc fun σ' => .idle rfl ?_
    dsimp only
    split <;> rfl
  | shift on => exact Store.wait_does hc fun _ => .idle rfl rfl
  | sleep d => exact Store.awaitJob_does _ _ hc
  | remote c => exact Store.awaitJob_does _ _ hc
  | awaited p =>
    have h := Store.awaitJob_does (σ := (σ.newFuture p).1)
      (fun s _ => .poll (σ.newFuture p).2 s) true hc
    exact h.of_boundaries rfl
  | instant a =>
    cases a with
    | release i n => exact .idle rfl (Store.carries_completeSteps _ _)
    | _ => exact .idle rfl rfl
  | pop c =>
    have h : (σ.popToken c).1.boundaries = σ.boundaries := rfl
    refine .idle ?_ ?_ <;> simp only [Prog.step] <;> split <;> simp_all
  | stored i =>
    refine .idle ?_ ?_ <;> simp only [Prog.step] <;> split <;> rfl
  | connected register => exact ⟨rfl, rfl⟩
  | _ => exact .idle rfl rfl

theorem Node.step_does {link : Link} (hc : σ.isCancelled link = false) (n : Node) (e : ExecutionId) :
    Next.Does σ (n.edits e link σ) (n.matters link σ)
      ((n.step e link σ).store, (n.step e link σ).calls) := by
  cases n with
  | program p => exact p.step_does hc e
  | token t =>
    cases t with
    | cleanup c =>
      cases c with
      | program i =>
        refine .idle ?_ ?_ <;> simp only [Node.step, Token.begin, Cleanup.begin] <;> split <;> rfl
      | _ => exact .idle rfl rfl
    | connection c =>
      have h : (σ.cancel c).1.boundaries = σ.boundaries := rfl
      refine .idle ?_ ?_ <;> simp only [Node.step, Token.begin] <;> split <;> simp_all
    | fiber f =>
      refine .idle ?_ ?_ <;> simp only [Node.step, Token.begin] <;> split <;> rfl
    | step s => exact ⟨rfl, rfl⟩
    | bracket g => exact ⟨rfl, rfl⟩
    | _ => exact .idle rfl rfl
  | sweep of ts => cases ts <;> exact .idle rfl rfl
  | release g v x =>
    refine .idle ?_ ?_ <;> simp only [Node.step] <;> split <;> rfl
  | gate g =>
    refine Store.wait_does hc fun σ' => ⟨rfl, ?_⟩
    dsimp only
    split <;> rfl
  | result r => exact .idle rfl rfl

theorem Frame.resume_does (f : Frame) (r : Result) (link : Link) (σ : Store) :
    Next.Does σ (f.edits r σ) (f.matters r σ)
      ((f.resume r link σ).store, (f.resume r link σ).calls) := by
  cases f with
  | sweep of t ts first => cases ts <;> exact .idle rfl rfl
  | release g => exact ⟨rfl, rfl⟩
  | openGate g =>
    cases r with
    | ok v => exact ⟨rfl, Store.carries_completeSteps _ _⟩
    | error e => exact .idle rfl rfl
  | publishCancelled f =>
    cases r with
    | ok v => exact .idle rfl (Store.carries_publish _ _ _)
    | error e => exact .idle rfl rfl
  | endStep s =>
    cases r with
    | ok v =>
      simp only [Frame.edits, Frame.matters, Store.endsStep, Frame.resume]
      obtain h | ⟨⟨source, link', _ | _, slot⟩, h⟩ := Option.eq_none_or_eq_some (σ.step? s) <;>
        simp only [h] <;> exact ⟨rfl, rfl⟩
    | error e => exact .idle rfl rfl
  | _ =>
    unfold Frame.resume
    dsimp only
    repeat' split
    all_goals exact .idle rfl rfl

theorem Loop.step_does (s : Stage) (l : Loop) (σ : Store) :
    Next.Does σ ((Activity.work s l).edits σ) ((Activity.work s l).matters σ) (l.step s σ) := by
  have hwork : ∀ {t : Turn} {s l es ms}, Next.Does σ es ms (t.store, t.calls) →
      Next.Does σ es ms (t.store, t.calls ++ [.work s l]) := fun h =>
    h.congr rfl (by simp [Activity.carries])
  cases s with
  | looking n =>
    cases hc : σ.isCancelled l.link with
    | true =>
      simp only [Activity.edits, Activity.matters, Loop.step, hc, if_true]
      exact .idle rfl rfl
    | false =>
      simp only [Activity.edits, Activity.matters, Loop.step, hc, Bool.false_eq_true, if_false]
      exact hwork (n.step_does hc l.id)
  | handing r =>
    obtain ⟨e, link, _ | ⟨f, fs⟩, k⟩ := l
    · exact .idle rfl rfl
    · exact hwork (f.resume_does r link σ)
  | delaying c => exact hwork (t := c.turn .delaying .delayed l.link σ) (c.move_does σ)
  | suspending c => exact hwork (t := c.turn .suspending .suspended l.link σ) (c.move_does σ)
  | mapping c => exact hwork (t := c.turn .mapping .mapped l.link σ) (c.move_does σ)
  | leaving b =>
    refine .idle ?_ ?_ <;> simp only [Loop.step, Store.leave] <;> split <;> rfl

/-! ## Calls -/

theorem Store.endAcquire_does (g : BracketId) (r : Result) (σ : Store) :
    Next.Does σ ((Sink.acquired g).edits r σ) ((Sink.acquired g).matters r σ) (σ.endAcquire g r) := by
  cases hbr : σ.bracket? g with
  | none =>
    simp only [Sink.edits, Sink.matters, Store.endAcquire, hbr]
    exact .idle rfl rfl
  | some br =>
    cases r with
    | error e =>
      simp only [Sink.edits, Sink.matters, Store.endAcquire, hbr]
      exact ⟨rfl, List.flatMap_append.trans
        (congrArg (· ++ [Matter.completes g (.error e)]) (Store.carries_completeSteps _ _))⟩
    | ok v =>
      cases hc : σ.isCancelled br.link with
      | true =>
        rw [Store.endAcquire_late hbr hc]
        simp only [Sink.edits, Sink.matters, hbr, hc, if_true]
        exact ⟨rfl, rfl⟩
      | false =>
        rw [Store.endAcquire_held hbr hc]
        simp only [Sink.edits, Sink.matters, hbr, hc, Bool.false_eq_true, if_false]
        exact ⟨rfl, rfl⟩

theorem Store.endSide_does (k : ForkId) (side : Side) (r : Result) (σ : Store) :
    Next.Does σ ((Sink.side k side).edits r σ) ((Sink.side k side).matters r σ)
      (σ.endSide k side r) := by
  cases hf : σ.fork? k with
  | none =>
    simp only [Sink.edits, Sink.matters, Store.endSide, hf]
    exact .idle rfl rfl
  | some f =>
    simp only [Sink.edits, Sink.matters, Store.endSide, hf, Option.map_some, Option.getD_some]
    obtain ⟨kind, parent, left, right, _ | _, leftValue, rightValue⟩ := f
    · cases kind with
      | first => exact ⟨rfl, rfl⟩
      | both =>
        cases r with
        | error e => exact ⟨rfl, rfl⟩
        | ok v => cases side <;> cases leftValue <;> cases rightValue <;> exact ⟨rfl, rfl⟩
    · cases kind <;> exact .idle rfl rfl

theorem Sink.receive_does (k : Sink) (r : Result) (σ : Store) :
    Next.Does σ (k.edits r σ) (k.matters r σ) (k.receive r σ) := by
  cases k with
  | observer i =>
    refine .idle ?_ ?_ <;> simp only [Sink.receive, Store.report] <;> repeat' split
    all_goals rfl
  | fiber f =>
    refine .idle ?_ ?_ <;> simp only [Sink.receive, Store.endFiber] <;> repeat' split
    all_goals first | rfl | exact Store.carries_publish _ _ _
  | acquired g => exact σ.endAcquire_does g r
  | side k x => exact σ.endSide_does k x r
  | lateRelease g =>
    have hemit : ∀ v, (σ.emit? v).bracket? g = σ.bracket? g := fun _ => rfl
    simp only [Sink.edits, Sink.matters, Sink.receive, hemit]
    cases h : σ.bracket? g <;> exact ⟨rfl, rfl⟩
  | settle k x =>
    cases h : σ.fork? k <;> simp only [Sink.edits, Sink.matters, Sink.receive, h] <;>
      exact ⟨rfl, rfl⟩
  | fail k cause =>
    cases h : σ.duel? k <;> simp only [Sink.edits, Sink.matters, Sink.receive, h] <;>
      exact ⟨rfl, rfl⟩
  | _ => exact .idle rfl rfl

theorem Store.endDuel_does (f : FiberId) (k : DuelId) (side : Side) (o : Outcome Value)
    (σ : Store) : Next.Does σ ((Activity.notify f (.duel k side) o).edits σ)
      ((Activity.notify f (.duel k side) o).matters σ) (σ.endDuel k side o) := by
  cases hd : σ.duel? k with
  | none =>
    simp only [Activity.edits, Activity.matters, Store.endDuel, hd]
    exact .idle rfl rfl
  | some d =>
    simp only [Activity.edits, Activity.matters, Store.endDuel, hd]
    split
    · exact .idle rfl rfl
    · cases o <;> cases side <;> exact ⟨rfl, rfl⟩

theorem Store.startFuture_does (f : FutureId) (waker : Option JobId) (σ : Store) :
    Next.Does σ [] [] (σ.startFuture f waker) := by
  unfold Store.startFuture
  split <;> exact .idle rfl rfl

theorem Store.dropFuture_does (f : FutureId) (σ : Store) : Next.Does σ [] [] (σ.dropFuture f) := by
  unfold Store.dropFuture
  repeat' split
  all_goals exact .idle rfl rfl

theorem Task.step_does (t : Task) (σ : Store) : Next.Does σ [] [] (t.step σ) := by
  cases t with
  | job j =>
    simp only [Task.step]
    split
    · rename_i job _
      cases job with
      | poll f s =>
        refine (σ.startFuture_does f (some j)).congr rfl ?_
        simp [Job.step, Activity.carries]
      | drop f => exact ((σ.setJob j .over).dropFuture_does f).of_boundaries rfl
      | _ => exact .idle rfl rfl
    · exact .idle rfl rfl
  | side p c k s => exact .idle rfl rfl
  | _ => exact .idle rfl rfl

/-- **A call does these edits, and calls about these matters follow.** -/
theorem Activity.step_does (a : Activity) (σ : Store) :
    Next.Does σ (a.edits σ) (a.matters σ) (a.step σ) := by
  cases a with
  | work s l => exact l.step_does s σ
  | registering c b =>
    exact Code.advance_does (fun _ => rfl) (fun o _ => by cases o <;> exact .idle rfl rfl) c σ
  | registeringStep c s =>
    exact Code.advance_does (fun _ => rfl) (fun o _ => by cases o <;> exact .idle rfl rfl) c σ
  | calling c s =>
    exact Code.advance_does (fun _ => rfl) (fun o _ => by cases o <;> exact .idle rfl rfl) c σ
  | fillSlot s c =>
    simp only [Activity.edits, Activity.step, Store.fillSlot]
    obtain h | ⟨_ | _ | _, h⟩ := Option.eq_none_or_eq_some ((σ.step? s).map Step.slot) <;>
      simp only [h] <;> exact ⟨rfl, rfl⟩
  | deliver e k r => exact k.receive_does r σ
  | complete c r =>
    cases c with
    | boundary b =>
      refine .idle ?_ ?_ <;>
        simp only [Activity.step, Completer.complete, Store.completeBoundary] <;> split <;> rfl
    | callback b =>
      simp only [Activity.edits, Activity.matters, Activity.step, Completer.complete,
        Store.completeCallback]
      obtain h | ⟨_ | _ | _ | _ | _, h⟩ := Option.eq_none_or_eq_some (σ.keeper? b) <;>
        simp only [h] <;> exact ⟨rfl, rfl⟩
    | step s source =>
      obtain hs | ⟨st, hs⟩ := Option.eq_none_or_eq_some (σ.step? s)
      · simp only [Activity.edits, Activity.matters, Activity.step, Completer.complete,
          Store.completeStep, Store.completesStep, hs]
        exact .idle rfl rfl
      · have hiff : (st.live && st.source == source) = true ↔ st.live = true ∧ st.source = source := by
          simp
        simp only [Activity.edits, Activity.matters, Activity.step, Completer.complete,
          Store.completeStep, Store.completesStep, hs, Option.map_some, Option.getD_some, hiff]
        split
        · exact ⟨rfl, rfl⟩
        · exact .idle rfl rfl
  | notify f l o =>
    cases l with
    | step s => exact .idle rfl rfl
    | duel k x => exact σ.endDuel_does f k x o
  | listen f l =>
    refine .idle rfl ?_
    simp only [Activity.step]
    split <;> rfl
  | execute on t =>
    cases on with
    | immediate => exact t.step_does σ
    | _ => exact .idle rfl rfl
  | startRight left q on parent k => exact ⟨rfl, rfl⟩
  | tie left right parent k =>
    exact ⟨rfl, List.flatMap_append.trans (congrArg (· ++ []) (Store.carries_push (.inl rfl)))⟩
  | polling j =>
    refine .idle ?_ ?_ <;> simp only [Activity.step, Store.poll] <;> repeat' split
    all_goals rfl
  | start n link k => exact .idle rfl rfl

/-- **An input does nothing with the keepers**, and calls about no matter follow. -/
theorem Input.step_does (i : Input) (σ : Store) : Next.Does σ [] [] (i.step σ) := by
  cases i with
  | move c => exact c.move_does σ
  | run p label cancelable =>
    cases cancelable <;> exact .idle rfl rfl
  | pushPair link left right => exact .idle rfl (Store.carries_push (.inl rfl))
  | tick queue place =>
    refine .idle ?_ ?_ <;> simp only [Input.step] <;> split <;> rfl
  | ready place =>
    refine .idle ?_ ?_ <;> simp only [Input.step] <;> split <;> rfl
  | startFuture f => exact σ.startFuture_does f none
  | dropFuture f => exact σ.dropFuture_does f
  | _ => exact .idle rfl rfl

end Does

end CancelableEffects
