import CancelableEffects.Proofs.Weights

/-!
# Deals — what a step does about a bracket

* `Deal`, `Activity.deal`: what the step of a call means for a bracket.
* `Weight.dues`: weights of what may still become of a bracket.
* **`Weight.next_settles`**: each deal settles one due and leaves the next one.
* **`Activity.step_turns`**: only the end of the acquisition makes a resource available, and only who
  asks for the release takes it.
-/

namespace CancelableEffects

/-! ## Deals -/

/-- What a step does about a bracket. -/
inductive Deal where
  | nothing
  /-- An execution opens it. -/
  | opens
  /-- Its acquisition ends, with a resource or not. -/
  | acquires (ok : Bool)
  /-- The release of a late resource ends. -/
  | endsLate
  /-- A result is offered to its boundary. -/
  | offers
  /-- Its token or the end of its use asks for the release. -/
  | asks (token : Bool)
  /-- Its release is run. -/
  | releases
  /-- A loop is stopped that was about to run its release. -/
  | drops
  deriving DecidableEq, Repr

/-- What looking at the node does about the bracket, in a loop that is stopped or goes on. -/
def Node.deal (g : BracketId) (σ : Store) (stopped : Bool) : Node → Deal
  | .release g' _ _ => if g' = g then if stopped then .drops else .releases else .nothing
  | .token (.bracket g') => if g' = g ∧ stopped = false then .asks true else .nothing
  | .program (.bracket _ _ _) =>
    if σ.boundaries.size = g ∧ stopped = false then .opens else .nothing
  | _ => .nothing

/-- What the frame does about the bracket when it receives a result. -/
def Frame.deal (g : BracketId) : Frame → Deal
  | .release g' => if g' = g then .asks false else .nothing
  | _ => .nothing

/-- What the sink does about the bracket when it receives a result. -/
def Sink.deal (g : BracketId) (r : Result) : Sink → Deal
  | .acquired g' => if g' = g then .acquires r.isOk else .nothing
  | .lateRelease g' => if g' = g then .endsLate else .nothing
  | _ => .nothing

/-- What the step of the call does about the bracket. -/
def Activity.deal (g : BracketId) (σ : Store) : Activity → Deal
  | .work (.looking n) l => n.deal g σ (σ.isCancelled l.link)
  | .work (.handing _) l => match l.stack with
    | f :: _ => f.deal g
    | [] => .nothing
  | .deliver _ k r => k.deal g r
  | .complete (.boundary b) _ => if b = g then .offers else .nothing
  | _ => .nothing

section Ordinary

variable {g : BracketId} {σ : Store}

/-- Ordinary nodes do nothing about a bracket. -/
theorem Node.Ordinary.deal {n : Node} (h : n.Ordinary) (stopped : Bool) :
    n.deal g σ stopped = .nothing := by
  cases n with
  | program p =>
    cases p with
    | bracket _ _ _ => exact h.elim
    | _ => rfl
  | token t =>
    cases t with
    | bracket g' => exact nomatch h.1
    | _ => rfl
  | release g' v x => exact h.elim
  | _ => rfl

theorem Frame.Ordinary.deal {f : Frame} (h : f.Ordinary) : f.deal g = .nothing := by
  cases f with
  | release g' => exact h.elim
  | _ => rfl

theorem Activity.Ordinary.deal {a : Activity} (h : a.Ordinary) : a.deal g σ = .nothing := by
  cases a with
  | start n link k => exact h.elim
  | work s l => exact h.elim
  | deliver e k r =>
    cases k with
    | acquired g' => exact h.elim
    | lateRelease g' => exact h.elim
    | _ => rfl
  | complete c r =>
    cases c with
    | boundary b => exact h.elim
    | _ => rfl
  | _ => rfl

end Ordinary

/-! ## Who makes a deal -/

section Deal

variable {g : BracketId} {σ : Store} {a : Activity}

theorem Activity.of_deal_opens (h : a.deal g σ = .opens) :
    ∃ l acquire use release, a = .work (.looking (.program (.bracket acquire use release))) l ∧
      σ.boundaries.size = g ∧ σ.isCancelled l.link = false := by
  unfold Activity.deal Node.deal Frame.deal Sink.deal at h
  grind

theorem Activity.of_deal_releases (h : a.deal g σ = .releases) :
    ∃ v x l, a = .work (.looking (.release g v x)) l ∧ σ.isCancelled l.link = false := by
  unfold Activity.deal Node.deal Frame.deal Sink.deal at h
  grind

theorem Activity.of_deal_drops (h : a.deal g σ = .drops) :
    ∃ v x l, a = .work (.looking (.release g v x)) l ∧ σ.isCancelled l.link = true := by
  unfold Activity.deal Node.deal Frame.deal Sink.deal at h
  grind

/-- The token of the bracket asks for the release. -/
theorem Activity.of_deal_token (h : a.deal g σ = .asks true) :
    ∃ l, a = .work (.looking (.token (.bracket g))) l ∧ σ.isCancelled l.link = false := by
  unfold Activity.deal Node.deal Frame.deal Sink.deal at h
  grind

theorem Activity.of_deal_acquires {ok : Bool} (h : a.deal g σ = .acquires ok) :
    ∃ e r, a = .deliver e (.acquired g) r ∧ r.isOk = ok := by
  unfold Activity.deal Node.deal Frame.deal Sink.deal at h
  grind

end Deal

/-- Weights of what may still become of the bracket: its acquisition, the release of a late
resource, a completion of its boundary, and a release. -/
def Weight.dues (g : BracketId) (acquired late offer release : Nat) : Weight where
  node
    | .release g' _ _ => if g' = g then release else 0
    | _ => 0
  frame _ := 0
  sink
    | .acquired g' => if g' = g then acquired else 0
    | .lateRelease g' => if g' = g then late else 0
    | _ => 0
  offer b := if b = g then offer else 0

namespace Weight

variable {g : BracketId} {a k o n : Nat} {σ : Store}

theorem dues_light : (dues g a k o n).Light g where
  node m hm := by
    cases m with
    | release g' v x => exact hm.elim
    | _ => rfl
  frame _ _ := rfl
  sink s hs := by
    cases s with
    | acquired g' => exact hs.elim
    | lateRelease g' => exact hs.elim
    | _ => rfl
  offer b hb := if_neg hb

@[simp] theorem frames_dues (fs : List Frame) : (dues g a k o n).frames fs = 0 :=
  frames_eq_zero _ fun _ _ => rfl

@[simp] theorem node_dues_release (g' : BracketId) (v : Value) (x : ExitCase) :
    (dues g a k o n).node (.release g' v x) = if g' = g then n else 0 := rfl

@[simp] theorem offer_dues : (dues g a k o n).offer g = o := if_pos rfl

theorem calls_dues_push (link : Link) (t : Token) :
    (dues g a k o n).calls (σ.push link t).2 = 0 := by
  unfold Store.push
  split <;> rfl

theorem calls_dues_completeSteps (source : Source) (ss : List StepId) :
    (dues g a k o n).calls (Store.completeSteps source ss) = 0 := by
  refine calls_eq_zero _ fun x hx => ?_
  obtain ⟨s, -, rfl⟩ := List.mem_map.1 hx
  rfl

/-- Who asks for the release gets it if it is there. -/
theorem node_dues_takeRelease (g' : BracketId) (x : ExitCase) :
    (dues g a k o n).node (σ.takeRelease g' x).2 =
      if g' = g ∧ (σ.held? g).isSome then n else 0 := by
  cases h : σ.held? g' with
  | some v =>
    rw [Store.takeRelease_of_held h]
    by_cases hg : g' = g
    · subst hg
      simp [h]
    · simp [hg]
  | none =>
    rw [Store.takeRelease_of_not_held h]
    by_cases hg : g' = g
    · subst hg
      simp [h, dues]
    · simp [hg, dues]

/-! ## Steps -/

/-- What the end of an acquisition leaves to do: the release of a late resource, or a completion of
the boundary. -/
def leftBy (g : BracketId) (ok : Bool) (k o n : Nat) (σ : Store) : Nat :=
  match σ.terms g with
  | none => 0
  | some br => if ok ∧ σ.isCancelled br.link then k + n else o

theorem leftBy_of_some {br : Bracket} (h : σ.terms g = some br) (ok : Bool) :
    leftBy g ok k o n σ = if ok ∧ σ.isCancelled br.link then k + n else o := by
  simp only [leftBy, h]

theorem leftBy_zero {ok : Bool} : leftBy g ok 0 0 0 σ = 0 := by
  unfold leftBy
  split
  · rfl
  · exact ite_self 0

/-- What a deal changes of the dues: what it settles and what it leaves to do. -/
def Settles (g : BracketId) (a k o n : Nat) (σ : Store) (before after : Nat) : Deal → Prop
  | .nothing => after = before
  | .opens => after = before + a
  | .acquires ok => after + a = before + leftBy g ok k o n σ
  | .endsLate => after + k = before + if (σ.bracket? g).isSome then o else 0
  | .offers => after + o = before
  | .asks _ => after = before + if (σ.held? g).isSome then n else 0
  | .releases | .drops => after + n = before

theorem Settles.add {before after : Nat} {d : Deal} (h : Settles g a k o n σ before after d)
    (rest : Nat) : Settles g a k o n σ (before + rest) (after + rest) d := by
  cases d <;> simp only [Settles] at h ⊢ <;> omega

theorem node_eq_zero_of_ordinary {m : Node} (h : m.Ordinary) : (dues g a k o n).node m = 0 :=
  dues_light.node m h.plain

theorem node_settles (m : Node) (e : ExecutionId) (link : Link)
    (hg : (m.step e link σ).store.KeptOtherwise g → o = 0) :
    Settles g a k o n σ ((dues g a k o n).node m) ((dues g a k o n).turn (m.step e link σ))
      (m.deal g σ false) := by
  by_cases hm : m.Ordinary
  · rw [hm.deal]
    exact (turn_eq_zero dues_light (m.step_plain hm e σ) (by simpa using hg)).trans (node_eq_zero_of_ordinary hm).symm
  cases m with
  | program p =>
    cases p with
    | bracket acquire use release =>
      have hturn : (dues g a k o n).turn (Prog.step (.bracket acquire use release) e link σ) =
          if σ.boundaries.size = g then a else 0 := by
        simp only [Prog.step, turn, calls_append, calls_cons, calls_nil, frames_dues,
          calls_dues_push, call, stage, Nat.zero_add, Nat.add_zero]
        exact Nat.zero_add _
      simp only [Node.step, Node.deal]
      rw [hturn, show (dues g a k o n).node (.program (.bracket acquire use release)) = 0 from rfl]
      by_cases hg' : σ.boundaries.size = g <;> simp [hg', Settles]
    | pop c =>
      simp only [Node.step, Prog.step, Node.deal, Settles, turn]
      split <;> rfl
    | _ => exact absurd trivial hm
  | token t =>
    cases t with
    | bracket g' =>
      have hturn : (dues g a k o n).turn (Token.begin (.bracket g') link σ) =
          if g' = g ∧ (σ.held? g).isSome then n else 0 := by
        rw [← node_dues_takeRelease g' .cancelled]
        exact Nat.zero_add _
      simp only [Node.step, Node.deal]
      rw [hturn, show (dues g a k o n).node (.token (.bracket g')) = 0 from rfl]
      by_cases hg' : g' = g <;> simp [hg', Settles]
    | connection c =>
      simp only [Node.step, Token.begin, Node.deal, Settles, turn]
      split <;> rfl
    | _ => exact absurd ⟨rfl, by simp⟩ hm
  | sweep of ts => cases ts <;> rfl
  | release g' v x =>
    have hturn : (dues g a k o n).turn ((Node.release g' v x).step e link σ) = 0 := by
      simp only [Node.step]
      split <;> simp [turn, stage, dues]
    rw [hturn, node_dues_release]
    simp only [Node.deal]
    by_cases hg' : g' = g <;> simp [hg', Settles]
  | _ => exact absurd trivial hm

theorem frame_settles (f : Frame) (r : Result) (link : Link)
    (hg : (f.resume r link σ).store.KeptOtherwise g → o = 0) :
    Settles g a k o n σ 0 ((dues g a k o n).turn (f.resume r link σ)) (f.deal g) := by
  by_cases hf : f.Ordinary
  · rw [hf.deal]
    exact turn_eq_zero dues_light (Frame.resume_plain hf r σ) (by simpa using hg)
  cases f with
  | use g' f => cases r <;> rfl
  | release g' =>
    have hturn : (dues g a k o n).turn ((Frame.release g').resume r link σ) =
        if g' = g ∧ (σ.held? g).isSome then n else 0 := by
      rw [← node_dues_takeRelease g' (.ofResult r)]
      exact Nat.zero_add _
    rw [hturn]
    simp only [Frame.deal]
    by_cases hg' : g' = g <;> simp [hg', Settles]
  | openGate g' =>
    cases r with
    | ok v =>
      simp only [Frame.resume, Frame.deal, Settles, turn, frames_nil, Nat.add_zero]
      exact calls_dues_completeSteps _ _
    | error x => rfl
  | endBracket g' used => cases r <;> rfl
  | sweep of t ts first => cases ts <;> rfl
  | _ => exact absurd trivial hf

/-- A node in a loop that is stopped leaves nothing, and it was about no deal but a release. -/
theorem stopped_settles (m : Node) :
    Settles g a k o n σ ((dues g a k o n).node m) 0 (m.deal g σ true) := by
  cases m with
  | program p => cases p <;> simp [Node.deal, Settles, dues]
  | token t => cases t <;> simp [Node.deal, Settles, dues]
  | release g' v x =>
    simp only [Node.deal, node_dues_release]
    by_cases hg' : g' = g <;> simp [hg', Settles]
  | _ => rfl

@[simp] theorem call_dues_complete (b : BoundaryId) (r : Result) :
    (dues g a k o n).call (.complete (.boundary b) r) = if b = g then o else 0 := rfl

theorem calls_endAcquire {br : Bracket} (h : σ.bracket? g = some br) (r : Result) :
    (dues g a k o n).calls (σ.endAcquire g r).2 =
      if r.isOk ∧ σ.isCancelled br.link then k + n else o := by
  cases r with
  | error x =>
    rw [Store.endAcquire_error h, calls_append]
    have hgate : (dues g a k o n).calls ((σ.dropToken br.link).openGate g).2 = 0 :=
      calls_dues_completeSteps _ _
    simp [hgate, Except.isOk, Except.toBool]
  | ok v =>
    cases hc : σ.isCancelled br.link with
    | true =>
      rw [Store.endAcquire_late h hc]
      simp [call, dues, Except.isOk, Except.toBool, Nat.add_comm]
    | false =>
      rw [Store.endAcquire_held h hc]
      simp

theorem calls_endAcquire_of_ne {g' : BracketId} (hne : g' ≠ g) (r : Result) :
    (dues g a k o n).calls (σ.endAcquire g' r).2 = 0 := by
  cases hbr : σ.bracket? g' with
  | none =>
    rw [Store.endAcquire_of_none hbr]
    rfl
  | some br =>
    cases r with
    | error x =>
      rw [Store.endAcquire_error hbr, calls_append]
      have hgate : (dues g a k o n).calls ((σ.dropToken br.link).openGate g').2 = 0 :=
        calls_dues_completeSteps _ _
      simp [hgate, hne]
    | ok v =>
      cases hc : σ.isCancelled br.link with
      | true =>
        rw [Store.endAcquire_late hbr hc]
        simp [call, dues, hne]
      | false =>
        rw [Store.endAcquire_held hbr hc]
        simp [hne]

/-- The end of an acquisition leaves a completion of the boundary to do, or a release. -/
theorem endAcquire_settles (g' : BracketId) (r : Result) :
    Settles g a k o n σ ((dues g a k o n).sink (.acquired g') + (dues g a k o n).waiting σ)
      ((dues g a k o n).next (σ.endAcquire g' r)) ((Sink.acquired g').deal g r) := by
  have hwaiting : (dues g a k o n).waiting (σ.endAcquire g' r).1 = (dues g a k o n).waiting σ :=
    waiting_of_cells _ (σ.endAcquire_aside g' r).cells
  rw [Weight.next, hwaiting]
  refine Settles.add ?_ _
  by_cases hg' : g' = g
  · subst hg'
    simp only [Sink.deal, if_true, Settles]
    cases hbr : σ.bracket? g' with
    | none =>
      rw [Store.endAcquire_of_none hbr]
      simp [dues, leftBy, Store.terms_of_none hbr]
    | some br =>
      rw [calls_endAcquire hbr, leftBy_of_some (Store.terms_of_some hbr)]
      simp [dues, Nat.add_comm]
  · rw [calls_endAcquire_of_ne hg']
    simp [Sink.deal, hg', Settles, dues]

theorem endLate_settles (g' : BracketId) (r : Result) :
    Settles g a k o n σ ((dues g a k o n).sink (.lateRelease g') + (dues g a k o n).waiting σ)
      ((dues g a k o n).next ((Sink.lateRelease g').receive r σ))
      ((Sink.lateRelease g').deal g r) := by
  have hwaiting : (dues g a k o n).waiting ((Sink.lateRelease g').receive r σ).1 =
      (dues g a k o n).waiting σ := waiting_of_cells _ (Sink.receive_aside _ r σ).cells
  have hcalls : (dues g a k o n).calls ((Sink.lateRelease g').receive r σ).2 =
      if g' = g ∧ (σ.bracket? g').isSome then o else 0 := by
    simp only [Sink.receive]
    split
    · rename_i br h
      have hbr : σ.bracket? g' = some br := h
      simp [hbr]
    · rename_i h
      have hbr : σ.bracket? g' = none := h
      simp [hbr]
  rw [Weight.next, hwaiting, hcalls]
  refine Settles.add ?_ _
  by_cases hg' : g' = g
  · subst hg'
    simp [Sink.deal, Settles, dues, Nat.add_comm]
  · simp [Sink.deal, hg', Settles, dues]

/-- A loop at work deals with the bracket. -/
theorem loop_settles {s : Stage} {l : Loop} (hg : (l.step s σ).1.KeptOtherwise g → o = 0)
    (hopen : ∀ b, s = .leaving b →
      σ.boundary? b = some .registering ∨ ∃ r, σ.boundary? b = some (.ready r)) :
    Settles g a k o n σ ((dues g a k o n).call (.work s l) + (dues g a k o n).waiting σ)
      ((dues g a k o n).next (l.step s σ)) ((Activity.work s l).deal g σ) := by
  have hplain : ∀ t : Turn, t.Opens σ → t.Plain σ → (t.store.KeptOtherwise g → o = 0) →
      (dues g a k o n).next (t.on l) = 0 + (dues g a k o n).loop l + (dues g a k o n).waiting σ := by
    intro t hopens ht hkept
    rw [next_on _ hopens, turn_eq_zero dues_light ht (by simpa using hkept)]
  cases s with
  | looking m =>
    simp only [Activity.deal, call, stage]
    cases hc : σ.isCancelled l.link with
    | true =>
      rw [Loop.step_of_cancelled hc, Nat.add_assoc]
      have h := (stopped_settles (σ := σ) (g := g) (a := a) (k := k) (o := o) (n := n) m).add
        ((dues g a k o n).loop l + (dues g a k o n).waiting σ)
      simpa [Weight.next, call, loop] using h
    | false =>
      rw [Loop.step_of_not_cancelled hc] at hg ⊢
      rw [next_on _ (m.step_opens _ _ σ), Nat.add_assoc, Nat.add_assoc]
      exact (node_settles m l.id l.link hg).add _
  | handing r =>
    obtain ⟨e, link, _ | ⟨f, fs⟩, s⟩ := l
    · change (dues g a k o n).calls [.deliver e s r] + (dues g a k o n).waiting σ = _
      simp [call, stage, loop]
    · have hopens := f.resume_opens r link σ
      have h := (frame_settles (σ := σ) (g := g) (a := a) (k := k) (o := o) (n := n) f r link hg).add
        ((dues g a k o n).loop ⟨e, link, fs, s⟩ + (dues g a k o n).waiting σ)
      change Settles g a k o n σ _ ((dues g a k o n).next (Turn.on _ ⟨e, link, fs, s⟩)) (f.deal g)
      rw [next_on _ hopens, Nat.add_assoc]
      simpa [call, stage, loop, show (dues g a k o n).frame f = 0 from rfl] using h
  | delaying c => exact hplain _ (c.delaying_opens _ σ) (c.delaying_plain σ) hg
  | suspending c => exact hplain _ (c.suspending_opens _ σ) (c.suspending_plain σ) hg
  | mapping c => exact hplain _ (c.mapping_opens _ σ) (c.mapping_plain σ) hg
  | leaving b =>
    have h : (dues g a k o n).next (σ.leave b l) =
        (dues g a k o n).loop l + (dues g a k o n).waiting σ := leave _ (fun _ => rfl) (hopen b rfl)
    change (dues g a k o n).next (σ.leave b l) = _
    rw [h]
    simp [call, stage]

/-- **Each deal settles one due and leaves the next one.** -/
theorem next_settles {x : Activity} (hg : (x.step σ).1.KeptOtherwise g → o = 0)
    (hopen : ∀ b l, x = .work (.leaving b) l →
      σ.boundary? b = some .registering ∨ ∃ r, σ.boundary? b = some (.ready r)) :
    Settles g a k o n σ ((dues g a k o n).call x + (dues g a k o n).waiting σ)
      ((dues g a k o n).next (x.step σ)) (x.deal g σ) := by
  by_cases hord : x.Ordinary
  · rw [hord.deal]
    exact next_of_ordinary dues_light hord (by simpa using hg)
  cases x with
  | start m link s =>
    change (dues g a k o n).calls [_] + (dues g a k o n).waiting σ = _
    simp [call, stage, loop]
  | work s l => exact loop_settles hg fun b hb => hopen b l (by rw [hb])
  | deliver e s r =>
    cases s with
    | acquired g' => exact endAcquire_settles g' r
    | lateRelease g' => exact endLate_settles g' r
    | _ => exact absurd trivial hord
  | complete c r =>
    cases c with
    | boundary b =>
      have hnext : (dues g a k o n).next (σ.completeBoundary b r) = (dues g a k o n).waiting σ :=
        completeBoundary _ (fun _ => rfl) b r
      change Settles g a k o n σ _ ((dues g a k o n).next (σ.completeBoundary b r)) _
      rw [hnext]
      simp only [Activity.deal, call_dues_complete]
      by_cases hb : b = g <;> simp [hb, Settles, Nat.add_comm]
    | _ => exact absurd trivial hord
  | _ => exact absurd trivial hord

end Weight

/-! ## What a deal changes -/

section Turns

variable {σ σ' : Store} {g g' : BracketId}

theorem Store.Drops.terms (h : σ.Drops σ') (g : BracketId) : σ'.terms g = σ.terms g := by
  obtain rfl | ⟨link, rfl⟩ := h <;> rfl

/-- What a deal changes of the bracket. -/
def Deal.Turns (g : BracketId) (σ σ' : Store) : Deal → Prop
  | .opens => σ.terms g = none ∧ ∃ br, σ'.terms g = some br ∧ br.resource = .acquiring
  | .acquires true => ∀ br, σ.terms g = some br → ∃ v, σ'.terms g =
      some { br with resource := if σ.isCancelled br.link then .taken else .held v }
  | .asks _ => σ'.terms g = (σ.terms g).map Bracket.take
  | _ => σ'.terms g = σ.terms g

theorem Deal.Turns.takeRelease (g' : BracketId) (x : ExitCase) (token : Bool) :
    (if g' = g then Deal.asks token else .nothing).Turns g σ (σ.takeRelease g' x).1 := by
  split
  · rename_i h
    subst h
    exact Store.terms_take
  · exact Store.terms_modifyBracket_of_ne ‹_› _

theorem Node.step_turns (m : Node) (e : ExecutionId) (link : Link) (g : BracketId) :
    (m.deal g σ false).Turns g σ (m.step e link σ).store := by
  by_cases hm : m.Ordinary
  · rw [hm.deal]
    exact (m.step_plain hm e σ).alike.terms g
  cases m with
  | program p =>
    cases p with
    | bracket acquire use release =>
      have h : (Prog.step (.bracket acquire use release) e link σ).store.terms g = _ :=
        Store.terms_newBoundary { owner := e, link, release } g
      simp only [Node.step, Node.deal, and_true]
      split
      · rename_i hg
        subst hg
        exact ⟨Store.terms_size, _, h.trans (if_pos rfl), rfl⟩
      · rename_i hg
        exact h.trans (if_neg (Ne.symm hg))
    | pop c =>
      have h : (σ.popToken c).1.terms g = σ.terms g := rfl
      simp only [Node.step, Prog.step]
      split <;> simp_all [Node.deal, Deal.Turns]
    | _ => exact absurd trivial hm
  | token t =>
    cases t with
    | bracket g' =>
      simp only [Node.deal, and_true]
      exact Deal.Turns.takeRelease g' .cancelled true
    | connection c =>
      have h : (σ.cancel c).1.terms g = σ.terms g := rfl
      simp only [Node.step, Token.begin]
      split <;> simp_all [Node.deal, Deal.Turns]
    | _ => exact absurd ⟨rfl, by simp⟩ hm
  | sweep of ts =>
    simp only [Node.step, Store.sweep_store]
    exact (rfl : σ.terms g = σ.terms g)
  | release g' v x =>
    have h : ((Node.release g' v x).step e link σ).store.terms g = σ.terms g := by
      simp only [Node.step]
      split <;> rfl
    simp only [Node.deal]
    split <;> exact h
  | _ => exact absurd trivial hm

theorem Frame.resume_turns (f : Frame) (r : Result) (link : Link) (g : BracketId) :
    (f.deal g).Turns g σ (f.resume r link σ).store := by
  by_cases hf : f.Ordinary
  · rw [hf.deal]
    exact (Frame.resume_plain hf r σ).alike.terms g
  cases f with
  | use g' f => cases r <;> exact (rfl : σ.terms g = σ.terms g)
  | release g' => exact Deal.Turns.takeRelease g' (.ofResult r) false
  | openGate g' =>
    cases r with
    | ok v => exact Store.terms_openGate g g'
    | error x => exact (rfl : σ.terms g = σ.terms g)
  | endBracket g' used => cases r <;> exact (rfl : σ.terms g = σ.terms g)
  | sweep of t ts first =>
    simp only [Frame.resume, Store.sweep_store]
    exact (rfl : σ.terms g = σ.terms g)
  | _ => exact absurd trivial hf

/-- Nothing happens to a bracket in a loop that is stopped. -/
theorem Node.stopped_turns (m : Node) (g : BracketId) : (m.deal g σ true).Turns g σ σ := by
  cases m with
  | program p => cases p <;> simp [Node.deal, Deal.Turns]
  | token t => cases t <;> simp [Node.deal, Deal.Turns]
  | release g' v x =>
    simp only [Node.deal]
    split <;> exact (rfl : σ.terms g = σ.terms g)
  | _ => exact (rfl : σ.terms g = σ.terms g)

theorem Loop.step_turns (s : Stage) (l : Loop) (g : BracketId) :
    ((Activity.work s l).deal g σ).Turns g σ (l.step s σ).1 := by
  have hplain : ∀ t : Turn, t.Plain σ → t.store.terms g = σ.terms g := fun t ht =>
    ht.alike.terms g
  cases s with
  | looking m =>
    simp only [Activity.deal]
    cases hc : σ.isCancelled l.link with
    | true =>
      rw [Loop.step_of_cancelled hc]
      exact m.stopped_turns g
    | false =>
      rw [Loop.step_of_not_cancelled hc]
      exact m.step_turns l.id l.link g
  | handing r =>
    obtain ⟨e, link, _ | ⟨f, fs⟩, k⟩ := l
    · exact (rfl : σ.terms g = σ.terms g)
    · exact f.resume_turns r link g
  | delaying c => exact hplain _ (c.delaying_plain σ)
  | suspending c => exact hplain _ (c.suspending_plain σ)
  | mapping c => exact hplain _ (c.mapping_plain σ)
  | leaving b =>
    change (σ.leave b l).1.terms g = σ.terms g
    unfold Store.leave
    split <;> rfl

theorem Store.endAcquire_turns (g g' : BracketId) (r : Result) :
    ((Sink.acquired g').deal g r).Turns g σ (σ.endAcquire g' r).1 := by
  by_cases hg : g' = g
  · subst hg
    simp only [Sink.deal, if_true]
    cases hbr : σ.bracket? g' with
    | none =>
      rw [Store.endAcquire_of_none hbr]
      cases r with
      | error x => exact (rfl : σ.terms g' = σ.terms g')
      | ok v => exact fun br h => nomatch (Store.terms_of_none hbr).symm.trans h
    | some br =>
      cases r with
      | error x =>
        rw [Store.endAcquire_error hbr]
        exact Store.terms_openGate g' g'
      | ok v =>
        have hhold : (σ.hold g' v).terms g' =
            some { br with resource := .held v, gate := .opened } := by
          unfold Store.terms Store.hold
          rw [Store.bracket?_modifyBracket, if_pos rfl, hbr]
          rfl
        rintro br' hbr'
        cases (Store.terms_of_some hbr).symm.trans hbr'
        refine ⟨v, ?_⟩
        cases hc : σ.isCancelled br.link with
        | true =>
          rw [Store.endAcquire_late hbr hc]
          change ((σ.hold g' v).modifyBracket g' Bracket.take).terms g' = _
          rw [Store.terms_take, hhold]
          simp [Bracket.take]
        | false =>
          rw [Store.endAcquire_held hbr hc, hhold]
          simp
  · simp only [Sink.deal, if_neg hg]
    change (σ.endAcquire g' r).1.terms g = σ.terms g
    cases hbr : σ.bracket? g' with
    | none => rw [Store.endAcquire_of_none hbr]
    | some br =>
      cases r with
      | error x =>
        rw [Store.endAcquire_error hbr]
        exact Store.terms_openGate g g'
      | ok v =>
        cases hc : σ.isCancelled br.link with
        | true =>
          rw [Store.endAcquire_late hbr hc]
          exact (Store.terms_modifyBracket_of_ne hg _).trans (Store.terms_modifyBracket_of_ne hg _)
        | false =>
          rw [Store.endAcquire_held hbr hc]
          exact Store.terms_modifyBracket_of_ne hg _

/-- **Only the end of the acquisition makes a resource available, and only who asks for the release
takes it.** -/
theorem Activity.step_turns (x : Activity) (g : BracketId) :
    (x.deal g σ).Turns g σ (x.step σ).1 := by
  by_cases hord : x.Ordinary
  · rw [hord.deal]
    obtain ⟨σ', hdrops, hplain⟩ := Activity.step_plain hord σ
    exact (hplain.alike.terms g).trans (hdrops.terms g)
  cases x with
  | start m link k => exact (rfl : σ.terms g = σ.terms g)
  | work s l => exact l.step_turns s g
  | deliver e k r =>
    cases k with
    | acquired g' => exact Store.endAcquire_turns g g' r
    | lateRelease g' =>
      have h : ((Sink.lateRelease g').receive r σ).1.terms g = σ.terms g := by
        simp only [Sink.receive]
        split <;> rfl
      simp only [Activity.deal, Sink.deal]
      split <;> exact h
    | _ => exact absurd trivial hord
  | complete c r =>
    cases c with
    | boundary b =>
      have h : (σ.completeBoundary b r).1.terms g = σ.terms g := by
        unfold Store.completeBoundary
        split <;> rfl
      simp only [Activity.deal]
      split <;> exact h
    | _ => exact absurd trivial hord
  | _ => exact absurd trivial hord

theorem Input.step_terms (i : Input) (g : BracketId) : (i.step σ).1.terms g = σ.terms g := by
  obtain ⟨σ', hdrops, hplain⟩ := i.step_plain σ
  exact (hplain.alike.terms g).trans (hdrops.terms g)

end Turns

end CancelableEffects
