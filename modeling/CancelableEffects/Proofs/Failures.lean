import CancelableEffects.Proofs.Acquisitions

/-!
# Failures — a release that fails is heard, unless its execution is stopped

* `Error.Reports`: an error is the failure, or the failure was suppressed in it.
* `Stage.Carries`: a loop hands the failure on, or a frame on its stack keeps it.
* **`Loop.Takes.carries`**: a turn keeps it, or gives it to a handler of the program.
* `Frame.Stand`: what an attempt gives is turned back by the frame below, and a cancellation runs in a
  region of its own.
* `Session.Within`: an execution belongs to the one for which it acquires.
* `Session.Underway`, `Moment.Hears`, `Moment.Drops`: the failure is on its way, is heard, is dropped.
* **`Session.release_failure_heard`**: what becomes of the failure of a release.
-/

namespace CancelableEffects

/-! ## Errors that report a failure -/

/-- The error is the failure `e`, maybe with more errors suppressed, or it has suppressed such an error. -/
inductive Error.Reports (e : Error) : Error → Prop
  | raised {e' : Error} (hcause : e'.cause = e.cause) (h : e.suppressed <+: e'.suppressed) : Reports e e'
  | among {e' x : Error} (hx : x ∈ e'.suppressed) (h : Reports e x) : Reports e e'

/-- The result is an error that reports the failure. -/
def Result.Reports (e : Error) : Result → Prop
  | .ok _ => False
  | .error e' => e.Reports e'

section Reports

variable {e e' : Error} {σ : Store}

theorem Error.Reports.refl (e : Error) : e.Reports e := .raised rfl List.prefix_rfl

theorem Error.Reports.suppress (h : e.Reports e') (later : Error) : e.Reports (e'.suppress later) := by
  cases h with
  | raised hcause h => exact .raised hcause (h.trans (List.prefix_append _ _))
  | among hx h => exact .among (List.mem_append_left _ hx) h

theorem Error.Reports.of_later (h : e.Reports e') (earlier : Error) : e.Reports (earlier.suppress e') :=
  .among (List.mem_append_right _ (.head _)) h

/-- The error of the use stays in that of the bracket. -/
theorem Result.Reports.used {r : Result} (h : r.Reports e) (released : Result) : (r.afterRelease released).Reports e := by
  cases r with
  | ok v => exact h.elim
  | error e' =>
    cases released with
    | ok v => exact h
    | error later => exact Error.Reports.suppress h later

/-- The error of the release stays in that of the bracket. -/
theorem Result.Reports.released {released : Result} (h : released.Reports e) (r : Result) :
    (r.afterRelease released).Reports e := by
  cases released with
  | ok v => exact h.elim
  | error e' =>
    cases r with
    | ok v => exact h
    | error earlier => exact Error.Reports.of_later h earlier

/-- The first failure of a cancellation is never replaced. -/
theorem Store.collect_first (he : e.Reports e') (r : Result) :
    ∃ x, (σ.collect (some e') r).2 = some x ∧ e.Reports x := by
  cases r with
  | ok v => exact ⟨_, rfl, he⟩
  | error later => exact ⟨_, rfl, he.suppress later⟩

/-- A failure of a token is part of that of the cancellation. -/
theorem Store.collect_later (first : Option Error) (he : e.Reports e') :
    ∃ x, (σ.collect first (.error e')).2 = some x ∧ e.Reports x := by
  cases first with
  | none => exact ⟨_, rfl, he⟩
  | some earlier => exact ⟨_, rfl, he.of_later earlier⟩

end Reports

/-! ## Loops that carry a failure -/

/-- The frame turns the value of an attempt back into a result. -/
def Frame.Unwraps : Frame → Prop
  | .openGate _ | .endBracket _ _ | .endStep _ | .publishCancelled _ => True
  | _ => False

/-- The frame gives errors to the program. -/
def Frame.Handles : Frame → Prop
  | .recover _ | .fold _ _ => True
  | _ => False

/-- The frame keeps an error that reports the failure. -/
def Frame.Keeps (e : Error) : Frame → Prop
  | .sweep _ _ _ (some e') => e.Reports e'
  | .endBracket _ r => r.Reports e
  | _ => False

/-- The result brings an error that reports the failure to the frames. -/
def Result.Conveys (e : Error) : Result → List Frame → Prop
  | .error e', _ => e.Reports e'
  | .ok (.err e'), f :: _ => f.Unwraps ∧ e.Reports e'
  | _, _ => False

/-- The loop at the stage with these frames carries an error that reports the failure: it hands the error
on, or one of its frames keeps it. -/
inductive Stage.Carries (e : Error) : Stage → List Frame → Prop
  | looks {r : Result} {fs : List Frame} (h : r.Conveys e fs) : Carries e (.looking (.result r)) fs
  | hands {r : Result} {fs : List Frame} (h : r.Conveys e fs) : Carries e (.handing r) fs
  | keeps {s : Stage} {f : Frame} {fs : List Frame} (hf : f ∈ fs) (h : f.Keeps e) : Carries e s fs

/-- The frame may stand on these: below an attempt there is a frame that undoes it, and below the rest of a
cancellation the end of its region. -/
def Frame.Rests : Frame → List Frame → Prop
  | .attempt, f :: _ => f.Unwraps
  | .attempt, [] => False
  | .sweep _ _ _ _, .restore _ :: _ => True
  | .sweep _ _ _ _, _ => False
  | _, _ => True

/-- Every frame stands on frames on which it may stand. -/
def Frame.Stand : List Frame → Prop
  | [] => True
  | f :: fs => f.Rests fs ∧ Stand fs

section Stand

variable {f : Frame} {fs gs : List Frame} {e : ExecutionId} {link : Link} {σ : Store}

theorem Frame.Rests.append (h : f.Rests fs) (gs : List Frame) : f.Rests (fs ++ gs) := by
  cases f with
  | attempt =>
    cases fs with
    | nil => exact h.elim
    | cons f' fs => exact h
  | sweep of t ts first =>
    cases fs with
    | nil => exact h.elim
    | cons f' fs => cases f' <;> first | exact h.elim | trivial
  | _ => trivial

theorem Frame.Stand.append (h : Frame.Stand fs) (hgs : Frame.Stand gs) : Frame.Stand (fs ++ gs) := by
  induction fs with
  | nil => exact hgs
  | cons f fs ih => exact ⟨h.1.append gs, ih h.2⟩

/-- A cancellation on the stack runs in a region. -/
theorem Frame.Stand.restore (h : Frame.Stand fs) {of : Link} {t : Token} {ts : List Token}
    {first : Option Error} (hf : .sweep of t ts first ∈ fs) : ∃ enclosing, .restore enclosing ∈ fs := by
  induction fs with
  | nil => exact (List.not_mem_nil hf).elim
  | cons f fs ih =>
    obtain rfl | hf := List.mem_cons.1 hf
    · obtain ⟨hrests, -⟩ := h
      match fs with
      | [] => exact hrests.elim
      | .restore enclosing :: _ => exact ⟨enclosing, .tail _ (.head _)⟩
    · obtain ⟨enclosing, hr⟩ := ih h.2 hf
      exact ⟨enclosing, .tail _ hr⟩

theorem Node.step_stand (n : Node) (e : ExecutionId) (link : Link) (σ : Store) :
    Frame.Stand (n.step e link σ).frames := by
  rw [Node.frames_eq]
  cases n with
  | program p =>
    cases p with
    | joinEach fs => cases fs <;> simp [Node.frames, Prog.frames, Frame.Stand, Frame.Rests]
    | _ => simp [Node.frames, Prog.frames, Frame.Stand, Frame.Rests]
  | token t => cases t <;> simp [Node.frames, Token.frames, Frame.Stand, Frame.Rests, Frame.Unwraps]
  | sweep of ts => cases ts <;> simp [Node.frames, Frame.sweepOf, Frame.Stand, Frame.Rests]
  | release g v x =>
    simp only [Node.frames]
    split <;> simp [Frame.Stand, Frame.Rests, Frame.Unwraps]
  | _ => simp [Node.frames, Frame.Stand]

theorem Frame.resume_stand (h : Frame.Stand (f :: fs)) (r : Result) (link : Link) (σ : Store) :
    Frame.Stand ((f.resume r link σ).frames ++ fs) := by
  cases f with
  | sweep of t ts first =>
    cases ts with
    | nil => exact h.2
    | cons t' ts =>
      refine ⟨?_, h.2⟩
      match fs, h.1 with
      | .restore enclosing :: _, _ => trivial
  | _ =>
    refine Frame.Stand.append ?_ h.2
    simp only [Frame.frames_eq, Frame.frames]
    (try split) <;> simp [Frame.Stand, Frame.Rests, Frame.Unwraps]

theorem Loop.Takes.stand {l : Loop} {s : Stage} {t : Turn} (ht : l.Takes σ s t fs)
    (h : Frame.Stand l.stack) : Frame.Stand (t.loop l fs).stack := by
  cases ht with
  | looking n hactive => exact (n.step_stand l.id l.link σ).append h
  | handing r f fs hstack => exact Frame.resume_stand (hstack ▸ h) r l.link σ
  | _ => exact h

/-- **The frames of every loop stand on frames on which they may stand.** -/
theorem Session.stacks_stand (cs : List Choice) : ∀ s l, (after cs).Has s l → Frame.Stand l.stack :=
  each (P := fun _ _ l => Frame.Stand l.stack) (fun _ h => h) (fun _ => trivial)
    (fun _ h ht => ht.stand h) (fun _ h => h) cs

end Stand

/-! ## A turn keeps what a loop carries -/

section Carries

variable {e : Error} {f : Frame} {fs : List Frame} {r : Result} {link : Link} {σ : Store}

theorem Result.Reports.conveys (h : r.Reports e) : r.Conveys e fs := by
  cases r with
  | ok v => exact h.elim
  | error e' => exact h

/-- A cancellation goes on with its first failure, or ends with it. -/
theorem Store.sweep_carries {first : Option Error} {x : Error} (hfirst : first = some x) (he : e.Reports x)
    (of link : Link) (ts : List Token) (fs : List Frame) (σ : Store) :
    (σ.sweep of first link [] ts).stage.Carries e ((σ.sweep of first link [] ts).frames ++ fs) := by
  subst hfirst
  cases ts with
  | nil => exact .looks (r := .error x) he
  | cons t ts => exact .keeps (.head _) he

/-- An error that comes to a frame stays with the loop, or the frame gives it to the program. -/
theorem Frame.resume_conveys (h : r.Conveys e (f :: fs)) (hrests : f.Rests fs) (link : Link) (σ : Store) :
    (f.resume r link σ).stage.Carries e ((f.resume r link σ).frames ++ fs) ∨
      f.Handles ∧ r.Reports e := by
  match r, h with
  | .error e', h =>
    cases f with
    | recover handler => exact .inr ⟨trivial, h⟩
    | fold onError onValue => exact .inr ⟨trivial, h⟩
    | restore enclosing => exact .inl (.looks (r := .error e') h)
    | attempt =>
      match fs, hrests with
      | f' :: fs, hrests => exact .inl (.looks (r := .ok (.err e')) ⟨hrests, h⟩)
    | release g => exact .inl (.keeps (f := .endBracket g (.error e')) (.tail _ (.head _)) h)
    | sweep of t ts first =>
      obtain ⟨x, hx, he⟩ := Store.collect_later (σ := σ) first h
      exact .inl (Store.sweep_carries hx he of link ts fs _)
    | _ => exact .inl (.hands (r := .error e') h)
  | .ok (.err e'), ⟨hf, he⟩ =>
    refine .inl ?_
    cases f with
    | openGate g => exact .looks (r := .error e') he
    | endBracket g used =>
      have hreports : Result.Reports e (.error e') := he
      exact .looks (hreports.released used).conveys
    | endStep s =>
      have hlooks : Stage.Carries e (.looking (.result (.error e'))) fs := .looks he
      simp only [Frame.resume, Value.toResult]
      split <;> exact hlooks
    | publishCancelled i => exact .looks (r := .error e') he
    | _ => exact hf.elim

/-- A frame that keeps an error goes on with it when it receives a result. -/
theorem Frame.Keeps.resume (h : f.Keeps e) (hend : ∀ g used, f = .endBracket g used → ∃ v, r = .ok v)
    (fs : List Frame) (link : Link) (σ : Store) :
    (f.resume r link σ).stage.Carries e ((f.resume r link σ).frames ++ fs) := by
  cases f with
  | sweep of t ts first =>
    cases first with
    | none => exact h.elim
    | some e' =>
      obtain ⟨x, hx, he⟩ := Store.collect_first (σ := σ) h r
      exact Store.sweep_carries hx he of link ts fs _
  | endBracket g used =>
    obtain ⟨v, rfl⟩ := hend g used rfl
    exact .looks (Result.Reports.used h v.toResult).conveys
  | _ => exact h.elim

/-- **A turn keeps the failure**, or gives it to a handler of the program. -/
theorem Loop.Takes.carries {l : Loop} {s : Stage} {t : Turn} (ht : l.Takes σ s t fs)
    (h : s.Carries e l.stack) (hstand : Frame.Stand l.stack) (hbears : s.Bears l.stack) :
    t.stage.Carries e (t.loop l fs).stack ∨
      ∃ e' f, s = .handing (.error e') ∧ l.stack = f :: fs ∧ f.Handles ∧ e.Reports e' := by
  cases ht with
  | looking n hactive =>
    cases h with
    | looks h => exact .inl (.hands h)
    | keeps hf h => exact .inl (.keeps (List.mem_append_right _ hf) h)
  | handing r f fs hstack =>
    rw [hstack] at h hstand hbears
    cases h with
    | hands h =>
      obtain h | ⟨hf, h⟩ := Frame.resume_conveys h hstand.1 l.link σ
      · exact .inl h
      · match r, h with
        | .error e', h => exact .inr ⟨e', f, rfl, hstack, hf, h⟩
    | keeps hf h =>
      obtain rfl | hf := List.mem_cons.1 hf
      · refine .inl (h.resume (fun g used hused => ?_) fs l.link σ)
        subst hused
        obtain ⟨v, hs | hs⟩ := hbears.1
        · cases hs
        · exact ⟨v, Stage.handing.inj hs⟩
      · exact .inl (.keeps (List.mem_append_right _ hf) h)
  | _ =>
    cases h with
    | keeps hf h => exact .inl (.keeps (List.mem_append_right _ hf) h)

end Carries

/-! ## What becomes of a failure -/

/-- What the sink does with an error: that of an acquisition goes on to the bracket, some sinks report it as
a warning, and for all others an execution, or the effect of a cancellation, has raised it. -/
def Sink.Raises (e : Error) (σ : Store) : Sink → Prop
  | .acquired _ => False
  | .warn w => .warned w e ∈ σ.history
  | .lateRelease g => .lateReleaseFailed g e ∈ σ.history
  | _ => True

/-- At this moment the failure of the execution `x` is heard. -/
inductive Moment.Hears (e : Error) (x : ExecutionId) (m : Moment) : Prop
  /-- The program handles an error that reports it. -/
  | handled (l : Loop) (f : Frame) (fs : List Frame) (e' : Error)
    (hcall : m.call = some (.work (.handing (.error e')) l)) (hid : l.id = x) (hstack : l.stack = f :: fs)
    (hf : f.Handles) (he : e.Reports e')
  /-- An error that reports it is raised, or reported as a warning. -/
  | raised (k : Sink) (e' : Error) (hcall : m.call = some (.deliver x k (.error e'))) (he : e.Reports e')
    (hk : k.Raises e' m.next.1)

/-- At this moment the failure of the execution `x` is lost: its loop is stopped, as the connection was
cancelled, while it carries the failure; no cancellation is under way in the loop. -/
inductive Moment.Drops (e : Error) (x : ExecutionId) (m : Moment) : Prop
  | stopped (n : Node) (l : Loop) (c : ConnectionId) (hcall : m.call = some (.work (.looking n) l))
    (hid : l.id = x) (hlink : l.link = some c) (hcancelled : m.before.isCancelled (some c) = true)
    (hc : (Stage.looking n).Carries e l.stack) (hsweep : ∀ of t ts first, .sweep of t ts first ∉ l.stack)

/-- Whatever reports errors as warnings reports this one. -/
theorem Sink.receive_raises {k : Sink} (hk : ∀ g, k ≠ .acquired g) (e : Error) (σ : Store) :
    k.Raises e (k.receive (.error e) σ).1 := by
  cases k with
  | acquired g => exact absurd rfl (hk g)
  | warn w => simp [Sink.Raises, Sink.receive, Store.emit?]
  | lateRelease g =>
    simp only [Sink.Raises, Sink.receive]
    split <;> simp [Store.emit?]
  | _ => trivial

namespace Session

/-- The failure of the execution `x` is on its way. -/
inductive Underway (e : Error) (x : ExecutionId) (S : Session) : Prop
  /-- The loop carries it. -/
  | carried (s : Stage) (l : Loop) (h : S.Has s l) (hid : l.id = x) (hc : s.Carries e l.stack)
  /-- The execution is about to raise it. -/
  | due (k : Sink) (e' : Error) (h : .deliver x k (.error e') ∈ S.calls) (he : e.Reports e')
  /-- The acquisition of a bracket has raised it. -/
  | offered (g : BracketId) (br : Bracket) (e' : Error) (hg : S.store.bracket? g = some br)
    (hid : br.owner = x) (h : .complete (.boundary g) (.error e') ∈ S.calls) (he : e.Reports e')
  /-- The loop that opened the bracket is about to come to it. -/
  | ready (g : BracketId) (l : Loop) (e' : Error) (hl : S.Has (.leaving g) l) (hid : l.id = x)
    (h : S.store.boundary? g = some (.ready (.error e'))) (he : e.Reports e')

/-- The execution `y` is `x`, or the one for which that acquires the resource of a bracket, or for which
that one does. -/
inductive Within (S : Session) (x : ExecutionId) : ExecutionId → Prop
  | self : Within S x x
  | acquires {y : ExecutionId} {g : BracketId} {br : Bracket} (h : Within S x y)
    (hbegan : S.Began y (.acquired g)) (hg : S.store.bracket? g = some br) : Within S x br.owner

variable {cs : List Choice} {x : ExecutionId} {c : Choice} {e : Error}

theorem Began.later {k : Sink} {cs₀ : List Choice} (h : (after cs₀).Began x k) (cs : List Choice) :
    (after (cs ++ cs₀)).Began x k :=
  let ⟨m, hm, hbegan⟩ := h
  ⟨m, (past_suffix cs₀ cs).mem hm, hbegan⟩

/-! ### One step -/

/-- What is next of a loop that carries the failure. -/
theorem carried_next {s : Stage} {l : Loop} (h : (after cs).Has s l) (hc : s.Carries e l.stack)
    (c : Choice) : (after (c :: cs)).Underway e l.id ∨
      ∃ m, Made cs c m ∧ (m.Hears e l.id ∨ m.Drops e l.id) := by
  obtain hstays | ⟨b, r, rfl, hr, -⟩ | ⟨place, rfl, hcall, hown⟩ := next_of_has h c
  · exact .inl (.carried s l hstays rfl hc)
  · cases hc with
    | keeps hf hkeeps => exact .inl (.carried _ l hr rfl (.keeps hf hkeeps))
  have hm := made_call hcall
  obtain ⟨n, rfl, hcancelled⟩ | ⟨r, rfl, hstack⟩ | ⟨t, fs, ht, hnew⟩ := hown
  · refine .inr ⟨_, hm, .inr ?_⟩
    cases hlink : l.link with
    | none => rw [hlink] at hcancelled; cases hcancelled
    | some i =>
      rw [hlink] at hcancelled
      refine .stopped n l i rfl rfl hlink hcancelled hc fun of t ts first hmem => ?_
      obtain ⟨enclosing, hr⟩ := (stacks_stand cs _ l h).restore hmem
      cases hlink.symm.trans ((fits_of_has h).link_eq_none hr)
  · rw [hstack] at hc
    cases hc with
    | keeps hf hkeeps => exact (List.not_mem_nil hf).elim
    | hands hr =>
      cases r with
      | ok v => cases v <;> exact hr.elim
      | error e' =>
        refine .inl (.due l.sink e' ?_ hr)
        have hend : l.step (.handing (.error e')) (after cs).store =
            ((after cs).store, [.deliver l.id l.sink (.error e')]) := by simp only [Loop.step, hstack]
        have hnew : after (.call place :: cs) = _ := step_call hcall
        rw [hnew, record_calls]
        exact List.mem_append_left _ (by simp only [Activity.step, hend, List.mem_singleton])
  · obtain hcarries | ⟨e', f, rfl, hstack, hf, he⟩ := ht.carries hc (stacks_stand cs _ l h) (bears cs _ l h)
    · exact .inl (.carried _ _ hnew rfl hcarries)
    · exact .inr ⟨_, hm, .inl (.handled l f fs e' rfl rfl hstack hf he)⟩

/-- The acquisition of a bracket that raises an error is under way for the loop that opened the bracket. -/
theorem exists_of_acquiring {place : Nat} {g : BracketId} {r : Result}
    (hcall : (after cs).calls[place]? = some (.deliver x (.acquired g) r)) :
    ∃ br, (after cs).store.bracket? g = some br := by
  obtain ⟨xs, ys, hS, -⟩ := exists_of_place hcall
  have hdeal : (Activity.deliver x (.acquired g) r).deal g (after cs).store = .acquires r.isOk := if_pos rfl
  obtain ⟨-, -, br, hbr⟩ := acquiring hS hdeal
  cases hg : (after cs).store.bracket? g with
  | none => rw [Store.terms_of_none hg] at hbr; cases hbr
  | some br => exact ⟨br, rfl⟩

/-- What the acquisition of a bracket raises, the execution receives for which it acquires. -/
theorem underway_of_acquired {place : Nat} {g : BracketId} {e' : Error}
    (hcall : (after cs).calls[place]? = some (.deliver x (.acquired g) (.error e'))) (he : e.Reports e') :
    ∃ br, (after (.call place :: cs)).store.bracket? g = some br ∧
      (after (.call place :: cs)).Began x (.acquired g) ∧
        (after (.call place :: cs)).Underway e br.owner := by
  obtain ⟨br, hg⟩ := exists_of_acquiring hcall
  obtain ⟨br', hg', -⟩ := (after_grows cs [.call place]).bracket g br hg
  exact ⟨br', hg', Began.later ((entrusted cs).2 _ (List.mem_of_getElem? hcall)) [.call place],
    .offered g br' e' hg' rfl (acquired_next (r := .error e') hg nofun hcall).1 he⟩

/-- What is next of an error that is about to be raised. -/
theorem due_next {k : Sink} {e' : Error} (h : .deliver x k (.error e') ∈ (after cs).calls)
    (he : e.Reports e') (c : Choice) :
    (after (c :: cs)).Underway e x ∨
      (∃ y, (after (c :: cs)).Within x y ∧ (after (c :: cs)).Underway e y) ∨
        ∃ m, Made cs c m ∧ m.Hears e x := by
  obtain hstays | ⟨place, rfl, hcall⟩ := call_next h c
  · exact .inl (.due k e' hstays he)
  have hm := made_call hcall
  by_cases hk : ∃ g, k = .acquired g
  · obtain ⟨g, rfl⟩ := hk
    obtain ⟨br, hg, hbegan, hnext⟩ := underway_of_acquired hcall he
    exact .inr (.inl ⟨br.owner, .acquires .self hbegan hg, hnext⟩)
  · exact .inr (.inr ⟨_, hm, .raised k e' rfl he (Sink.receive_raises (fun g hg => hk ⟨g, hg⟩) e' _)⟩)

/-- What is next of an error that is offered to the boundary of a bracket. -/
theorem underway_of_offered {g : BracketId} {br : Bracket} {e' : Error}
    (hg : (after cs).store.bracket? g = some br)
    (h : .complete (.boundary g) (.error e') ∈ (after cs).calls) (he : e.Reports e') (c : Choice) :
    (after (c :: cs)).Underway e br.owner := by
  obtain ⟨l, hl, hid⟩ := leaving_of_offered hg h
  obtain ⟨br', hg', hgrows⟩ := (after_grows cs [c]).bracket g br hg
  obtain ⟨hl', hoffered | hready⟩ | hgone := offered_next hg hl h c
  · exact .offered g br' e' hg' hgrows.owner hoffered he
  · exact .ready g l e' hl' hid hready he
  · exact .carried _ l hgone hid (.looks (r := .error e') he)

/-- What is next of an error that is ready for its loop. -/
theorem underway_of_ready {g : BracketId} {l : Loop} {e' : Error} (hl : (after cs).Has (.leaving g) l)
    (h : (after cs).store.boundary? g = some (.ready (.error e'))) (he : e.Reports e') (c : Choice) :
    (after (c :: cs)).Underway e l.id := by
  obtain ⟨hl', hready⟩ | hgone := ready_next hl h c
  · exact .ready g l e' hl' rfl hready he
  · exact .carried _ l hgone rfl (.looks (r := .error e') he)

/-- **With every step a failure that is on its way stays so**, or goes on to the execution for which this one
acquires, or is heard, or is lost as the loop is stopped. -/
theorem Underway.next (h : (after cs).Underway e x) (c : Choice) :
    (∃ y, (after (c :: cs)).Within x y ∧ (after (c :: cs)).Underway e y) ∨
      ∃ m, Made cs c m ∧ (m.Hears e x ∨ m.Drops e x) := by
  cases h with
  | carried s l hl hid hc =>
    subst hid
    exact (carried_next hl hc c).imp_left fun h => ⟨_, .self, h⟩
  | due k e' hdue he =>
    obtain h | h | ⟨m, hm, h⟩ := due_next hdue he c
    · exact .inl ⟨x, .self, h⟩
    · exact .inl h
    · exact .inr ⟨m, hm, .inl h⟩
  | offered g br e' hg hid hcall he =>
    subst hid
    exact .inl ⟨_, .self, underway_of_offered hg hcall he c⟩
  | ready g l e' hl hid hready he =>
    subst hid
    exact .inl ⟨_, .self, underway_of_ready hl hready he c⟩

/-! ### All that follows -/

theorem Within.later {cs₀ : List Choice} {y : ExecutionId} (h : (after cs₀).Within x y) (cs : List Choice) :
    (after (cs ++ cs₀)).Within x y := by
  induction h with
  | self => exact .self
  | acquires _ hbegan hg ih =>
    obtain ⟨br', hg', hgrows⟩ := (after_grows cs₀ cs).bracket _ _ hg
    exact hgrows.owner ▸ ih.acquires (hbegan.later cs) hg'

theorem Within.trans {S : Session} {y z : ExecutionId} (h : S.Within x y) (h' : S.Within y z) :
    S.Within x z := by
  induction h' with
  | self => exact h
  | acquires _ hbegan hg ih => exact ih.acquires hbegan hg

/-- **A failure is on its way until it is heard**, or until the loop that carries it is stopped. -/
theorem underway_or {cs₀ : List Choice} (h : (after cs₀).Underway e x) (cs : List Choice) :
    ∃ y, (after (cs ++ cs₀)).Within x y ∧ ((after (cs ++ cs₀)).Underway e y ∨
      ∃ later m earlier, (after (cs ++ cs₀)).past = later ++ m :: earlier ∧ (after cs₀).past <:+ earlier ∧
        (m.Hears e y ∨ m.Drops e y)) := by
  induction cs with
  | nil => exact ⟨x, .self, .inl h⟩
  | cons c cs ih =>
    obtain ⟨y, hwithin, hy | ⟨later, m, earlier, hpast, hsuffix, hm⟩⟩ := ih
    · have hwithin' := hwithin.later [c]
      obtain ⟨z, hz, hnext⟩ | ⟨m, hmade, hm⟩ := hy.next c
      · exact ⟨z, hwithin'.trans hz, .inl hnext⟩
      · exact ⟨y, hwithin', .inr ⟨[], m, _, hmade.past, past_suffix cs₀ cs, hm⟩⟩
    · obtain ⟨newer, hnewer⟩ := past_suffix (cs ++ cs₀) [c]
      refine ⟨y, hwithin.later [c], .inr ⟨newer ++ later, m, earlier, ?_, hsuffix, hm⟩⟩
      rw [List.append_assoc, ← hpast]
      exact hnewer.symm

/-- The release of the bracket, which the loop runs, has failed. -/
def ReleaseFails (g : BracketId) (e : Error) (l : Loop) (S : Session) : Prop :=
  .work (.handing (.error e)) l ∈ S.calls ∧ ∃ below, l.stack = .attempt :: .openGate g :: below

/-- **A release that fails is heard**, unless the connection of its execution is cancelled. From when the
release of a bracket has failed with `e`, an error that reports `e` (which is `e`, maybe with more errors
suppressed, or has suppressed such an error) is on its way in the execution that runs the release, or in the
one for which that acquires a resource, until a handler of the program receives it, or an execution or the
effect of a cancellation raises it, or it is reported as a warning. It is lost only if the loop that has it on
its way is stopped, as the connection was cancelled under which that goes on, and never within a
cancellation. -/
theorem release_failure_heard {cs₀ : List Choice} {l₀ : Loop} {g : BracketId}
    (h : (after cs₀).ReleaseFails g e l₀) (cs : List Choice) :
    ∃ y, (after (cs ++ cs₀)).Within l₀.id y ∧ ((after (cs ++ cs₀)).Underway e y ∨
      ∃ later m earlier, (after (cs ++ cs₀)).past = later ++ m :: earlier ∧ (after cs₀).past <:+ earlier ∧
        (m.Hears e y ∨ m.Drops e y)) :=
  underway_or (.carried _ l₀ (.inl h.1) rfl (.hands (r := .error e) (.refl e))) cs

/-- A bracket whose use fails, and then its release, after so many steps. -/
def releaseFailing (steps : Nat) : List Choice :=
  List.replicate steps (.call 0) ++ [.input (.run (.bracket .unit (fun _ => .ret (.raise (.msg "use")))
    (.call fun _ _ => .ret (.raise (.msg "release")))) none true)]

/-- The run raises the failure of the use, in which that of the release was suppressed. -/
theorem failing_use_and_release_heard :
    (after (List.replicate 12 (.call 0) ++ releaseFailing 17)).store.runs[0]?.map Run.results =
        some [.error ((Error.msg "use").suppress (.msg "release"))] ∧
      ∃ l, (after (releaseFailing 17)).ReleaseFails 0 (.msg "release") l ∧
        ∃ y, (after (List.replicate 12 (.call 0) ++ releaseFailing 17)).Within l.id y ∧
          ((after (List.replicate 12 (.call 0) ++ releaseFailing 17)).Underway (.msg "release") y ∨
            ∃ later m earlier, (after (List.replicate 12 (.call 0) ++ releaseFailing 17)).past =
              later ++ m :: earlier ∧ (after (releaseFailing 17)).past <:+ earlier ∧
                (m.Hears (.msg "release") y ∨ m.Drops (.msg "release") y)) := by
  have hfails : ∃ l, (after (releaseFailing 17)).ReleaseFails 0 (.msg "release") l := ⟨_, .head _, _, rfl⟩
  obtain ⟨l, hl⟩ := hfails
  exact ⟨rfl, l, hl, release_failure_heard hl _⟩

end Session

end CancelableEffects
