import CancelableEffects.Proofs.Cancellations
import CancelableEffects.Proofs.Fates

/-!
# Runs — a cancellation runs the tokens that it took, one after the other

* `Loop.Sweeps`: a loop is about to run, or runs, tokens that were taken from a connection.
* `Session.begun`, `Session.finished`: which of them were started, and which are over.
* `Session.Clears`: how far an execution has come with the tokens that it took.
* **`Session.clears`**: the tokens are run newest first, the next one as soon as the last one is over.
* **`Session.no_token_lost`**: no token is lost, and none is run twice.
-/

namespace CancelableEffects

/-! ## Loops that run the tokens of a cancellation -/

/-- The node is the list of the tokens that were taken from the connection. -/
def Node.Sweeps (c : ConnectionId) : Node → Prop
  | .sweep of _ => of = some c
  | _ => False

/-- The frame holds the tokens that were taken from the connection and are still to be run. -/
def Frame.Sweeps (c : ConnectionId) : Frame → Prop
  | .sweep of _ _ _ => of = some c
  | _ => False

/-- The loop is about to run, or runs, tokens that were taken from the connection. -/
def Loop.Sweeps (c : ConnectionId) (s : Stage) (l : Loop) : Prop :=
  (∃ n, s = .looking n ∧ n.Sweeps c) ∨ ∃ f ∈ l.stack, f.Sweeps c

/-- The token that was taken from the connection and is run after the step of the call. -/
def Activity.begins? (c : ConnectionId) (σ : Store) : Activity → Option Token
  | .work (.looking (.sweep of (t :: _))) l =>
    if of = some c ∧ σ.isCancelled l.link = false then some t else none
  | .work (.handing _) ⟨_, _, .sweep of _ (t :: _) _ :: _, _⟩ => if of = some c then some t else none
  | _ => none

/-- The token that was taken from the connection and hands over its result, a value or an error, in
the step of the call. -/
def Activity.ends? (c : ConnectionId) : Activity → Option Token
  | .work (.handing _) ⟨_, _, .sweep of t _ _ :: _, _⟩ => if of = some c then some t else none
  | _ => none

namespace Session

/-- The tokens that were taken from the connection and were started, the latest first. -/
def begun (c : ConnectionId) (S : Session) : List Token :=
  S.past.filterMap fun m => m.call.bind (·.begins? c m.before)

/-- The tokens that were taken from the connection and are over, the latest first. -/
def finished (c : ConnectionId) (S : Session) : List Token :=
  S.past.filterMap fun m => m.call.bind (·.ends? c)

/-- How far the execution of the loop `l₀` has come with the tokens `ts` that it took from `c`. -/
inductive Clears (c : ConnectionId) (ts : List Token) (l₀ : Loop) (S : Session) : Prop
  /-- It is about to run the first one. -/
  | comes (h : S.Has (.looking (.sweep (some c) ts)) l₀) (hbegun : S.begun c = [])
    (hfinished : S.finished c = [])
  /-- It runs one of them, and those before are over. -/
  | runs (s : Stage) (l : Loop) (above : List Frame) (done rest : List Token) (t : Token)
    (first : Option Error) (enclosing : Link) (h : S.Has s l) (hid : l.id = l₀.id)
    (hts : ts = done ++ t :: rest)
    (hstack : l.stack = above ++ .sweep (some c) t rest first :: .restore enclosing :: l₀.stack)
    (habove : ∀ f ∈ above, ¬f.Sweeps c) (hs : ∀ n, s = .looking n → ¬n.Sweeps c)
    (hbegun : S.begun c = t :: done.reverse) (hfinished : S.finished c = done.reverse)
  /-- All of them were run. -/
  | ran (hnone : ∀ s l, S.Has s l → ¬l.Sweeps c s) (hbegun : S.begun c = ts.reverse)
    (hfinished : S.finished c = ts.reverse)
  /-- It was stopped before the first one, because its own connection was cancelled meanwhile. -/
  | stopped (σ : Store) (hc : σ.isCancelled l₀.link = true)
    (hpast : ⟨some (.work (.looking (.sweep (some c) ts)) l₀), σ, σ,
      [.deliver l₀.id l₀.sink (.error .cancelled)]⟩ ∈ S.past)
    (hgone : ∀ s l, S.Has s l → l.id ≠ l₀.id) (hbegun : S.begun c = []) (hfinished : S.finished c = [])

end Session

/-! ## Steps -/

section Steps

variable {c : ConnectionId} {σ : Store} {l : Loop} {s : Stage} {t : Turn} {fs : List Frame}

theorem Node.Plain.not_sweeps {n : Node} (h : n.Plain) : ¬n.Sweeps c := by
  cases n with
  | sweep of ts => simp [Node.Sweeps, h.1]
  | _ => exact id

theorem Stage.Plain.not_sweeps (h : s.Plain σ) {n : Node} (hn : s = .looking n) : ¬n.Sweeps c := by
  subst hn
  exact Node.Plain.not_sweeps h

theorem Store.takeRelease_not_sweeps (g : BracketId) (x : ExitCase) :
    ¬(σ.takeRelease g x).2.Sweeps c := by
  cases hheld : σ.held? g with
  | some v => simp [Store.takeRelease_of_held hheld, Node.Sweeps]
  | none => simp [Store.takeRelease_of_not_held hheld, Node.Sweeps]

/-- Only who cancels the connection is about to run its tokens. -/
theorem Node.cancels_of_sweeps {m n : Node} (hc : σ.isCancelled l.link = false)
    (hn : (m.step l.id l.link σ).stage = .looking n) (h : n.Sweeps c) :
    ∃ ts, l.Cancels σ c ts (.looking m) := by
  by_cases hm : m.Ordinary
  · exact absurd h ((m.step_plain hm l.id σ).stage.not_sweeps hn)
  cases m with
  | program p =>
    cases p with
    | bracket acquire use release => cases hn
    | pop c' =>
      simp only [Node.step, Prog.step] at hn
      split at hn <;> cases hn <;> exact h.elim
    | _ => exact absurd trivial hm
  | token t =>
    cases t with
    | bracket g =>
      cases hn
      exact absurd h (Store.takeRelease_not_sweeps g .cancelled)
    | connection c' =>
      simp only [Node.step, Token.begin] at hn
      split at hn
      · rename_i ts htaken
        cases hn
        obtain rfl : c' = some c := h
        exact ⟨ts, rfl, hc, by rw [htaken]⟩
      · cases hn
        exact h.elim
    | _ => exact absurd ⟨rfl, by simp⟩ hm
  | sweep of ts => cases ts <;> cases hn <;> exact h.elim
  | release g v x =>
    simp only [Node.step] at hn
    split at hn <;> cases hn
    exact h.elim
  | _ => exact absurd trivial hm

theorem Frame.not_sweeps {f : Frame} {r : Result} {link : Link} {n : Node}
    (hn : (f.resume r link σ).stage = .looking n) : ¬n.Sweeps c := by
  by_cases hf : f.Ordinary
  · exact (Frame.resume_plain hf r σ).stage.not_sweeps hn
  cases f with
  | use g f =>
    cases r
    all_goals cases hn
    exact id
  | release g =>
    cases hn
    exact Store.takeRelease_not_sweeps g _
  | openGate g =>
    cases r
    all_goals cases hn
    exact id
  | endBracket g used =>
    cases r
    all_goals cases hn
    exact id
  | sweep of t ts first => cases ts <;> cases hn <;> exact id
  | _ => exact absurd trivial hf

/-- A turn brings a loop to the tokens of a connection only if it cancels the connection. -/
theorem Loop.Takes.cancels_of_sweeps (ht : l.Takes σ s t fs) {n : Node} (hn : t.stage = .looking n)
    (h : n.Sweeps c) : ∃ ts, l.Cancels σ c ts s := by
  cases ht with
  | looking m hc => exact Node.cancels_of_sweeps hc hn h
  | handing r f fs hl => exact absurd h (Frame.not_sweeps hn)
  | delaying k => exact absurd h ((k.delaying_plain σ).stage.not_sweeps hn)
  | suspending k => exact absurd h ((k.suspending_plain σ).stage.not_sweeps hn)
  | mapping k => exact absurd h ((k.mapping_plain σ).stage.not_sweeps hn)

/-- A turn puts tokens of a connection on the stack only if the loop was to run them, or is done with
one of them. -/
theorem Loop.Takes.sweeps_of_frames (ht : l.Takes σ s t fs) {f : Frame} (hf : f ∈ t.frames)
    (h : f.Sweeps c) : (∃ n, s = .looking n ∧ n.Sweeps c) ∨
      ∃ r f gs, s = .handing r ∧ l.stack = f :: gs ∧ f.Sweeps c := by
  obtain ⟨above, below, hframes⟩ := List.append_of_mem hf
  cases f with
  | sweep of t rest first =>
    cases ht with
    | looking m hc =>
      obtain ⟨rfl, -⟩ := Node.sweep_frames hframes
      exact .inl ⟨_, rfl, h⟩
    | handing r f fs hl =>
      obtain ⟨⟨done, failure, rfl⟩, -⟩ := Frame.sweep_frames hframes
      exact .inr ⟨r, _, _, rfl, hl, h⟩
    | _ => simp [Code.turn] at hframes
  | _ => exact h.elim

/-- A loop that runs tokens of a connection did so before, or it cancels the connection. -/
theorem Loop.Takes.of_sweeps (ht : l.Takes σ s t fs) (h : (t.loop l fs).Sweeps c t.stage) :
    l.Sweeps c s ∨ ∃ ts, l.Cancels σ c ts s := by
  obtain ⟨n, hn, h⟩ | ⟨f, hf, h⟩ := h
  · exact .inr (ht.cancels_of_sweeps hn h)
  refine .inl ?_
  have hold : fs ⊆ l.stack := by
    cases ht with
    | handing r f fs hl => exact hl ▸ List.subset_cons_self f fs
    | _ => exact fun _ h => h
  obtain hf | hf := List.mem_append.1 hf
  · obtain hs | ⟨r, f', gs, -, hl, h⟩ := ht.sweeps_of_frames hf h
    · exact .inl hs
    · exact .inr ⟨f', hl ▸ List.mem_cons_self, h⟩
  · exact .inr ⟨f, hold hf, h⟩

/-- Only a loop that runs tokens of the connection starts one, or is done with one. -/
theorem Activity.sweeps_of_begins {a : Activity} (h : a.begins? c σ ≠ none ∨ a.ends? c ≠ none) :
    ∃ s l, a = .work s l ∧ l.Sweeps c s := by
  unfold Activity.begins? Activity.ends? at h
  obtain h | h := h
  · split at h
    · split at h
      · rename_i hof
        exact ⟨_, _, rfl, .inl ⟨_, rfl, hof.1⟩⟩
      · exact absurd rfl h
    · split at h
      · rename_i hof
        exact ⟨_, _, rfl, .inr ⟨_, List.mem_cons_self, hof⟩⟩
      · exact absurd rfl h
    · exact absurd rfl h
  · split at h
    · split at h
      · rename_i hof
        exact ⟨_, _, rfl, .inr ⟨_, List.mem_cons_self, hof⟩⟩
      · exact absurd rfl h
    · exact absurd rfl h

/-- An execution begins with something plain, or without a connection and not with the tokens of one. -/
def Activity.Opening : Activity → Prop
  | .start n link _ => n.Plain ∨ link = none ∧ ∀ c, ¬n.Sweeps c
  | _ => True

theorem Activity.Plain.opening {a : Activity} {σ : Store} (h : a.Plain σ) : a.Opening := by
  cases a with
  | start n link k => exact .inl h.1
  | _ => trivial

theorem Loop.Takes.opening (ht : l.Takes σ s t fs) {a : Activity} (h : a ∈ t.calls) : a.Opening := by
  cases ht with
  | looking m hc =>
    by_cases hm : m.Ordinary
    · exact ((m.step_plain hm l.id σ).calls _ h).opening
    cases m with
    | program p =>
      cases p with
      | bracket acquire use release =>
        simp only [Node.step, Prog.step, Store.push, List.mem_append, List.mem_singleton] at h
        obtain h | rfl := h
        · split at h
          · cases List.mem_singleton.1 h
            exact .inr ⟨rfl, fun _ h => h⟩
          · cases h
        · exact .inr ⟨rfl, fun _ h => h⟩
      | pop c' =>
        simp only [Node.step, Prog.step] at h
        split at h <;> cases h
      | _ => exact absurd trivial hm
    | token t =>
      cases t with
      | bracket g => cases h
      | connection c' =>
        simp only [Node.step, Token.begin] at h
        split at h <;> cases h
      | _ => exact absurd ⟨rfl, by simp⟩ hm
    | sweep of ts => cases ts <;> cases h
    | release g v x =>
      simp only [Node.step] at h
      split at h <;> cases h
    | _ => exact absurd trivial hm
  | handing r f fs hl =>
    by_cases hf : f.Ordinary
    · exact ((Frame.resume_plain hf r σ).calls _ h).opening
    cases f with
    | use g f => cases r <;> cases h
    | release g => cases h
    | openGate g =>
      cases r with
      | ok v => exact ((Store.plain_completeSteps _ _ σ) _ h).opening
      | error e => cases h
    | endBracket g used => cases r <;> cases h
    | sweep of t ts first => cases ts <;> cases h
    | _ => exact absurd trivial hf
  | delaying k => exact ((k.delaying_plain σ).calls _ h).opening
  | suspending k => exact ((k.suspending_plain σ).calls _ h).opening
  | mapping k => exact ((k.mapping_plain σ).calls _ h).opening

/-- Only without a connection does an execution begin with a release or with the token of a bracket, and
none begins with the tokens of a connection. -/
theorem Activity.step_opening (a : Activity) (σ : Store) : ∀ a' ∈ (a.step σ).2, a'.Opening := by
  intro a' h
  by_cases ha : a.Ordinary
  · obtain ⟨σ', -, hplain⟩ := Activity.step_plain ha σ
    exact (hplain.calls _ h).opening
  cases a with
  | start n' link' k' =>
    cases List.mem_singleton.1 h
    trivial
  | work s l =>
    simp only [Activity.step] at h
    obtain ⟨m, rfl, -, hstep⟩ | ⟨r, rfl, -, hstep⟩ | ⟨t, fs, ht⟩ | ⟨b, rfl⟩ := l.step_takes s σ
    · rw [hstep] at h
      cases List.mem_singleton.1 h
      trivial
    · rw [hstep] at h
      cases List.mem_singleton.1 h
      trivial
    · rw [ht.step] at h
      obtain h | h := List.mem_append.1 h
      · exact ht.opening h
      · cases List.mem_singleton.1 h
        trivial
    · simp only [Loop.step, Store.leave] at h
      split at h
      · cases List.mem_singleton.1 h
        trivial
      · cases h
      · cases h
  | deliver e k' r =>
    cases k' with
    | acquired g =>
      simp only [Activity.step, Sink.receive, Store.endAcquire] at h
      split at h
      · cases h
      · split at h
        · obtain h | h := List.mem_append.1 h
          · exact (Store.plain_completeSteps _ _ σ _ h).opening
          · cases List.mem_singleton.1 h
            trivial
        · split at h
          · cases List.mem_singleton.1 h
            exact .inr ⟨rfl, fun _ => Store.takeRelease_not_sweeps g _⟩
          · cases List.mem_singleton.1 h
            trivial
    | lateRelease g =>
      simp only [Activity.step, Sink.receive] at h
      split at h
      · cases List.mem_singleton.1 h
        trivial
      · cases h
    | _ => exact absurd trivial ha
  | complete x r =>
    cases x with
    | boundary b =>
      simp only [Activity.step, Completer.complete, Store.completeBoundary] at h
      split at h
      · cases h
      · cases List.mem_singleton.1 h
        trivial
      · cases h
    | _ => exact absurd trivial ha
  | _ => exact absurd trivial ha

end Steps

/-! ## Sessions -/

namespace Session

variable {c : ConnectionId} {cs₀ cs : List Choice} {x : Choice} {s : Stage} {l : Loop}

theorem opening (cs : List Choice) : ∀ a ∈ (after cs).calls, a.Opening := by
  refine invariant (P := fun S => ∀ a ∈ S.calls, a.Opening) (by simp) ?_ ?_ cs
  · intro cs i ih a h
    obtain h | h := List.mem_append.1 h
    · obtain ⟨σ', -, hplain⟩ := i.step_plain (after cs).store
      exact (hplain.calls _ h).opening
    · exact ih a h
  · intro cs a xs ys hS ih a' h
    obtain h | h := List.mem_append.1 h
    · exact a.step_opening _ a' h
    · refine ih a' ?_
      rw [hS]
      simp only [List.mem_append, List.mem_cons] at h ⊢
      exact h.imp_right .inr

/-- No execution begins with the tokens of a connection. -/
theorem start_not_sweeps (cs : List Choice) {n : Node} {link : Link} {k : Sink}
    (h : .start n link k ∈ (after cs).calls) : ¬n.Sweeps c :=
  (opening cs _ h).elim Node.Plain.not_sweeps fun h => h.2 c

/-- A loop that runs tokens of a connection did so before, or has just cancelled it. -/
theorem sweeps_before (h : (after (x :: cs)).Has s l) (hs : l.Sweeps c s) :
    (∃ s₀ l₀, (after cs).Has s₀ l₀ ∧ l₀.Sweeps c s₀ ∧ l₀.id = l.id) ∨
      ∃ place s₀ l₀ ts, x = .call place ∧ (after cs).calls[place]? = some (.work s₀ l₀) ∧
        l₀.Cancels (after cs).store c ts s₀ ∧ l₀.id = l.id := by
  change ((after cs).step x).Has s l at h
  have hresult : ∀ {b r}, s = .looking (.result r) → l.Sweeps c (.leaving b) := by
    rintro b r rfl
    obtain ⟨n, hn, h⟩ | h := hs
    · cases hn
      exact h.elim
    · exact .inr h
  cases h.moves with
  | stays h => exact .inl ⟨s, l, h, hs, rfl⟩
  | begins place n link k hx hcall hstage hl =>
    subst hstage hl
    obtain ⟨n', hn, h⟩ | ⟨f, hf, -⟩ := hs
    · cases hn
      exact absurd h (start_not_sweeps cs (List.mem_of_getElem? hcall))
    · exact (List.not_mem_nil hf).elim
  | turns place s₀ l₀ t fs hx hcall ht hstage hl =>
    subst hstage hl
    obtain hs | ⟨ts, hcancels⟩ := ht.of_sweeps hs
    · exact .inl ⟨s₀, l₀, .inl (List.mem_of_getElem? hcall), hs, rfl⟩
    · exact .inr ⟨place, s₀, l₀, ts, hx, hcall, hcancels, rfl⟩
  | goesOn place b r hx hcall hready hstage =>
    exact .inl ⟨_, l, .inl (List.mem_of_getElem? hcall), hresult hstage, rfl⟩
  | wakes place b r hx hcall hparked hstage =>
    exact .inl ⟨_, l, .inr ⟨b, rfl, hparked⟩, hresult hstage, rfl⟩

/-- Nobody runs tokens of a connection that is active. -/
theorem cancelled_of_sweeps (h : (after cs).Has s l) (hs : l.Sweeps c s) :
    (after cs).store.isCancelled (some c) = true := by
  induction cs generalizing s l with
  | nil => simp [Has, after, Store.boundary?] at h
  | cons x cs ih =>
    obtain ⟨s₀, l₀, h₀, hs₀, -⟩ | ⟨place, s₀, l₀, ts, rfl, hcall, hcancels, -⟩ := sweeps_before h hs
    · exact (step_grows (after cs) x).cancelled _ (ih h₀ hs₀)
    · exact isCancelled_of_cancels hcall hcancels []

theorem begun_call {S : Session} {place : Nat} {a : Activity} (h : S.calls[place]? = some a) :
    (S.step (.call place)).begun c = (a.begins? c S.store).toList ++ S.begun c ∧
      (S.step (.call place)).finished c = (a.ends? c).toList ++ S.finished c := by
  simp only [begun, finished, past_call h, List.filterMap_cons, Option.bind_some]
  constructor
  · cases a.begins? c S.store <;> rfl
  · cases a.ends? c <;> rfl

/-- Only a turn of a loop that runs tokens of the connection changes the account. -/
theorem begun_of_quiet {S : Session} (hx : ∀ place s l, x = .call place →
    S.calls[place]? = some (.work s l) → l.Sweeps c s → ∃ b, s = .leaving b) :
    (S.step x).begun c = S.begun c ∧ (S.step x).finished c = S.finished c := by
  cases x with
  | input i => exact ⟨rfl, rfl⟩
  | call place =>
    cases ha : S.calls[place]? with
    | none => simp only [step, ha, and_self]
    | some a =>
      have hnone : a.begins? c S.store = none ∧ a.ends? c = none := by
        by_contra h
        obtain ⟨s, l, rfl, hs⟩ := Activity.sweeps_of_begins (not_and_or.1 h)
        obtain ⟨b, rfl⟩ := hx place s l rfl ha hs
        exact h ⟨rfl, rfl⟩
      rw [(begun_call ha).1, (begun_call ha).2, hnone.1, hnone.2]
      exact ⟨rfl, rfl⟩

/-- No token of an active connection was run by its cancellation. -/
theorem begun_of_active (h : (after cs).store.isCancelled (some c) = false) :
    (after cs).begun c = [] ∧ (after cs).finished c = [] := by
  induction cs with
  | nil => exact ⟨rfl, rfl⟩
  | cons x cs ih =>
    have hactive : (after cs).store.isCancelled (some c) = false := by
      rw [Bool.eq_false_iff] at h ⊢
      exact fun hc => h ((step_grows (after cs) x).cancelled _ hc)
    have hquiet := begun_of_quiet (S := after cs) (x := x) (c := c) fun place s l _ hcall hs =>
      absurd (cancelled_of_sweeps (.inl (List.mem_of_getElem? hcall)) hs) (by simp [hactive])
    exact ⟨hquiet.1.trans (ih hactive).1, hquiet.2.trans (ih hactive).2⟩

/-- An execution that has handed over its result is at work nowhere. -/
theorem not_has_of_deliver {e : ExecutionId} {k : Sink} {r : Result}
    (h : .deliver e k r ∈ (after cs).calls) (hl : (after cs).Has s l) : l.id ≠ e := by
  rintro rfl
  have hledger := ledger l.id cs
  have hheld := held_of_has hl
  have hdelivering : 0 < (after cs).delivering l.id := List.countP_pos_iff.2 ⟨_, h, by simp⟩
  unfold holders at hledger
  split at hledger <;> omega

/-- An execution that is at work nowhere never is again. -/
theorem not_has_step {e : ExecutionId} (he : e < (after cs).store.executions)
    (hgone : ∀ s l, (after cs).Has s l → l.id ≠ e) : ∀ s l, (after (x :: cs)).Has s l → l.id ≠ e := by
  intro s l h
  change ((after cs).step x).Has s l at h
  cases h.moves with
  | stays h => exact hgone s l h
  | begins place n link k hx hcall hs hl =>
    subst hl
    exact Nat.ne_of_gt he
  | turns place s₀ l₀ t fs hx hcall ht hs hl =>
    subst hl
    exact hgone s₀ l₀ (.inl (List.mem_of_getElem? hcall))
  | goesOn place b r hx hcall hready hs => exact hgone _ l (.inl (List.mem_of_getElem? hcall))
  | wakes place b r hx hcall hparked hs => exact hgone _ l (.inr ⟨b, rfl, hparked⟩)

/-! ## The run of a cancellation -/

section Clears

variable {place : Nat} {ts : List Token} {s₀ : Stage} {l₀ : Loop}

/-- Only the execution that took the tokens of a connection runs them. -/
theorem id_of_sweeps (hcall : (after cs₀).calls[place]? = some (.work s₀ l₀))
    (hcancels : l₀.Cancels (after cs₀).store c ts s₀)
    (h : (after (cs ++ .call place :: cs₀)).Has s l) (hs : l.Sweeps c s) : l.id = l₀.id := by
  induction cs generalizing s l with
  | nil =>
    obtain ⟨s', l', h', hs', -⟩ | ⟨place', s', l', ts', hplace, hcall', -, hid⟩ := sweeps_before h hs
    · have hc := cancelled_of_sweeps h' hs'
      rw [hcancels.active] at hc
      cases hc
    · cases hplace
      rw [hcall, Option.some.injEq, Activity.work.injEq] at hcall'
      rw [← hid, ← hcall'.2]
  | cons x cs ih =>
    obtain ⟨s', l', h', hs', hid⟩ | ⟨place', s', l', ts', -, -, hcancels', -⟩ := sweeps_before h hs
    · exact hid.symm.trans (ih h' hs')
    · exact absurd (hcancels'.active.symm.trans (isCancelled_of_cancels hcall hcancels cs)) (by simp)

/-- Nobody begins to run tokens of a connection that was cancelled before. -/
theorem not_sweeps_step (hc : (after cs).store.isCancelled (some c) = true)
    (hnone : ∀ s l, (after cs).Has s l → ¬l.Sweeps c s) :
    ∀ s l, (after (x :: cs)).Has s l → ¬l.Sweeps c s := by
  intro s l h hs
  obtain ⟨s', l', h', hs', -⟩ | ⟨place', s', l', ts', -, -, hcancels, -⟩ := sweeps_before h hs
  · exact hnone s' l' h' hs'
  · have hactive := hcancels.active
    rw [hc] at hactive
    cases hactive

/-- When nobody runs tokens of a connection that was cancelled, nobody ever does. -/
theorem account_of_not_sweeps (hc : (after cs).store.isCancelled (some c) = true)
    (hnone : ∀ s l, (after cs).Has s l → ¬l.Sweeps c s) (x : Choice) :
    (∀ s l, (after (x :: cs)).Has s l → ¬l.Sweeps c s) ∧
      (after (x :: cs)).begun c = (after cs).begun c ∧ (after (x :: cs)).finished c = (after cs).finished c :=
  ⟨not_sweeps_step hc hnone, begun_of_quiet fun _ s l _ hcall hs =>
    absurd hs (hnone s l (.inl (List.mem_of_getElem? hcall)))⟩

/-- While the execution takes no turn, its account stays as it is. -/
theorem Clears.other (h : (after cs).Clears c ts l₀) (hbegan : l₀.id < (after cs).store.executions)
    (hc : (after cs).store.isCancelled (some c) = true)
    (hid : ∀ s l, (after cs).Has s l → l.Sweeps c s → l.id = l₀.id)
    (hx : ∀ place s l, x = .call place → (after cs).calls[place]? = some (.work s l) →
      l.id = l₀.id → ∃ b, s = .leaving b) : (after (x :: cs)).Clears c ts l₀ := by
  have hquiet := begun_of_quiet (S := after cs) (x := x) (c := c) fun place s l hplace hcall hs =>
    hx place s l hplace hcall (hid s l (.inl (List.mem_of_getElem? hcall)) hs)
  cases h with
  | comes h hbegun hfinished =>
    obtain ⟨s', h', rfl | ⟨b, r, hb, -⟩⟩ := has_other h fun place s l hplace hcall hl =>
      hx place s l hplace hcall hl
    · exact .comes h' (hquiet.1.trans hbegun) (hquiet.2.trans hfinished)
    · cases hb
  | runs s l above done rest t first enclosing h hl hts hstack habove hs hbegun hfinished =>
    obtain ⟨s', h', hs'⟩ := has_other h fun place s' l' hplace hcall hl' =>
      hx place s' l' hplace hcall (hl'.trans hl)
    refine .runs s' l above done rest t first enclosing h' hl hts hstack habove ?_
      (hquiet.1.trans hbegun) (hquiet.2.trans hfinished)
    obtain rfl | ⟨b, r, -, rfl⟩ := hs'
    · exact hs
    · rintro n hn
      cases hn
      exact id
  | ran hnone hbegun hfinished =>
    exact .ran (not_sweeps_step hc hnone) (hquiet.1.trans hbegun) (hquiet.2.trans hfinished)
  | stopped σ hσ hpast hgone hbegun hfinished =>
    exact .stopped σ hσ ((past_suffix_step _ x).subset hpast) (not_has_step hbegan hgone)
      (hquiet.1.trans hbegun) (hquiet.2.trans hfinished)

/-- The account of a step in which a loop hands a result to a frame of something else. -/
theorem begins?_of_not_sweeps {σ : Store} {r : Result} {f : Frame} {fs : List Frame}
    (hl : l.stack = f :: fs) (hf : ¬f.Sweeps c) :
    (Activity.work (.handing r) l).begins? c σ = none ∧
      (Activity.work (.handing r) l).ends? c = none := by
  obtain ⟨e, link, stack, k⟩ := l
  subst hl
  cases f with
  | sweep of t ts first =>
    have hof : ¬of = some c := hf
    cases ts <;> simp [Activity.begins?, Activity.ends?, hof]
  | _ => exact ⟨rfl, rfl⟩

/-- The account of a step in which a token hands over its result. -/
theorem begins?_of_sweeps {σ : Store} {r : Result} {t : Token} {rest : List Token}
    {first : Option Error} {fs : List Frame} (hl : l.stack = .sweep (some c) t rest first :: fs) :
    (Activity.work (.handing r) l).begins? c σ = rest.head? ∧
      (Activity.work (.handing r) l).ends? c = some t := by
  obtain ⟨e, link, stack, k⟩ := l
  subst hl
  cases rest <;> simp [Activity.begins?, Activity.ends?]

/-- All tokens have been run: the loop is at work above the stack that it had. -/
theorem not_sweeps_of_end (cs : List Choice) (hcall : (after cs₀).calls[place]? = some (.work s₀ l₀))
    (hcancels : l₀.Cancels (after cs₀).store c ts s₀) {r : Result} {enclosing : Link}
    (h : (after (cs ++ .call place :: cs₀)).Has (.looking (.result r)) l) (hl : l.id = l₀.id)
    (hstack : l.stack = .restore enclosing :: l₀.stack) :
    ∀ s l, (after (cs ++ .call place :: cs₀)).Has s l → ¬l.Sweeps c s := by
  intro s' l' h' hs'
  obtain ⟨rfl, rfl⟩ := has_unique h h' ((id_of_sweeps hcall hcancels h' hs').trans hl.symm)
  obtain ⟨n, hn, hs'⟩ | ⟨f, hf, hs'⟩ := hs'
  · cases hn
    exact hs'
  · rw [hstack] at hf
    obtain rfl | hf := List.mem_cons.1 hf
    · exact hs'
    · have hc := cancelled_of_sweeps (.inl (List.mem_of_getElem? hcall)) (.inr ⟨f, hf, hs'⟩)
      rw [hcancels.active] at hc
      cases hc

/-- The execution comes to its first token, or is stopped. -/
theorem clears_of_comes (hcall : (after cs₀).calls[place]? = some (.work s₀ l₀))
    (hcancels : l₀.Cancels (after cs₀).store c ts s₀) {place' : Nat}
    (hcall' : (after (cs ++ .call place :: cs₀)).calls[place']? =
      some (.work (.looking (.sweep (some c) ts)) l₀))
    (hbegun : (after (cs ++ .call place :: cs₀)).begun c = [])
    (hfinished : (after (cs ++ .call place :: cs₀)).finished c = []) :
    (after (.call place' :: (cs ++ .call place :: cs₀))).Clears c ts l₀ := by
  have hpast := past_call hcall'
  obtain ⟨hbegun', hfinished'⟩ := begun_call (c := c) hcall'
  rw [hbegun, List.append_nil] at hbegun'
  rw [hfinished, List.append_nil] at hfinished'
  obtain ⟨n, hn, hc, hstep⟩ | ⟨r, hr, -⟩ | ⟨t, fs, ht⟩ | ⟨b, hb⟩ :=
    l₀.step_takes (.looking (.sweep (some c) ts)) (after (cs ++ .call place :: cs₀)).store
  · refine .stopped _ hc (hpast ▸ ?_) ?_ (hbegun'.trans ?_) hfinished'
    · rw [Activity.step, hstep]
      exact List.mem_cons_self
    · have hdelivers : .deliver l₀.id l₀.sink (.error .cancelled) ∈
          (after (.call place' :: (cs ++ .call place :: cs₀))).calls := by
        change _ ∈ ((after (cs ++ .call place :: cs₀)).step (.call place')).calls
        rw [step_call hcall', record_calls, Activity.step, hstep]
        exact List.mem_cons_self
      exact fun s l => not_has_of_deliver hdelivers
    · cases ts <;> simp [Activity.begins?, hc]
  · cases hr
  · have hwork : (after (.call place' :: (cs ++ .call place :: cs₀))).Has _ _ :=
      .inl (work_of_takes hcall' ht)
    cases ht with
    | looking n hc =>
      cases ts with
      | nil =>
        exact .ran (not_sweeps_of_end (.call place' :: cs) hcall hcancels hwork rfl rfl) hbegun' hfinished'
      | cons t rest =>
        refine .runs _ _ [] [] rest t none l₀.link hwork rfl rfl rfl (by simp) ?_ (hbegun'.trans ?_)
          hfinished'
        · rintro n hn
          cases hn
          exact id
        · simp [Activity.begins?, hc]
  · cases hb

/-- The execution takes a turn while it runs a token, or comes to the next one. -/
theorem clears_of_runs (hcall : (after cs₀).calls[place]? = some (.work s₀ l₀))
    (hcancels : l₀.Cancels (after cs₀).store c ts s₀) {place' : Nat} {above : List Frame}
    {done rest : List Token} {t : Token} {first : Option Error} {enclosing : Link}
    (hcall' : (after (cs ++ .call place :: cs₀)).calls[place']? = some (.work s l))
    (hid : l.id = l₀.id) (hts : ts = done ++ t :: rest)
    (hstack : l.stack = above ++ .sweep (some c) t rest first :: .restore enclosing :: l₀.stack)
    (habove : ∀ f ∈ above, ¬f.Sweeps c) (hs : ∀ n, s = .looking n → ¬n.Sweeps c)
    (hleaving : ∀ b, s ≠ .leaving b)
    (hbegun : (after (cs ++ .call place :: cs₀)).begun c = t :: done.reverse)
    (hfinished : (after (cs ++ .call place :: cs₀)).finished c = done.reverse) :
    (after (.call place' :: (cs ++ .call place :: cs₀))).Clears c ts l₀ := by
  have hcancelled := isCancelled_of_cancels hcall hcancels cs
  have hmem := List.mem_of_getElem? hcall'
  have hlink : l.link = none := (fits_of_has (.inl hmem)).link_eq_none
    (show Frame.restore enclosing ∈ l.stack by simp [hstack])
  obtain ⟨hbegun', hfinished'⟩ := begun_call (c := c) hcall'
  rw [hbegun] at hbegun'
  rw [hfinished] at hfinished'
  obtain ⟨n, -, hc, -⟩ | ⟨r, -, hempty, -⟩ | ⟨turn, fs, ht⟩ | ⟨b, hb⟩ :=
    l.step_takes s (after (cs ++ .call place :: cs₀)).store
  · rw [hlink] at hc
    cases hc
  · simp [hempty] at hstack
  · have hwork : (after (.call place' :: (cs ++ .call place :: cs₀))).Has turn.stage (turn.loop l fs) :=
      .inl (work_of_takes hcall' ht)
    have hstage : ∀ n, turn.stage = .looking n → ¬n.Sweeps c := fun n hn hsweeps => by
      obtain ⟨ts', hcancels'⟩ := ht.cancels_of_sweeps hn hsweeps
      rw [hcancels'.active] at hcancelled
      cases hcancelled
    -- the token goes on as long as its frame stays below
    have hkeeps : ∀ above' : List Frame,
        fs = above' ++ .sweep (some c) t rest first :: .restore enclosing :: l₀.stack →
        (∀ f ∈ above', ¬f.Sweeps c) → (∀ f ∈ turn.frames, ¬f.Sweeps c) →
        (Activity.work s l).begins? c (after (cs ++ .call place :: cs₀)).store = none →
        (Activity.work s l).ends? c = none →
        (after (.call place' :: (cs ++ .call place :: cs₀))).Clears c ts l₀ := by
      intro above' hfs habove' hframes hbegins hends
      rw [hbegins] at hbegun'
      rw [hends] at hfinished'
      refine .runs _ _ (turn.frames ++ above') done rest t first enclosing hwork hid hts ?_ ?_ hstage
        hbegun' hfinished'
      · rw [Turn.loop, hfs, List.append_assoc]
      · exact List.forall_mem_append.2 ⟨hframes, habove'⟩
    cases ht with
    | looking n hc =>
      have hn := hs n rfl
      refine hkeeps above hstack habove (fun f hf hsweeps => ?_) ?_ rfl
      · obtain ⟨n', hn', hsweeps⟩ | ⟨r, -, -, hr, -⟩ :=
          (Loop.Takes.looking n hc).sweeps_of_frames hf hsweeps
        · cases hn'
          exact hn hsweeps
        · cases hr
      · cases n with
        | sweep of ts =>
          have hof : ¬of = some c := hn
          cases ts <;> simp [Activity.begins?, hof]
        | _ => rfl
    | handing r f fs hl =>
      obtain _ | ⟨f', above⟩ := above
      · obtain ⟨rfl, rfl⟩ := List.cons.inj (hl.symm.trans hstack)
        obtain ⟨hbegins, hends⟩ :=
          begins?_of_sweeps (σ := (after (cs ++ .call place :: cs₀)).store) (r := r) hl
        rw [hbegins] at hbegun'
        rw [hends] at hfinished'
        cases rest with
        | nil =>
          refine .ran (not_sweeps_of_end (.call place' :: cs) hcall hcancels hwork hid rfl)
            (hbegun'.trans ?_) (hfinished'.trans ?_)
          · simp [hts]
          · simp [hts]
        | cons t' rest =>
          refine .runs _ _ [] (done ++ [t]) rest t' _ enclosing hwork hid ?_ rfl (by simp) hstage
            (hbegun'.trans ?_) (hfinished'.trans ?_)
          · simp [hts]
          · simp
          · simp
      · obtain ⟨rfl, rfl⟩ := List.cons.inj (hl.symm.trans hstack)
        obtain ⟨hf, habove⟩ := List.forall_mem_cons.1 habove
        obtain ⟨hbegins, hends⟩ := begins?_of_not_sweeps hl hf
        refine hkeeps above rfl habove (fun g hg hsweeps => ?_) hbegins hends
        obtain ⟨n, hn, -⟩ | ⟨r', f', gs, -, hl', hsweeps⟩ :=
          (Loop.Takes.handing r f _ hl).sweeps_of_frames hg hsweeps
        · cases hn
        · obtain ⟨rfl, -⟩ := List.cons.inj (hl.symm.trans hl')
          exact hf hsweeps
    | delaying k => exact hkeeps above hstack habove (by simp [Code.turn]) rfl rfl
    | suspending k => exact hkeeps above hstack habove (by simp [Code.turn]) rfl rfl
    | mapping k => exact hkeeps above hstack habove (by simp [Code.turn]) rfl rfl
  · exact absurd hb (hleaving b)

/-- **A cancellation runs the tokens that it took** newest first, the next one as soon as the last one
is over, and none twice; it can be stopped only before the first one. -/
theorem clears (hcall : (after cs₀).calls[place]? = some (.work s₀ l₀))
    (hcancels : l₀.Cancels (after cs₀).store c ts s₀) (cs : List Choice) :
    (after (cs ++ .call place :: cs₀)).Clears c ts l₀ := by
  induction cs with
  | nil =>
    obtain ⟨hbegun, hfinished⟩ := begun_of_active hcancels.active
    obtain ⟨hbegun', hfinished'⟩ := begun_call (c := c) hcall
    refine .comes (.inl (work_of_cancels hcall hcancels)) (hbegun'.trans ?_) (hfinished'.trans ?_) <;>
      rw [hcancels.stage]
    · exact hbegun
    · exact hfinished
  | cons x cs ih =>
    have hc := isCancelled_of_cancels hcall hcancels cs
    have hbegan : l₀.id < (after (cs ++ .call place :: cs₀)).store.executions :=
      Nat.lt_of_lt_of_le (lt_executions (.inl (work_of_cancels hcall hcancels))) (executions_le _ cs)
    by_cases hown : ∃ place' s l, x = .call place' ∧ l.id = l₀.id ∧ (∀ b, s ≠ .leaving b) ∧
      (after (cs ++ .call place :: cs₀)).calls[place']? = some (.work s l)
    · obtain ⟨place', s, l, rfl, hid, hs, hcall'⟩ := hown
      have hl : (after (cs ++ .call place :: cs₀)).Has s l := .inl (List.mem_of_getElem? hcall')
      cases ih with
      | comes h hbegun hfinished =>
        obtain ⟨rfl, rfl⟩ := has_unique h hl hid
        exact clears_of_comes hcall hcancels hcall' hbegun hfinished
      | runs s' l' above done rest t first enclosing h hid' hts hstack habove hnode hbegun hfinished =>
        obtain ⟨rfl, rfl⟩ := has_unique h hl (hid.trans hid'.symm)
        exact clears_of_runs hcall hcancels hcall' hid hts hstack habove hnode hs hbegun hfinished
      | ran hnone hbegun hfinished =>
        obtain ⟨hnone', hbegun', hfinished'⟩ := account_of_not_sweeps hc hnone (.call place')
        exact .ran hnone' (hbegun'.trans hbegun) (hfinished'.trans hfinished)
      | stopped σ hσ hpast hgone hbegun hfinished => exact absurd hid (hgone s l hl)
    · refine ih.other hbegan hc (fun s l h hs => id_of_sweeps hcall hcancels h hs) ?_
      intro place' s l hplace hcall' hid
      by_contra hs
      exact hown ⟨place', s, l, hplace, hid, fun b hb => hs ⟨b, hb⟩, hcall'⟩

end Clears

/-! ## The account of a connection -/

open Connection.Operation

/-- Cancelling a connection creates none. -/
theorem size_of_cancel {σ : Store} {link : Link} (hc : σ.isCancelled l.link = false) :
    (l.step (.looking (.token (.connection link))) σ).1.connections.size = σ.connections.size := by
  have hsize : (σ.cancel link).1.connections.size = σ.connections.size := by
    cases link <;> simp [Store.cancel, Store.emit?, Store.modifyConnection]
  rw [l.step_of_not_cancelled hc]
  simp only [Node.step, Token.begin]
  split <;> rename_i h <;> rw [h] at hsize <;> exact hsize

/-- The effect that cancels a connection is the only one that does. -/
theorem cancels_of_operationOn (h : x.operationOn c (after cs) = some .cancel)
    (hactive : .cancel ∉ operations c cs) :
    ∃ place s₀ l₀, x = .call place ∧ (after cs).calls[place]? = some (.work s₀ l₀) ∧
      l₀.Cancels (after cs).store c ((stored (operations c cs)).map Prod.snd) s₀ := by
  unfold Choice.operationOn at h
  split at h
  · rename_i hlt
    obtain ⟨⟨link, op⟩, hop, hlink⟩ := Option.bind_eq_some_iff.1 h
    split at hlink
    · rename_i heq
      cases hlink
      dsimp only at heq
      subst heq
      cases x with
      | input i => exact absurd hop (i.operation_ne_cancel _ _)
      | call place =>
        obtain ⟨a, hcall, hop⟩ := Option.bind_eq_some_iff.1 hop
        obtain ⟨l, rfl, hc⟩ := Activity.of_operation_cancel hop
        refine ⟨place, _, l, rfl, hcall, rfl, hc, ?_⟩
        have hthere : c < (after cs).store.connections.size := by
          rwa [step_call hcall, record_store, Activity.step, size_of_cancel hc] at hlt
        obtain ⟨ts, hstack⟩ := Option.ne_none_iff_exists'.1 fun h => hactive (stack_eq_none_iff.1 h)
        have hconnection := connectionAt_after c cs
        rw [Store.connectionAt, Array.getElem?_eq_getElem hthere, Option.getD_some, replay, hstack]
          at hconnection
        simp [Store.cancel, Store.connection?, hthere, hconnection, stored, hstack,
          Option.map_some, Connection.Operation.connection, Connection.cancel]
    · cases hlink
  · cases h

/-- Whoever takes the tokens of a connection cancels it with the effect for that. -/
theorem exists_cancels (h : .cancel ∈ operations c cs) :
    ∃ place cs₁ cs₂ s₀ l₀, cs = cs₂ ++ .call place :: cs₁ ∧
      (after cs₁).calls[place]? = some (.work s₀ l₀) ∧
        l₀.Cancels (after cs₁).store c ((taken (operations c cs)).map Prod.snd) s₀ := by
  induction cs with
  | nil => exact (List.not_mem_nil h).elim
  | cons x cs ih =>
    by_cases hold : .cancel ∈ operations c cs
    · -- nothing is taken afterwards
      obtain ⟨place, cs₁, cs₂, s₀, l₀, rfl, hcall, hcancels⟩ := ih hold
      have htaken : taken (operations c (x :: (cs₂ ++ .call place :: cs₁))) =
          taken (operations c (cs₂ ++ .call place :: cs₁)) := by
        rw [operations]
        cases x.operationOn c (after (cs₂ ++ .call place :: cs₁)) with
        | none => rfl
        | some op =>
          cases op with
          | cancel => simp [numbered, taken, stored, stack_eq_none_iff.2 hold]
          | _ => rfl
      exact ⟨place, cs₁, x :: cs₂, s₀, l₀, rfl, hcall, htaken ▸ hcancels⟩
    · have hop : x.operationOn c (after cs) = some .cancel := by
        rw [operations] at h
        cases hop : x.operationOn c (after cs) with
        | none => simp [hop, hold] at h
        | some op =>
          cases op with
          | cancel => rfl
          | _ => simp [hop, hold, numbered] at h
      obtain ⟨place, s₀, l₀, rfl, hcall, hcancels⟩ := cancels_of_operationOn hop hold
      refine ⟨place, cs, [], s₀, l₀, rfl, hcall, ?_⟩
      obtain ⟨ts, hstack⟩ := Option.ne_none_iff_exists'.1 fun h => hold (stack_eq_none_iff.1 h)
      have htaken : taken (operations c (.call place :: cs)) = stored (operations c cs) := by
        rw [operations, hop]
        simp [numbered, taken, (eq_nil_of_stack hstack).1]
      rw [htaken]
      exact hcancels

/-- A connection is cancelled only by the effect for that. -/
theorem exists_cancellation (h : (after cs).store.isCancelled (some c) = true) :
    ∃ place cs₁ cs₂ s₀ l₀ ts, cs = cs₂ ++ .call place :: cs₁ ∧
      (after cs₁).calls[place]? = some (.work s₀ l₀) ∧ l₀.Cancels (after cs₁).store c ts s₀ := by
  rw [Store.isCancelled_some, connectionAt_after, isCancelled_replay,
    Option.isNone_iff_eq_none, stack_eq_none_iff] at h
  obtain ⟨place, cs₁, cs₂, s₀, l₀, hcs, hcall, hcancels⟩ := exists_cancels h
  exact ⟨place, cs₁, cs₂, s₀, l₀, _, hcs, hcall, hcancels⟩

end Session

end CancelableEffects
