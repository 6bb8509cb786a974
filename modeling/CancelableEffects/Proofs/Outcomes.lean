import CancelableEffects.Proofs.Claims
import CancelableEffects.Proofs.Endings
import CancelableEffects.Proofs.Joiners
import CancelableEffects.Proofs.Sides

/-!
# Outcomes — a fiber has one outcome, and it says how its execution ended

* `Moment.publishes?`, **`Session.outcome?_eq`**: the outcome of a fiber is the first that was published.
* `Loop.Announces`, **`Session.announcing`**: an effect that cancels a fiber publishes that only after it has
  cancelled the connection of the fiber.
* `Activity.of_completes`, **`Session.hearing`**: what comes to a step that waits for a fiber.
* **`Session.outcome_classified`**: what the outcome of a fiber says.
-/

namespace CancelableEffects

/-! ## What is published -/

/-- What is published of the fiber at this moment, unless it has an outcome. -/
def Moment.publishes? (f : FiberId) (m : Moment) : Option (Outcome Value) :=
  m.before.published f (m.call.bind (·.publishes? m.before))

/-- **Who publishes an outcome**: the delivery of what the loop of the fiber ended with, or the end of an
effect that cancels the fiber. -/
theorem Moment.of_publishes? {f : FiberId} {m : Moment} {o : Outcome Value} (h : m.publishes? f = some o) :
    (∃ e v, m.call = some (.deliver e (.fiber f) (.ok v)) ∧ o = .completed v) ∨
      (∃ e err, m.call = some (.deliver e (.fiber f) (.error err)) ∧ o = .errored err) ∨
      ∃ v l fs, m.call = some (.work (.handing (.ok v)) l) ∧ l.stack = .publishCancelled f :: fs ∧
        o = .cancelled := by
  obtain ⟨⟨f', o'⟩, hp, hknown⟩ := Option.bind_eq_some_iff.1 h
  split at hknown
  · rename_i hf
    obtain rfl : f' = f := hf.1
    obtain rfl : o' = o := Option.some.inj hknown
    obtain ⟨a, ha, hp⟩ := Option.bind_eq_some_iff.1 hp
    unfold Activity.publishes? at hp
    split at hp
    · rename_i s l
      unfold Loop.publishes? at hp
      split at hp
      · rename_i r
        obtain ⟨frame, hframe, hp⟩ := Option.bind_eq_some_iff.1 hp
        unfold Frame.publishes? at hp
        split at hp
        · cases r with
          | ok v =>
            cases hp
            obtain ⟨fs, hfs⟩ := List.head?_eq_some_iff.1 hframe
            exact .inr (.inr ⟨v, l, fs, ha, hfs, rfl⟩)
          | error e => cases hp
        · cases hp
      · cases hp
    · rename_i e k r
      unfold Sink.publishes? at hp
      split at hp
      · cases r with
        | ok v =>
          cases hp
          exact .inl ⟨e, v, ha, rfl⟩
        | error err =>
          dsimp only at hp
          split at hp
          · cases hp
          · cases hp
            exact .inr (.inl ⟨e, err, ha, rfl⟩)
      · cases hp
    · cases hp
  · cases hknown

namespace Session

variable {cs cs₀ : List Choice} {f : FiberId} {o : Outcome Value}

theorem Made.outcome? {x : Choice} {m : Moment} (hm : Made cs x m) (f : FiberId) :
    (after (x :: cs)).store.outcome? f = ((after cs).store.outcome? f).or (m.publishes? f) := by
  obtain ⟨i, -, hcall, hnext⟩ | ⟨place, a, -, -, hcall, hnext⟩ := hm.how
  · rw [hm.store, hnext, (i.step_tells _).outcome, Moment.publishes?, hcall, hm.before, Option.bind_none]
  · rw [hm.store, hnext, (a.step_tells _).outcome, Moment.publishes?, hcall, hm.before, Option.bind_some]

/-- **The outcome of a fiber is the first that was published.** -/
theorem outcome?_eq (f : FiberId) (cs : List Choice) :
    (after cs).store.outcome? f = ((after cs).past.filterMap (·.publishes? f)).getLast? := by
  induction cs with
  | nil => rfl
  | cons x cs ih =>
    obtain hsame | ⟨m, hm⟩ := made_or cs x
    · rw [hsame, ih]
    · rw [hm.outcome?, hm.past, ih]
      cases hp : m.publishes? f with
      | none => simp [hp]
      | some o => simp [hp, List.getLast?_cons, Option.or_some]

/-- An outcome was published. -/
theorem exists_of_outcome (h : (after cs).store.outcome? f = some o) :
    ∃ cs₂ x cs₁ m, cs = cs₂ ++ x :: cs₁ ∧ Made cs₁ x m ∧ m.publishes? f = some o := by
  rw [outcome?_eq] at h
  obtain ⟨m, hm, hp⟩ := List.mem_filterMap.1 (List.mem_of_getLast? h)
  obtain ⟨later, earlier, hpast⟩ := List.append_of_mem hm
  obtain ⟨cs₂, x, cs₁, hcs, -, hmade⟩ := exists_made hpast
  exact ⟨cs₂, x, cs₁, m, hcs, hmade, hp⟩

/-- The connection of a fiber is there. -/
theorem fiberLink_lt {c : ConnectionId} (cs : List Choice) (h : (after cs).store.fiberLink f = some c) :
    c < (after cs).store.connections.size := by
  induction cs with
  | nil => simp [after, Store.fiberLink] at h
  | cons x cs ih =>
    obtain hsame | ⟨m, hm⟩ := made_or cs x
    · rw [hsame] at h ⊢
      exact ih h
    · have hold : (after cs).store.fiberLink f = some c → c < (after (x :: cs)).store.connections.size :=
        fun h => Nat.lt_of_lt_of_le (ih h) (connections_le cs [x])
      obtain ⟨i, -, -, hnext⟩ | ⟨place, a, -, -, -, hnext⟩ := hm.how <;>
        rw [hm.store, hnext, hm.before] at h hold ⊢
      · exact ((i.step_tells _).link f c h).elim hold id
      · exact ((a.step_tells _).link f c h).elim hold id

/-! ## Fibers that have come to their ends -/

/-- Before the result of its loop is delivered, a fiber has no outcome but cancellation. -/
theorem outcome_before_delivery {e : ExecutionId} {r : Result}
    (h : .deliver e (.fiber f) r ∈ (after cs).calls) :
    (after cs).store.outcome? f = none ∨ (after cs).store.outcome? f = some .cancelled := by
  cases ho : (after cs).store.outcome? f with
  | none => exact .inl rfl
  | some o =>
    right
    -- the result of an execution is delivered once
    have honce : ∀ {e' r'}, ∀ m ∈ (after cs).past, m.call ≠ some (.deliver e' (.fiber f) r') := by
      intro e' r' m hm hcall
      have hbegan : (after cs).Began e (.fiber f) := (entrusted cs).2 _ h
      obtain rfl := fiber_unique hbegan (began_of_delivered hm hcall).1
      have hdelivering : 0 < (after cs).delivering e' := List.countP_pos_iff.2 ⟨_, h, by simp⟩
      have hdelivered : 0 < (after cs).delivered e' :=
        List.countP_pos_iff.2 ⟨m, hm, by simp [Moment.delivers, hcall]⟩
      have hledger := ledger e' cs
      unfold holders at hledger
      split at hledger <;> omega
    obtain ⟨cs₂, x, cs₁, m, rfl, hmade, hp⟩ := exists_of_outcome ho
    have hm : m ∈ (after (cs₂ ++ x :: cs₁)).past :=
      (past_suffix (x :: cs₁) cs₂).subset (hmade.past ▸ .head _)
    obtain ⟨e', v, hcall, -⟩ | ⟨e', err, hcall, -⟩ | ⟨v, l, fs, -, -, rfl⟩ := Moment.of_publishes? hp
    · exact absurd hcall (honce m hm)
    · exact absurd hcall (honce m hm)
    · rfl

end Session

/-! ## Cancelled fibers -/

section Takes

variable {l : Loop} {σ : Store} {s : Stage} {t : Turn} {fs : List Frame} {f : FiberId}

/-- The frame that publishes a cancellation comes to a stack with the token of the fiber. -/
theorem Node.publishCancelled_mem {n : Node} {e : ExecutionId} {link : Link}
    (h : .publishCancelled f ∈ (n.step e link σ).frames) : n = .token (.fiber f) := by
  rw [Node.frames_eq] at h
  cases n with
  | program p => cases p <;> simp [Node.frames, Prog.frames] at h
  | token t => cases t <;> simp_all [Node.frames, Token.frames]
  | _ => simp [Node.frames] at h

theorem Frame.publishCancelled_notMem (frame : Frame) (r : Result) (link : Link) :
    .publishCancelled f ∉ (frame.resume r link σ).frames := by
  rw [Frame.frames_eq]
  cases frame <;> simp [Frame.frames]

/-- The frame that publishes a cancellation was on the stack before the turn, or comes with the token of
the fiber. -/
theorem Loop.Takes.of_publishCancelled {above below : List Frame} (ht : l.Takes σ s t fs)
    (h : (t.loop l fs).stack = above ++ .publishCancelled f :: below) :
    (∃ above, l.stack = above ++ .publishCancelled f :: below) ∨ s = .looking (.token (.fiber f)) := by
  have hnew : .publishCancelled f ∈ t.frames ∨ ∃ above, fs = above ++ .publishCancelled f :: below := by
    obtain ⟨as, -, has⟩ | ⟨bs, hframes, hbs⟩ := List.append_eq_append_iff.1 h
    · exact .inr ⟨as, has⟩
    · cases bs with
      | nil => exact .inr ⟨[], hbs.symm⟩
      | cons b bs =>
        obtain ⟨rfl, -⟩ := List.cons.inj hbs
        exact .inl (hframes ▸ by simp)
  cases ht with
  | looking n _ =>
    exact hnew.elim (fun hmem => .inr (congrArg Stage.looking (Node.publishCancelled_mem hmem))) .inl
  | handing r frame fs hstack =>
    obtain hmem | ⟨above', hfs⟩ := hnew
    · exact absurd hmem (frame.publishCancelled_notMem r l.link)
    · exact .inl ⟨frame :: above', by rw [hstack, hfs, List.cons_append]⟩
  | _ => exact hnew.elim (fun hmem => absurd hmem List.not_mem_nil) .inl

end Takes

/-- Where the frame stands that publishes the cancellation of the fiber, the connection of the fiber was
cancelled, or is next. -/
def Loop.Announces (f : FiberId) (σ : Store) (s : Stage) (l : Loop) : Prop :=
  ∀ above below, l.stack = above ++ .publishCancelled f :: below →
    σ.isCancelled (σ.fiberLink f) = true ∨ above = [.attempt] ∧ ∃ c, σ.fiberLink f = some c ∧
      s = .looking (.token (.connection (some c)))

/-- An effect that cancels the fiber begins at this moment. -/
def Moment.dismisses (f : FiberId) (m : Moment) : Bool :=
  match m.call with
  | some (.work (.looking (.token (.fiber f'))) _) => f' == f
  | _ => false

namespace Session

variable {cs cs₀ : List Choice} {f : FiberId} {o : Outcome Value}

/-- Whoever cancels the fiber does so when it is there. -/
def CancelledThere (f : FiberId) (S : Session) : Prop :=
  ∀ m ∈ S.past, m.dismisses f = true → f < m.before.fibers.size

theorem CancelledThere.mono {cs₀ : List Choice} (cs : List Choice)
    (h : CancelledThere f (after (cs ++ cs₀))) : CancelledThere f (after cs₀) :=
  fun m hm => h m ((past_suffix cs₀ cs).subset hm)

/-- **Before an effect publishes that the fiber was cancelled, it has cancelled its connection.** -/
theorem announcing (cs : List Choice) : ∀ s l, (after cs).Has s l →
    CancelledThere f (after cs) → l.Announces f (after cs).store s := by
  refine always (P := fun S s l => CancelledThere f S → l.Announces f S.store s) ?_ ?_ ?_ ?_ cs
  · intro x cs s l hl hl' h hthere above below hstack
    have hgrows := after_grows cs [x]
    exact (h (hthere.mono [x]) above below hstack).imp hgrows.fiber_cancelled
      fun ⟨habove, c, hc, hs⟩ => ⟨habove, c, hgrows.fiberLink hc, hs⟩
  · intro cs place n link k hcall hthere above below hstack
    exact absurd hstack (by simp [Store.begin])
  · intro cs place s l t fs hcall h ht hthere above below hstack
    have hgrows := after_grows cs [.call place]
    -- a frame that was there stands over a connection that was cancelled, or is in this turn
    have hold : ∀ {above}, l.stack = above ++ .publishCancelled f :: below →
        (after (.call place :: cs)).store.isCancelled ((after (.call place :: cs)).store.fiberLink f) = true := by
      intro above' hstack'
      obtain hc | ⟨-, c, hc, rfl⟩ := h (hthere.mono [.call place]) above' below hstack'
      · exact hgrows.fiber_cancelled hc
      · rw [store_of_takes hcall ht, ht.grows.fiberLink hc]
        have hlt := fiberLink_lt cs hc
        cases ht with
        | looking n _ =>
          change ((Token.connection (some c)).begin l.link (after cs).store).store.isCancelled (some c) = true
          have hcancel := Store.isCancelled_cancel hlt
          unfold Token.begin
          dsimp only
          split <;> simp_all
    obtain ⟨above', hstack'⟩ | rfl := ht.of_publishCancelled hstack
    · exact .inl (hold hstack')
    · have hf := hthere _ (mem_past_call hcall) (by simp [Moment.dismisses])
      obtain ⟨c, hc⟩ : ∃ c, (after cs).store.fiberLink f = some c :=
        ⟨_, Option.map_eq_some_iff.2 ⟨_, Array.getElem?_eq_getElem hf, rfl⟩⟩
      cases ht with
      | looking n _ =>
        have hframes := Token.begin_fiber_frames f l.link (after cs).store
        have hstage : ((Token.fiber f).begin l.link (after cs).store).stage =
            .looking (.token (.connection (some c))) := by simp [Token.begin, hc]
        change ((Token.fiber f).begin l.link (after cs).store).frames ++ l.stack = _ at hstack
        rw [hframes] at hstack
        obtain _ | ⟨f₁, _ | ⟨f₂, above⟩⟩ := above
        · cases hstack
        · obtain ⟨rfl, -⟩ := List.cons.inj hstack
          exact .inr ⟨rfl, c, hgrows.fiberLink hc, hstage⟩
        · exact .inl (hold (List.cons.inj (List.cons.inj hstack).2).2)
  · intro x cs b l r hl hanswers h hthere above below hstack
    obtain hc | ⟨-, c, -, hs⟩ := h (hthere.mono [x]) above below hstack
    · exact .inl ((after_grows cs [x]).fiber_cancelled hc)
    · cases hs

end Session

/-! ## Joiners -/

/-- What a loop is told that waits for the outcome of the fiber: the outcome, or that its wait was
cancelled. -/
def Store.Hears (f : FiberId) (r : Result) (σ : Store) : Prop :=
  r = .error .cancelled ∨ ∃ o, r = .ok (.outcome o) ∧ σ.outcome? f = some o

theorem Store.Hears.grows {f : FiberId} {r : Result} {σ σ' : Store} (h : σ.Hears f r) (hσ : σ.Grows σ') :
    σ'.Hears f r :=
  h.imp_right fun ⟨o, hr, ho⟩ => ⟨o, hr, hσ.outcome? ho⟩

/-- The boundary is there, and it is not that of a step. -/
def Store.NoStep (b : BoundaryId) (σ : Store) : Prop := ∃ x, σ.keeper? b = some x ∧ ∀ st, x ≠ .step st

section Completes

variable {σ : Store} {b : BoundaryId} {r : Result}

/-- **Who completes a step**: its source, or its own cancellation. -/
theorem Activity.of_completes {a : Activity} (h : .completes b r ∈ a.matters σ) :
    (∃ st, σ.step? b = some st ∧ (r = .error .cancelled ∨ a = .complete (.step b st.source) r)) ∨
      σ.NoStep b := by
  obtain ⟨x, hx, -⟩ := a.of_matter h rfl
  cases x with
  | step st =>
    have hst := Store.step?_eq_some.2 hx
    refine .inl ⟨st, hst, ?_⟩
    obtain ha | ⟨hr, -⟩ := Activity.of_ending hst (Activity.ending_of_completes hst h)
    · exact .inr ha
    · exact .inl hr
  | _ => exact .inr ⟨_, hx, nofun⟩

end Completes

namespace Session

variable {cs cs₀ : List Choice} {f : FiberId} {o : Outcome Value}

/-- What is about to complete a step that waits for the outcome of a fiber tells that outcome. -/
def Hearing (S : Session) : Prop := ∀ b st f, S.store.step? b = some st → st.source = .outcome f →
  (∀ r, S.store.boundary? b = some (.ready r) → S.store.Hears f r) ∧
    ∀ r, .completes b r ∈ S.matters → S.store.Hears f r

/-- A boundary that was there has a step only if it had one, for the same source. -/
theorem step_before {x : Choice} {b : BoundaryId} {st : Step} {y : Keeper}
    (hy : (after cs).store.keeper? b = some y) (h : (after (x :: cs)).store.step? b = some st) :
    ∃ st₀, y = .step st₀ ∧ st₀.source = st.source := by
  obtain ⟨y', hy', hgrows⟩ := (after_grows cs [x]).keeper b y hy
  have hstep : y' = .step st := Option.some.inj (hy'.symm.trans (Store.step?_eq_some.1 h))
  subst hstep
  cases y with
  | step st₀ => exact ⟨st₀, rfl, hgrows.1.symm⟩
  | _ => exact hgrows.elim

/-- A result may come only to a boundary that is there. -/
theorem Answers.keeper {b : BoundaryId} {r : Result} (h : (after cs).Answers b r) :
    ∃ y, (after cs).store.keeper? b = some y := by
  have hlt : b < (after cs).store.boundaries.cells.size := Answers.lt h
  rw [← (after cs).store.boundaries.aligned] at hlt
  exact ⟨_, Array.getElem?_eq_getElem hlt⟩

/-- **All who wait for the outcome of a fiber hear the same.** -/
theorem hearing (cs : List Choice) : (after cs).Hearing := by
  induction cs with
  | nil => exact fun b st f h => by simp [after, Store.step?, Store.keeper?] at h
  | cons x cs ih =>
    intro b st f hst hsource
    have hgrows := after_grows cs [x]
    -- what is about to complete the step was so before, or comes up in this step
    have hready : ∀ {r}, (after cs).store.boundary? b = some (.ready r) →
        (after (x :: cs)).store.Hears f r := fun hr => by
      obtain ⟨y, hy⟩ := ((orderly cs).ready b _ hr).keeper
      obtain ⟨st₀, rfl, hsource₀⟩ := step_before hy hst
      exact ((ih b st₀ f (Store.step?_eq_some.2 hy) (hsource₀.trans hsource)).1 _ hr).grows hgrows
    have hcompletes : ∀ {r}, .completes b r ∈ (after cs).matters →
        (after (x :: cs)).store.Hears f r := fun hr => by
      obtain ⟨y, hy⟩ := ((orderly cs).completes b _ hr).keeper
      obtain ⟨st₀, rfl, hsource₀⟩ := step_before hy hst
      exact ((ih b st₀ f (Store.step?_eq_some.2 hy) (hsource₀.trans hsource)).2 _ hr).grows hgrows
    obtain hsame | ⟨m, hm⟩ := made_or cs x
    · exact ⟨fun r hr => hready (hsame ▸ hr), fun r hr => hcompletes (hsame ▸ hr)⟩
    obtain ⟨i, rfl, -, hnext⟩ | ⟨place, a, rfl, ha, -, hnext⟩ := hm.how
    · refine ⟨fun r hr => hready ?_, fun r hr => hcompletes ?_⟩
      · rwa [hm.store, hnext, hm.before, (i.step_aside _).boundary?] at hr
      · rwa [← matters_input _ i]
    · have hmem := List.mem_of_getElem? ha
      refine ⟨fun r hr => ?_, fun r hr => ?_⟩
      · rw [hm.store, hnext, hm.before] at hr
        obtain hr | rfl := Activity.step_ready hr
        · exact hready hr
        · exact hcompletes (List.mem_flatMap.2 ⟨_, hmem, .head _⟩)
      · have hr' : .completes b r ∈ ((after cs).step (.call place)).matters := hr
        rw [step_call ha, matters_call] at hr'
        obtain hr' | hr' := List.mem_append.1 hr'
        · obtain ⟨st₀, hst₀, rfl | rfl⟩ | ⟨y, hy, hno⟩ := Activity.of_completes hr'
          · exact .inl rfl
          · obtain ⟨st₁, hst₁, hsource₀⟩ := step_before (Store.step?_eq_some.1 hst₀) hst
            cases hst₁
            have hdue : st₀.source.Due (after cs).store r := (apt cs).2 _ hmem
            rw [hsource₀, hsource] at hdue
            obtain ⟨o, ho, rfl⟩ := hdue
            exact .inr ⟨o, rfl, hgrows.outcome? ho⟩
          · obtain ⟨st₀, hst₀, -⟩ := step_before hy hst
            exact absurd hst₀ (hno st₀)
        · obtain ⟨a', ha', hr'⟩ := List.mem_flatMap.1 hr'
          exact hcompletes (List.mem_flatMap.2 ⟨a', List.mem_of_mem_eraseIdx ha', hr'⟩)

/-- A loop that goes on from a wait for the outcome of a fiber has heard it. -/
theorem hears_of_resumption {m : Moment} {b : BoundaryId} {r : Result} {l : Loop} {st : Step}
    (hm : m ∈ (after cs).past) (h : m.resumption? b = some (r, l)) (hst : m.before.step? b = some st)
    (hsource : st.source = .outcome f) : m.before.Hears f r := by
  obtain ⟨later, earlier, hpast⟩ := List.append_of_mem hm
  obtain ⟨cs₂, x, cs₁, rfl, -, hmade⟩ := exists_made hpast
  obtain ⟨hnext, hcall⟩ := m.of_resumption? h
  rw [hmade.before] at hst ⊢
  have hhears := hearing cs₁ b st f hst hsource
  obtain ⟨i, -, hnone, -⟩ | ⟨place, a, rfl, ha, hsome, hstep⟩ := hmade.how
  · obtain ⟨l', hcall⟩ | ⟨r', hcall⟩ := hcall <;> cases hnone.symm.trans hcall
  rw [hmade.before] at hstep
  rw [hstep] at hnext
  obtain ⟨l', hcall⟩ | ⟨r', hcall⟩ := hcall <;> cases hsome.symm.trans hcall
  · refine hhears.1 r ?_
    change ((after cs₁).store.leave b l').2 = _ at hnext
    unfold Store.leave at hnext
    split at hnext <;> simp only [List.cons.injEq, Activity.work.injEq, reduceCtorEq] at hnext
    rename_i hready
    rw [hready]
    cases hnext.1.1
    rfl
  · refine hhears.2 r (List.mem_flatMap.2 ⟨_, List.mem_of_getElem? ha, ?_⟩)
    change ((after cs₁).store.completeBoundary b r').2 = _ at hnext
    unfold Store.completeBoundary at hnext
    split at hnext <;> simp only [List.cons.injEq, Activity.work.injEq, reduceCtorEq] at hnext
    cases hnext.1.1
    exact .head _

end Session

/-! ## The outcome of a fiber -/

/-- The fiber has an outcome after this moment, and had none before. -/
def Moment.announces (f : FiberId) (m : Moment) : Bool :=
  (m.before.outcome? f).isNone && (m.next.1.outcome? f).isSome

namespace Session

variable {cs cs₀ : List Choice} {f : FiberId} {o : Outcome Value} {m : Moment} {e : ExecutionId}

/-- **An outcome is published once at most.** -/
theorem announces_le (f : FiberId) (cs : List Choice) :
    (after cs).past.countP (·.announces f) ≤ 1 ∧
      ((after cs).store.outcome? f = none → (after cs).past.countP (·.announces f) = 0) := by
  induction cs with
  | nil => exact ⟨Nat.zero_le _, fun _ => rfl⟩
  | cons x cs ih =>
    obtain hsame | ⟨m, hm⟩ := made_or cs x
    · rwa [hsame]
    have hannounces : m.announces f =
        (((after cs).store.outcome? f).isNone && ((after (x :: cs)).store.outcome? f).isSome) := by
      rw [Moment.announces, hm.before, hm.store]
    rw [hm.past, List.countP_cons, hannounces]
    cases hbefore : (after cs).store.outcome? f with
    | none =>
      rw [ih.2 hbefore]
      cases (after (x :: cs)).store.outcome? f <;> simp
    | some o =>
      have hafter : (after (x :: cs)).store.outcome? f = some o := (after_grows cs [x]).outcome? hbefore
      simpa [hafter] using ih.1

/-- **A fiber whose outcome is cancellation was cancelled.** -/
theorem cancelled_of_outcome (hthere : CancelledThere f (after cs))
    (h : (after cs).store.outcome? f = some .cancelled) :
    (after cs).store.isCancelled ((after cs).store.fiberLink f) = true := by
  obtain ⟨cs₂, x, cs₁, m, rfl, hmade, hp⟩ := exists_of_outcome h
  obtain ⟨e, v, -, ho⟩ | ⟨e, err, -, ho⟩ | ⟨v, l, fs, hcall, hstack, -⟩ := Moment.of_publishes? hp
  · cases ho
  · cases ho
  obtain ⟨i, -, hnone, -⟩ | ⟨place, a, rfl, ha, hsome, -⟩ := hmade.how
  · cases hnone.symm.trans hcall
  cases hsome.symm.trans hcall
  have hthere₁ : CancelledThere f (after cs₁) :=
    CancelledThere.mono (cs₂ ++ [.call place]) (by rwa [List.append_assoc])
  obtain hc | ⟨habove, -⟩ := announcing cs₁ _ l (.inl (List.mem_of_getElem? ha)) hthere₁ [] fs hstack
  · have hgrows := after_grows cs₁ (cs₂ ++ [.call place])
    rw [List.append_assoc] at hgrows
    exact hgrows.fiber_cancelled hc
  · cases habove

/-- What the delivery of a fiber's result publishes, if its own cancellation did not stop the fiber. -/
theorem Made.delivery {x : Choice} {r : Result} {o : Outcome Value} (hm : Made cs x m)
    (hcall : m.call = some (.deliver e (.fiber f) r))
    (hp : (Sink.fiber f).publishes? r (after cs).store = some (f, o)) :
    (after (x :: cs)).store.outcome? f = some o ∨ (after cs).store.outcome? f = some .cancelled := by
  obtain ⟨i, -, hnone, -⟩ | ⟨place, a, rfl, ha, hsome, -⟩ := hm.how
  · cases hnone.symm.trans hcall
  cases hsome.symm.trans hcall
  have hmem := List.mem_of_getElem? ha
  refine (outcome_before_delivery hmem).imp_left fun hnone => ?_
  have hlt := fiber_lt ((entrusted cs).2 _ hmem : (after cs).Began e (.fiber f))
  have hpublishes : m.publishes? f = some o := by
    have hactivity : (Activity.deliver e (.fiber f) r).publishes? (after cs).store = some (f, o) := hp
    rw [Moment.publishes?, hcall, hm.before, Option.bind_some, hactivity, Store.published, Option.bind_some,
      if_pos ⟨rfl, hlt⟩]
  rw [hm.outcome?, hnone, hpublishes, Option.none_or]

/-- The effect with which the loop `l₀` cancels the fiber has run to its end: it does not go on, and it was
not stopped by a cancellation of the connection under which it runs. -/
structure RanToEnd (f : FiberId) (l₀ : Loop) (S : Session) : Prop where
  ended : ∀ s l above, S.Has s l → l.id = l₀.id → l.stack ≠ above ++ .publishCancelled f :: l₀.stack
  unstopped : ∀ m ∈ S.past, ∀ n l above, m.call = some (.work (.looking n) l) → l.id = l₀.id →
    l.stack = above ++ .publishCancelled f :: l₀.stack → m.before.isCancelled l.link = false

/-- **The outcome of a fiber** is published once at most and never changes, and all who wait for it hear the
same. It is a value or an error only if the loop of the fiber ended with that, and cancellation only if the
connection of the fiber was cancelled. A loop that ends with a value publishes it unless cancellation was
published before, and one that ends with an error while its connection is active, even one of cancellation,
publishes that error. When an effect that cancels the fiber has run to its end, the
outcome is published. -/
theorem outcome_classified (f : FiberId) (cs : List Choice) :
    ((after cs).past.countP (·.announces f) ≤ 1 ∧
      ∀ cs' o, (after cs).store.outcome? f = some o → (after (cs' ++ cs)).store.outcome? f = some o) ∧
    ((∀ m ∈ (after cs).past, ∀ l o, m.call = some (.notify f l o) → m.before.outcome? f = some o) ∧
      ∀ m ∈ (after cs).past, ∀ b r l st, m.resumption? b = some (r, l) → m.before.step? b = some st →
        st.source = .outcome f →
          r = .error .cancelled ∨ ∃ o, r = .ok (.outcome o) ∧ m.before.outcome? f = some o) ∧
    ((∀ v, (after cs).store.outcome? f = some (.completed v) → ∃ e, (after cs).Began e (.fiber f) ∧
        ∃ m ∈ (after cs).past, m.call = some (.deliver e (.fiber f) (.ok v))) ∧
      (∀ m ∈ (after cs).past, ∀ e v, m.call = some (.deliver e (.fiber f) (.ok v)) →
        m.next.1.outcome? f = some (.completed v) ∨ m.before.outcome? f = some .cancelled) ∧
      ∀ err, (after cs).store.outcome? f = some (.errored err) → ∃ e, (after cs).Began e (.fiber f) ∧
        ∃ m ∈ (after cs).past, m.call = some (.deliver e (.fiber f) (.error err))) ∧
    (CancelledThere f (after cs) →
      ((after cs).store.outcome? f = some .cancelled →
        (after cs).store.isCancelled ((after cs).store.fiberLink f) = true) ∧
      ∀ m ∈ (after cs).past, ∀ e err, m.call = some (.deliver e (.fiber f) (.error err)) →
        m.before.isCancelled (m.before.fiberLink f) = false →
          m.next.1.outcome? f = some (.errored err)) ∧
    ∀ cs₁ place cs₀ l₀, cs = cs₁ ++ .call place :: cs₀ →
      (after cs₀).calls[place]? = some (.work (.looking (.token (.fiber f))) l₀) →
      (after cs₀).store.isCancelled l₀.link = false → f < (after cs₀).store.fibers.size →
        (after cs).RanToEnd f l₀ → (after cs).store.Ended f := by
  have hmade : ∀ {m : Moment}, m ∈ (after cs).past → ∃ cs₂ x cs₁, cs = cs₂ ++ x :: cs₁ ∧ Made cs₁ x m := by
    intro m hm
    obtain ⟨later, earlier, hpast⟩ := List.append_of_mem hm
    obtain ⟨cs₂, x, cs₁, hcs, -, hmade⟩ := exists_made hpast
    exact ⟨cs₂, x, cs₁, hcs, hmade⟩
  have hpublished : ∀ {o}, (after cs).store.outcome? f = some o →
      ∃ m ∈ (after cs).past, m.publishes? f = some o := by
    intro o ho
    rw [outcome?_eq] at ho
    exact List.mem_filterMap.1 (List.mem_of_getLast? ho)
  refine ⟨⟨(announces_le f cs).1, fun cs' o ho => (after_grows cs cs').outcome? ho⟩,
    ⟨fun m hm l o hcall => ?_, fun m hm b r l st h hst hsource => hears_of_resumption hm h hst hsource⟩,
    ⟨fun v ho => ?_, fun m hm e v hcall => ?_, fun err ho => ?_⟩,
    fun hthere => ⟨cancelled_of_outcome hthere, fun m hm e err hcall hactive => ?_⟩, ?_⟩
  · obtain ⟨cs₂, x, cs₁, rfl, hm'⟩ := hmade hm
    obtain ⟨i, -, hnone, -⟩ | ⟨place, a, rfl, ha, hsome, -⟩ := hm'.how
    · cases hnone.symm.trans hcall
    · cases hsome.symm.trans hcall
      rw [hm'.before]
      exact (apt cs₁).2 _ (List.mem_of_getElem? ha)
  · obtain ⟨m, hm, hp⟩ := hpublished ho
    obtain ⟨e, w, hcall, h⟩ | ⟨e, err, -, h⟩ | ⟨w, l, fs, -, -, h⟩ := Moment.of_publishes? hp <;> cases h
    exact ⟨e, (began_of_delivered hm hcall).1, m, hm, hcall⟩
  · obtain ⟨cs₂, x, cs₁, rfl, hm'⟩ := hmade hm
    have hdelivery := hm'.delivery hcall rfl
    rwa [hm'.store, ← hm'.before] at hdelivery
  · obtain ⟨m, hm, hp⟩ := hpublished ho
    obtain ⟨e, w, -, h⟩ | ⟨e, err, hcall, h⟩ | ⟨w, l, fs, -, -, h⟩ := Moment.of_publishes? hp <;> cases h
    exact ⟨e, (began_of_delivered hm hcall).1, m, hm, hcall⟩
  · obtain ⟨cs₂, x, cs₁, rfl, hm'⟩ := hmade hm
    rw [hm'.before] at hactive
    have hp : (Sink.fiber f).publishes? (.error err) (after cs₁).store = some (f, .errored err) := by
      simp [Sink.publishes?, hactive]
    obtain hnext | hbefore := hm'.delivery hcall hp
    · rwa [hm'.store] at hnext
    · have hthere₁ : CancelledThere f (after cs₁) :=
        CancelledThere.mono (cs₂ ++ [x]) (by rwa [List.append_assoc])
      rw [cancelled_of_outcome hthere₁ hbefore] at hactive
      cases hactive
  · rintro cs₁ place cs₀ l₀ rfl hcall hc hf hran
    cases publishing hcall hc hf cs₁ with
    | published h => exact h
    | goesOn s l above hl hid hstack => exact absurd hstack (hran.ended s l above hl hid)
    | stopped m n l above hm hcall' hc' hid hstack =>
      cases (hran.unstopped m hm n l above hcall' hid hstack).symm.trans hc'

/-- A fiber that waits for ever is cancelled by who started it, up to some step. -/
def fiberCancelled (steps : Nat) : List Choice :=
  List.replicate steps (.call 0) ++ [.input (.run (.bind (.start .never .immediate) fun
    | .handle (.fiber f) => .ret (.cancelFiber f)
    | _ => .ret .unit) none false)]

theorem fiber_cancelled_classified :
    CancelledThere 0 (after (fiberCancelled 40)) ∧
      (after (fiberCancelled 40)).store.outcome? 0 = some .cancelled ∧
        (after (fiberCancelled 40)).store.isCancelled ((after (fiberCancelled 40)).store.fiberLink 0) =
          true := by
  have hthere : CancelledThere 0 (after (fiberCancelled 40)) := by
    unfold CancelledThere
    decide
  exact ⟨hthere, rfl, ((outcome_classified 0 (fiberCancelled 40)).2.2.2.1 hthere).1 rfl⟩

end Session

end CancelableEffects
