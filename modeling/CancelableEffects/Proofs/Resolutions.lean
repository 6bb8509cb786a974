import CancelableEffects.Proofs.Registrations
import CancelableEffects.Proofs.Runs
import CancelableEffects.Proofs.Stops

/-!
# Resolutions — an interruptible step is resolved once, and cleaned up if it was cancelled before

* `Activity.resolves?`, `Session.resolutions`: the results that were offered to a step: by its source, or
  because its token has been run.
* **`Session.resolved_first`**: the wait of a step ends with the first of them.
* `Activity.cleans?`, `Session.cleaned`: the clean-ups of a step that were begun.
* **`Session.slot_account`**: the clean-up of a step is begun once its token was run and it was returned,
  whichever comes last.
* `Session.Gone`: nobody has the token of a step any more.
* `Session.Approaches`: a cancellation comes to the token of a step.
* **`Session.step_resolves_once`**: a step under a connection of its own is resolved once, and its clean-up
  is run once if it was cancelled before, and else never.
-/

namespace CancelableEffects

/-! ## What is offered to a step -/

/-- The result that the call offers to the step, whether or not its wait is over: that of its source, or
cancellation when its token has been run. -/
def Activity.resolves? (s : StepId) (σ : Store) : Activity → Option Result
  | .complete (.step s' source) r =>
    if s' = s ∧ (σ.step? s).map Step.source = some source then some r else none
  | .work (.handing r) ⟨_, _, .endStep s' :: _, _⟩ =>
    if s' = s ∧ r.isOk ∧ (σ.step? s).isSome then some (.error .cancelled) else none
  | _ => none

section Resolves

variable {s : StepId} {σ : Store}

theorem Activity.resolves?_of_none (hs : σ.step? s = none) (a : Activity) : a.resolves? s σ = none := by
  unfold resolves?
  split <;> first | rfl | simp [hs]

/-- While a step waits, whatever is offered to it ends the wait. -/
theorem Activity.ending?_of_live {st : Step} (hs : σ.step? s = some st) (hlive : st.live = true)
    (a : Activity) : a.ending? s σ = a.resolves? s σ := by
  cases a with
  | complete c r =>
    cases c with
    | step s' source =>
      refine if_congr (and_congr_right ?_) rfl rfl
      rintro rfl
      simp [Store.completesStep, hs, hlive]
    | _ => rfl
  | work x l =>
    cases x with
    | handing r =>
      obtain ⟨e, link, _ | ⟨f, fs⟩, k⟩ := l
      · rfl
      cases f with
      | endStep s' =>
        refine if_congr (and_congr_right ?_) rfl rfl
        rintro rfl
        simp [Store.endsStep, hs, hlive]
      | _ => rfl
    | _ => rfl
  | _ => rfl

theorem Activity.ending?_of_not_live {st : Step} (hs : σ.step? s = some st) (hlive : st.live = false)
    (a : Activity) : a.ending? s σ = none := by
  refine Option.eq_none_iff_forall_ne_some.2 fun r hr => ?_
  cases hlive.symm.trans (Activity.live_of_ending hs hr)

end Resolves

namespace Session

variable {cs : List Choice} {s : StepId} {st : Step}

/-- The results that were offered to the step, the latest first. -/
def resolutions (s : StepId) (S : Session) : List Result :=
  S.past.filterMap fun m => m.call.bind (·.resolves? s m.before)

theorem resolutions_call (S : Session) (a : Activity) (others : List Activity) :
    (S.record (some a) (a.step S.store) others).resolutions s =
      (a.resolves? s S.store).toList ++ S.resolutions s := by
  simp only [resolutions, record_past, List.filterMap_cons, Option.bind_some]
  cases a.resolves? s S.store <;> rfl

/-- **The wait of a step ends with the first result that is offered to it.** -/
theorem resolved_first (s : StepId) (cs : List Choice) :
    (after cs).endings s = ((after cs).resolutions s).getLast?.toList := by
  refine invariant (P := fun S => S.endings s = (S.resolutions s).getLast?.toList) rfl (fun cs i h => h) ?_ cs
  intro cs a xs ys hS h
  rw [endings_call, resolutions_call]
  cases hs : (after cs).store.step? s with
  | none => rwa [a.ending?_of_none hs, a.resolves?_of_none hs]
  | some st =>
    obtain ⟨-, -, hwaits⟩ := completed_as_ended hs
    cases hlive : st.live with
    | true =>
      -- nothing was offered before
      have hendings := hwaits.1 hlive
      have hnone : (after cs).resolutions s = [] := by
        rw [hendings] at h
        exact List.getLast?_eq_none_iff.1 (Option.toList_eq_nil_iff.1 h.symm)
      rw [Activity.ending?_of_live hs hlive, hendings, hnone]
      cases a.resolves? s (after cs).store <;> rfl
    | false =>
      have hsome : (after cs).resolutions s ≠ [] := fun hnone => by
        rw [hnone] at h
        cases hlive.symm.trans (hwaits.2 h)
      rw [Activity.ending?_of_not_live hs hlive, Option.toList_none, List.nil_append, h,
        List.getLast?_append_of_ne_nil _ hsome]

end Session

/-! ## The clean-up of a step -/

/-- The clean-up that is in the slot. -/
def Slot.cleanup? : Slot → Option Cleanup
  | .filled c => some c
  | _ => none

/-- The clean-up of the step that is run after the call: that in the slot when its token is run, and
that which comes when its token was run before. -/
def Activity.cleans? (s : StepId) (σ : Store) : Activity → Option Cleanup
  | .work (.looking (.token (.step s'))) l =>
    if s' = s ∧ σ.isCancelled l.link = false then (σ.step? s).bind (·.slot.cleanup?) else none
  | .fillSlot s' c => if s' = s ∧ (σ.step? s).map Step.slot = some .cancelRequested then some c else none
  | _ => none

/-- What the call does to the slot of the step. -/
def Activity.onSlot (s : StepId) (σ : Store) (x : Slot) : Activity → Slot
  | .work (.looking (.token (.step s'))) l =>
    if s' = s ∧ σ.isCancelled l.link = false then .cancelRequested else x
  | .fillSlot s' c => if s' = s ∧ x ≠ .cancelRequested then .filled c else x
  | _ => x

/-- The call runs the token of the step. -/
def Activity.Runs (s : StepId) (σ : Store) (a : Activity) : Prop :=
  ∃ l, a = .work (.looking (.token (.step s))) l ∧ σ.isCancelled l.link = false

section Cleanups

variable {s : StepId} {σ : Store} {st : Step} {a : Activity}

/-- Only the token of a step and the clean-up with which its registration returns have to do with its
slot. -/
theorem Activity.slot_cases (s : StepId) (σ : Store) (a : Activity) :
    (∃ c, a = .fillSlot s c) ∨ a.Runs s σ ∨
      a.returns? s = none ∧ a.cleans? s σ = none ∧ ∀ x, a.onSlot s σ x = x := by
  by_cases hfills : ∃ c, a = .fillSlot s c
  · exact .inl hfills
  by_cases hruns : a.Runs s σ
  · exact .inr (.inl hruns)
  refine .inr (.inr ⟨?_, ?_, fun x => ?_⟩)
  · exact Option.eq_none_iff_forall_ne_some.2 fun c hc => hfills ⟨c, Activity.of_returns? hc⟩
  · unfold cleans?
    split
    · refine if_neg ?_
      rintro ⟨rfl, hc⟩
      exact hruns ⟨_, rfl, hc⟩
    · refine if_neg ?_
      rintro ⟨rfl, -⟩
      exact hfills ⟨_, rfl⟩
    · rfl
  · unfold onSlot
    split
    · refine if_neg ?_
      rintro ⟨rfl, hc⟩
      exact hruns ⟨_, rfl, hc⟩
    · refine if_neg ?_
      rintro ⟨rfl, -⟩
      exact hfills ⟨_, rfl⟩
    · rfl

/-- Cancellation is requested of a step by its token. -/
theorem Activity.runs_of_requested {x : Slot} (h : a.onSlot s σ x = .cancelRequested) :
    x = .cancelRequested ∨ a.Runs s σ := by
  rcases a.slot_cases s σ with ⟨c, rfl⟩ | hruns | ⟨-, -, hsame⟩
  · refine .inl ?_
    by_contra hne
    simp [onSlot, hne] at h
  · exact .inr hruns
  · exact .inl ((hsame x).symm.trans h)

/-- A step stays, with its connection, and its slot changes like that. -/
theorem Activity.step_slot (hs : σ.step? s = some st) (a : Activity) :
    ∃ st', (a.step σ).1.step? s = some st' ∧ st'.source = st.source ∧ st'.link = st.link ∧
      st'.slot = a.onSlot s σ st.slot := by
  obtain ⟨st', hst', hsource, hlink⟩ := (a.step_grows σ).step hs
  refine ⟨st', hst', hsource, hlink, ?_⟩
  have hedits : (a.step σ).1.step? s = some ((a.edits σ).foldl (Edit.onStep s) st) :=
    Store.step?_eq_some.2 (((a.step_does σ).keeper? s).trans (Edit.foldl_step _ (Store.step?_eq_some.1 hs)))
  have hcomputed : st' = (a.edits σ).foldl (Edit.onStep s) st := Option.some.inj (hst'.symm.trans hedits)
  rcases a.slot_cases s σ with ⟨c, rfl⟩ | ⟨l, rfl, hc⟩ | ⟨hreturns, -, hsame⟩
  · rw [hcomputed]
    by_cases hslot : st.slot = .cancelRequested
    · simp [Activity.edits, Activity.onSlot, hs, hslot]
    · have hedits := Activity.edits_fillSlot (σ := σ) (s := s) (by simpa [hs] using hslot) c
      simp [hedits, Edit.onStep, Activity.onSlot, hslot]
  · rw [hcomputed]
    simp [Activity.edits, Node.edits, hc, Edit.onStep, Activity.onSlot]
  · rw [hsame]
    obtain ⟨st'', hst'', hsteps⟩ := a.step_steps hs
    cases hst'.symm.trans hst''
    cases hsteps with
    | stays hending hst => rw [hst]
    | runs l ha hc hst =>
      subst ha
      have hrequested := hsame .pending
      simp [Activity.onSlot, hc] at hrequested
    | fills c ha hslot hst =>
      subst ha
      simp [Activity.returns?] at hreturns
    | ends r hending hlive hst => rw [hst]

end Cleanups

/-- The account of a slot: what was returned by the registration of the step, and which clean-ups were
begun. -/
def Slot.Accounts (returned begun : List Cleanup) : Slot → Prop
  | .pending => returned = [] ∧ begun = []
  | .filled c => returned = [c] ∧ begun = []
  | .cancelRequested => begun = returned

namespace Session

variable {cs : List Choice} {s : StepId} {st : Step} {c : ConnectionId}

/-- The clean-ups of the step that were begun, the latest first. -/
def cleaned (s : StepId) (S : Session) : List Cleanup :=
  S.past.filterMap fun m => m.call.bind (·.cleans? s m.before)

theorem cleaned_call (S : Session) (a : Activity) (others : List Activity) :
    (S.record (some a) (a.step S.store) others).cleaned s = (a.cleans? s S.store).toList ++ S.cleaned s := by
  simp only [cleaned, record_past, List.filterMap_cons, Option.bind_some]
  cases a.cleans? s S.store <;> rfl

theorem cleans?_of_none {σ : Store} (hs : σ.step? s = none) (a : Activity) : a.cleans? s σ = none := by
  unfold Activity.cleans?
  split <;> simp [hs]

/-- The clean-up of a step is accounted for by its slot. -/
structure Cleans (s : StepId) (S : Session) : Prop where
  absent : S.store.step? s = none → S.cleaned s = []
  slot : ∀ st, S.store.step? s = some st → st.slot.Accounts (S.cleanups s) (S.cleaned s)

theorem Cleans.call {a : Activity} {xs ys : List Activity} (h : (after cs).Cleans s)
    (hS : (after cs).calls = xs ++ a :: ys) :
    ((after cs).record (some a) (a.step (after cs).store) (xs ++ ys)).Cleans s := by
  have hmem : a ∈ (after cs).calls := by simp [hS]
  refine ⟨fun hnone => ?_, fun st' hst' => ?_⟩
  · have hs : (after cs).store.step? s = none := by
      refine Option.eq_none_iff_forall_ne_some.2 fun st hs => ?_
      obtain ⟨st', hst', -⟩ := a.step_slot hs
      cases hnone.symm.trans hst'
    rw [cleaned_call, cleans?_of_none hs, h.absent hs]
    rfl
  rw [cleaned_call, cleanups_call]
  cases hs : (after cs).store.step? s with
  | none =>
    -- the step is new, and its slot is empty
    obtain ⟨rfl, -, hslot⟩ := Activity.step_new hs hst'
    have hreturns : a.returns? (after cs).store.boundaries.size = none := by
      refine Option.eq_none_iff_forall_ne_some.2 fun c hc => ?_
      exact Nat.lt_irrefl _ ((of_returning (Activity.of_returns? hc ▸ hmem)).1)
    rw [hslot, hreturns, cleans?_of_none hs, h.absent hs, cleanups_of_new (Nat.le_refl _)]
    exact ⟨rfl, rfl⟩
  | some st =>
    have hold := h.slot st hs
    obtain ⟨st'', hst'', -, -, hslot⟩ := a.step_slot hs
    cases hst'.symm.trans hst''
    rw [hslot]
    rcases a.slot_cases s (after cs).store with ⟨c, rfl⟩ | ⟨l, rfl, hc⟩ | ⟨hreturns, hcleans, hsame⟩
    · -- the registration had not returned before
      have hfirst := (of_returning hmem).2
      rw [hfirst] at hold ⊢
      cases hx : st.slot with
      | pending =>
        rw [hx] at hold
        simp [Activity.onSlot, Activity.returns?, Activity.cleans?, hs, hx, hold.2, Slot.Accounts]
      | filled c' =>
        rw [hx] at hold
        cases hold.1
      | cancelRequested =>
        rw [hx] at hold
        have hold : (after cs).cleaned s = [] := hold
        simp [Activity.onSlot, Activity.returns?, Activity.cleans?, hs, hx, hold, Slot.Accounts]
    · have hruns : (Activity.work (.looking (.token (.step s))) l).onSlot s (after cs).store st.slot =
          .cancelRequested := if_pos ⟨rfl, hc⟩
      have hcleans : (Activity.work (.looking (.token (.step s))) l).cleans? s (after cs).store =
          st.slot.cleanup? := (if_pos ⟨rfl, hc⟩).trans (by rw [hs]; rfl)
      rw [hruns, hcleans]
      cases hx : st.slot with
      | pending =>
        rw [hx] at hold
        rw [hold.1, hold.2]
        rfl
      | filled c' =>
        rw [hx] at hold
        rw [hold.1, hold.2]
        rfl
      | cancelRequested =>
        rw [hx] at hold
        exact hold
    · rw [hsame, hreturns, hcleans]
      exact hold

end Session

/-! ## The token of a step -/

section Frames

variable {s : StepId} {σ : Store} {e : ExecutionId} {link : Link} {above below : List Frame}

theorem Frame.endStep_notMem (f : Frame) (r : Result) : .endStep s ∉ (f.resume r link σ).frames := by
  rw [Frame.frames_eq]
  cases f <;> simp [Frame.frames]

/-- The end of a step comes on a stack with its token, right above what was there. -/
theorem Node.endStep_frames {n : Node} (h : (n.step e link σ).frames = above ++ .endStep s :: below) :
    n = .token (.step s) ∧ below = [] := by
  rw [Node.frames_eq] at h
  have hmem : .endStep s ∈ n.frames link σ := by simp [h]
  cases n with
  | program p => cases p <;> simp [Node.frames, Prog.frames] at hmem
  | token t =>
    cases t with
    | step s' =>
      obtain _ | ⟨f, _ | ⟨f', above⟩⟩ := above
      · cases (List.cons.inj h).1
      · obtain ⟨⟨⟩, rfl⟩ := List.cons.inj (List.cons.inj h).2
        exact ⟨rfl, rfl⟩
      · cases above <;> cases (List.cons.inj (List.cons.inj h).2).2
    | _ => simp [Node.frames, Token.frames] at hmem
  | _ => simp [Node.frames] at hmem

end Frames

/-- The token of a step is on a connection only if it was there before, or the step is new. -/
theorem Activity.mem_tokens_step {a : Activity} {σ : Store} {c : ConnectionId} {s : StepId}
    (h : .step s ∈ (a.step σ).1.tokens c) : .step s ∈ σ.tokens c ∨ s = σ.boundaries.size := by
  obtain hold | hpush := (a.step_operates σ).mem_tokens h
  · exact .inl hold
  obtain ⟨n, l, rfl, hc, hn⟩ | ⟨left, right, k, -, ht⟩ | ⟨-, ht⟩ := Activity.of_operation_push hpush
  · obtain ⟨-, hnone⟩ | ⟨-, -, x, hx, ⟨hnone, -⟩ | ⟨t, ht, hpledges⟩⟩ := n.step_pledges hc l.id
    · exact absurd hn (hnone _ _)
    · cases hnone.symm.trans hn
    · obtain ⟨hlink, rfl⟩ : l.link = some c ∧ t = .step s := by simpa using ht.symm.trans hn
      exact .inr ((hpledges c _).2 ⟨hlink, rfl⟩).of_step.1
  · cases ht
  · cases ht

theorem Input.mem_tokens_step {i : Input} {σ : Store} {c : ConnectionId} {s : StepId}
    (h : .step s ∈ (i.step σ).1.tokens c) : .step s ∈ σ.tokens c :=
  ((i.step_operates σ).mem_tokens h).resolve_right fun hpush => (Input.of_operation hpush).2 _ rfl

namespace Session

variable {cs cs₀ : List Choice} {s : StepId} {st : Step} {c : ConnectionId}

/-- A step has the link and the source that it had. -/
theorem step_of_later (hs : (after cs₀).store.step? s = some st) (cs : List Choice) :
    ∃ st', (after (cs ++ cs₀)).store.step? s = some st' ∧ st'.source = st.source ∧ st'.link = st.link :=
  (after_grows cs₀ cs).step hs

/-- Nobody has the token of the step, and it was not run. -/
structure Gone (s : StepId) (S : Session) : Prop where
  stored : ∀ c, .step s ∉ S.store.tokens c
  flying : ∀ x l, S.Has x l → s ∉ l.flying x
  slot : ∀ st, S.store.step? s = some st → st.slot ≠ .cancelRequested

/-- The token of a step that nobody has any more is never run. -/
theorem Gone.later (h : (after cs₀).Gone s) (hs : (after cs₀).store.step? s = some st) (cs : List Choice) :
    (after (cs ++ cs₀)).Gone s := by
  have hstored : ∀ cs, ∀ c, .step s ∉ (after (cs ++ cs₀)).store.tokens c := by
    refine invariant_from (P := fun S => ∀ c, .step s ∉ S.store.tokens c) h.stored ?_ ?_
    · exact fun cs i ih c hmem => ih c (Input.mem_tokens_step hmem)
    · intro cs a xs ys hS ih c hmem
      obtain hold | rfl := Activity.mem_tokens_step hmem
      · exact ih c hold
      · obtain ⟨st', hst', -⟩ := step_of_later hs cs
        exact Nat.lt_irrefl _ (Store.lt_of_step? hst')
  have hflying : ∀ cs, ∀ x l, (after (cs ++ cs₀)).Has x l → s ∉ l.flying x := by
    refine each_from (P := fun _ x l => s ∉ l.flying x) h.flying (fun _ h => h) ?_ ?_ ?_
    · intro cs n link k others hcall hmem
      refine ((orderly _).runs s (List.mem_flatMap.2 ⟨_, hcall, ?_⟩)).elim
      have hmem : s ∈ n.flying := by simpa [Loop.flying, Stage.flying, Store.begin] using hmem
      exact List.mem_append_right _ (List.mem_map_of_mem hmem)
    · intro cs x l t fs others hcall ih ht hmem
      obtain hold | ⟨n, c, rfl, hdraws⟩ := ht.flying s hmem
      · exact ih hold
      · unfold Node.draws at hdraws
        split at hdraws <;> first | exact hstored cs c hdraws.2 | exact hdraws.elim
    · intro S b l r hripe ih hmem
      exact ih (by simpa [Loop.flying, Stage.flying, Node.flying] using hmem)
  refine ⟨hstored cs, hflying cs, ?_⟩
  refine invariant_from (P := fun S => ∀ st, S.store.step? s = some st → st.slot ≠ .cancelRequested)
    h.slot ?_ ?_ cs
  · intro cs i ih st' hst'
    have hstep := i.step_step? s (after (cs ++ cs₀)).store
    exact ih st' (hstep ▸ hst')
  · intro cs a xs ys hS ih st' hst' hslot
    have hmem : a ∈ (after (cs ++ cs₀)).calls := by simp [hS]
    obtain ⟨st₁, hst₁, -⟩ := step_of_later hs cs
    obtain ⟨st'', hst'', -, -, hsame⟩ := a.step_slot hst₁
    cases hst'.symm.trans hst''
    rcases Activity.runs_of_requested (hsame.symm.trans hslot) with hold | ⟨l, rfl, -⟩
    · exact ih st₁ hst₁ hold
    · exact hflying cs _ l (.inl hmem) (List.mem_append_left _ (List.mem_singleton_self s))

section Approaches

variable {ts : List Token} {l l₀ : Loop} {place : Nat} {s₀ : Stage}

end Approaches

/-- **A loop in which a step is to be ended has begun with the token of that step**, on the stack that is
below. -/
theorem token_before_end (cs : List Choice) : ∀ x l, (after cs).Has x l → ∀ s above below,
    l.stack = above ++ .endStep s :: below → ∃ m ∈ (after cs).past, ∃ l',
      m.call = some (.work (.looking (.token (.step s))) l') ∧ m.before.isCancelled l'.link = false ∧
        l'.id = l.id ∧ l'.stack = below := by
  refine each (P := fun S x l => ∀ s above below, l.stack = above ++ .endStep s :: below →
    ∃ m ∈ S.past, ∃ l', m.call = some (.work (.looking (.token (.step s))) l') ∧
      m.before.isCancelled l'.link = false ∧ l'.id = l.id ∧ l'.stack = below) ?_ ?_ ?_ ?_ cs
  · intro S call next others x l hgrows h s above below hstack
    obtain ⟨m, hm, hbegan⟩ := h s above below hstack
    exact ⟨m, .tail _ hm, hbegan⟩
  · intro cs n link k others hcall s above below hstack
    simp [Store.begin] at hstack
  · intro cs x l t fs others hcall h ht s above below hstack
    rcases Turn.sweep_cases hstack with ⟨as, -, hfs⟩ | ⟨gs, hframes⟩
    · obtain ⟨gs, hold⟩ : ∃ gs, l.stack = gs ++ fs := by
        cases ht with
        | handing r f fs hl => exact ⟨[f], hl⟩
        | _ => exact ⟨[], rfl⟩
      obtain ⟨m, hm, hbegan⟩ := h s (gs ++ as) below (by rw [hold, hfs, List.append_assoc])
      exact ⟨m, .tail _ hm, hbegan⟩
    · cases ht with
      | looking n hc =>
        obtain ⟨rfl, rfl⟩ := Node.endStep_frames hframes
        refine ⟨_, .head _, l, rfl, hc, rfl, ?_⟩
        rw [Turn.loop, hframes, List.append_assoc] at hstack
        exact (List.cons.inj (List.append_cancel_left hstack)).2
      | handing r f fs hl =>
        exact absurd (hframes ▸ List.mem_append_right _ (.head _)) (f.endStep_notMem r)
      | _ => exact absurd hframes (by simp [Code.turn])
  · intro S b l r hripe h
    exact h

/-- What was offered to the step came from its source, or because its token has been run. -/
theorem of_resolution (hs : (after cs).store.step? s = some st) {newer older : List Moment} {m : Moment}
    {r : Result} (hpast : (after cs).past = newer ++ m :: older)
    (hr : m.call.bind (·.resolves? s m.before) = some r) :
    m.call = some (.complete (.step s st.source) r) ∨ r = .error .cancelled ∧
      ∃ v l fs, m.call = some (.work (.handing (.ok v)) l) ∧ l.stack = .endStep s :: fs ∧
        ∃ m' ∈ older, ∃ l', m'.call = some (.work (.looking (.token (.step s))) l') ∧
          m'.before.isCancelled l'.link = false ∧ l'.id = l.id ∧ l'.stack = fs := by
  obtain ⟨cs₂, x, cs₁, rfl, rfl, hmade⟩ := exists_made hpast
  rw [List.append_cons] at hs
  obtain ⟨a, ha, hresolves⟩ := Option.bind_eq_some_iff.1 hr
  clear hr
  rw [ha]
  unfold Activity.resolves? at hresolves
  split at hresolves
  · split at hresolves
    · rename_i hsource
      obtain ⟨rfl, hsource⟩ := hsource
      cases hresolves
      obtain ⟨st₁, hst₁, rfl⟩ := Option.map_eq_some_iff.1 hsource
      rw [hmade.before] at hst₁
      obtain ⟨st', hst', hsame, -⟩ := step_of_later hst₁ (cs₂ ++ [x])
      cases hs.symm.trans hst'
      exact .inl (by rw [hsame])
    · cases hresolves
  · split at hresolves
    · rename_i r' e link s' fs k hends
      obtain ⟨rfl, hok, -⟩ := hends
      cases hresolves
      refine .inr ⟨rfl, ?_⟩
      obtain ⟨i, -, hnone, -⟩ | ⟨place, a, -, hcall, hsome, -⟩ := hmade.how
      · cases hnone.symm.trans ha
      cases hsome.symm.trans ha
      obtain ⟨m', hm', l', hbegan⟩ :=
        token_before_end cs₁ _ _ (.inl (List.mem_of_getElem? hcall)) s' [] fs rfl
      cases r' with
      | ok v => exact ⟨v, _, fs, rfl, rfl, m', hm', l', hbegan⟩
      | error e => cases hok
    · cases hresolves
  · cases hresolves

end Session

end CancelableEffects
