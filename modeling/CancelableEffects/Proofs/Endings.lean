import CancelableEffects.Proofs.Decisions

/-!
# Endings — the wait of a step ends once, and its boundary is completed with that

* `Activity.ending?`, `Session.endings`: the result with which a call ends the wait of a step, and those
  of the past.
* `Activity.Steps`: what a call does to a step.
* **`Activity.step_steps`**: a call fills the slot of a step, or asks for its cancellation, or ends its
  wait, or leaves it alone.
* `Session.completions`: the results with which pending calls complete a boundary.
* **`Session.waits_end`**, **`Session.completed_as_ended`**: the boundary of a step is completed, or is about
  to be, exactly when the wait of the step has ended, and with that result.
-/

namespace CancelableEffects

/-! ## What is done to a step -/

/-- The result with which the call ends the wait of the step, if that was not over: its source
completes it, or its token has been run. -/
def Activity.ending? (s : StepId) (σ : Store) : Activity → Option Result
  | .complete (.step s' source) r => if s' = s ∧ σ.completesStep s source then some r else none
  | .work (.handing r) ⟨_, _, .endStep s' :: _, _⟩ =>
    if s' = s ∧ σ.endsStep s r then some (.error .cancelled) else none
  | _ => none

/-- What an edit does to the step. -/
def Edit.onStep (s : StepId) (st : Step) : Edit → Step
  | .slot s' x => if s' = s then { st with slot := x } else st
  | .endsStep s' => if s' = s then { st with live := false } else st
  | _ => st

section Edits

variable {s : StepId} {st : Step}

theorem Edit.apply_step (e : Edit) {xs : Array Keeper} (h : xs[s]? = some (.step st)) :
    (e.apply xs)[s]? = some (.step (e.onStep s st)) := by
  have hmodify : ∀ (b : BoundaryId) (f : Keeper → Keeper) {st' : Step},
      (if b = s then f (.step st) else .step st) = .step st' →
        (xs.modify b f)[s]? = some (.step st') := by
    intro b f st' hst
    rw [Array.getElem?_modify, h]
    split at hst
    · rw [if_pos ‹_›, ← hst]
      rfl
    · rw [if_neg ‹_›, hst]
  cases e with
  | opens x =>
    obtain ⟨hlt, hst⟩ := Array.getElem?_eq_some_iff.1 h
    exact (Array.getElem?_push_lt hlt).trans (congrArg some hst)
  | value k side v => cases side <;> exact hmodify _ _ (by split <;> rfl)
  | slot s' x => exact hmodify _ _ (by simp only [onStep]; split <;> rfl)
  | endsStep s' => exact hmodify _ _ (by simp only [onStep]; split <;> rfl)
  | _ => exact hmodify _ _ (by split <;> rfl)

theorem Edit.foldl_step (es : List Edit) {xs : Array Keeper} (h : xs[s]? = some (.step st)) :
    (es.foldl Edit.apply xs)[s]? = some (.step (es.foldl (Edit.onStep s) st)) := by
  induction es generalizing xs st with
  | nil => exact h
  | cons e es ih => exact ih (e.apply_step h)

/-- Edits that are not about the step leave it alone. -/
theorem Edit.foldl_onStep_eq {es : List Edit}
    (h : ∀ e ∈ es, (∀ x, e ≠ .slot s x) ∧ e ≠ .endsStep s) : es.foldl (Edit.onStep s) st = st := by
  induction es with
  | nil => rfl
  | cons e es ih =>
    obtain ⟨⟨hslot, hends⟩, hes⟩ := List.forall_mem_cons.1 h
    have he : e.onStep s st = st := by
      cases e with
      | slot s' x => exact if_neg fun hs : s' = s => hslot x (hs ▸ rfl)
      | endsStep s' => exact if_neg fun hs : s' = s => hends (hs ▸ rfl)
      | _ => rfl
    rw [List.foldl_cons, he, ih hes]

end Edits

/-- What the call does to the step: it runs the token of the step, fills the slot, ends the wait, or
leaves the step alone. -/
inductive Activity.Steps (s : StepId) (σ : Store) (a : Activity) (st st' : Step) : Prop
  | stays (hending : a.ending? s σ = none) (hst : st' = st)
  | runs (l : Loop) (ha : a = .work (.looking (.token (.step s))) l)
    (hc : σ.isCancelled l.link = false) (hst : st' = { st with slot := .cancelRequested })
  | fills (c : Cleanup) (ha : a = .fillSlot s c) (hslot : st.slot ≠ .cancelRequested)
    (hst : st' = { st with slot := .filled c })
  | ends (r : Result) (hending : a.ending? s σ = some r) (hlive : st.live = true)
    (hst : st' = { st with live := false })

section Steps

variable {s : StepId} {st : Step} {a : Activity} {σ : Store}

theorem Store.lt_of_step? (hs : σ.step? s = some st) : s < σ.boundaries.size := by
  have hlt := (Array.getElem?_eq_some_iff.1 (Store.step?_eq_some.1 hs)).1
  rwa [σ.boundaries.aligned] at hlt

/-- Nothing that the outside world does is done to a step. -/
theorem Input.step_step? (i : Input) (s : StepId) (σ : Store) : (i.step σ).1.step? s = σ.step? s := by
  have hkeeper : (i.step σ).1.keeper? s = σ.keeper? s := (i.step_does σ).keeper? s
  simp only [Store.step?, hkeeper]

/-- Only a step that is live can end its wait. -/
theorem Activity.live_of_ending {r : Result} (hs : σ.step? s = some st) (h : a.ending? s σ = some r) :
    st.live = true := by
  unfold ending? at h
  split at h
  · split at h
    · rename_i hcompletes
      obtain ⟨rfl, hcompletes⟩ := hcompletes
      simp only [Store.completesStep, hs, Option.map_some, Option.getD_some, Bool.and_eq_true] at hcompletes
      exact hcompletes.1
    · cases h
  · split at h
    · rename_i hends
      obtain ⟨rfl, hends⟩ := hends
      simp only [Store.endsStep, hs, Option.map_some, Option.getD_some, Bool.and_eq_true] at hends
      exact hends.2
    · cases h
  · cases h

/-- The wait of a step ends with a result of its source, or because its token has been run. -/
theorem Activity.of_ending {r : Result} (hs : σ.step? s = some st) (h : a.ending? s σ = some r) :
    a = .complete (.step s st.source) r ∨ r = .error .cancelled ∧
      ∃ r' e link fs k, a = .work (.handing r') ⟨e, link, .endStep s :: fs, k⟩ := by
  unfold ending? at h
  split at h
  · split at h
    · rename_i hcompletes
      obtain ⟨rfl, hcompletes⟩ := hcompletes
      simp only [Store.completesStep, hs, Option.map_some, Option.getD_some, Bool.and_eq_true,
        beq_iff_eq] at hcompletes
      cases h
      exact .inl (by rw [hcompletes.2])
    · cases h
  · split at h
    · rename_i hends
      obtain ⟨rfl, -⟩ := hends
      cases h
      exact .inr ⟨rfl, _, _, _, _, _, rfl⟩
    · cases h
  · cases h

/-- Nothing ends the wait of a step that is not there. -/
theorem Activity.ending?_of_none (hs : σ.step? s = none) (a : Activity) : a.ending? s σ = none := by
  unfold ending?
  split
  · refine if_neg ?_
    rintro ⟨rfl, hcompletes⟩
    simp [Store.completesStep, hs] at hcompletes
  · refine if_neg ?_
    rintro ⟨rfl, hends⟩
    simp [Store.endsStep, hs] at hends
  · rfl

/-- Who ends the wait of a step does nothing else with the keepers, and completes its boundary. -/
theorem Activity.does_of_ending {r : Result} (h : a.ending? s σ = some r) :
    a.edits σ = [.endsStep s] ∧ a.matters σ = [.completes s r] := by
  unfold ending? at h
  split at h
  · split at h
    · rename_i hcompletes
      obtain ⟨rfl, hcompletes⟩ := hcompletes
      cases h
      exact ⟨if_pos hcompletes, if_pos hcompletes⟩
    · cases h
  · split at h
    · rename_i hends
      obtain ⟨rfl, hends⟩ := hends
      cases h
      exact ⟨if_pos hends, if_pos hends⟩
    · cases h
  · cases h

theorem Activity.edits_fillSlot (h : (σ.step? s).map Step.slot ≠ some .cancelRequested) (c : Cleanup) :
    (Activity.fillSlot s c).edits σ = [.slot s (.filled c)] := by
  simp only [edits]

/-- **A call runs the token of a step, fills its slot, ends its wait, or leaves it alone.** -/
theorem Activity.step_steps (hs : σ.step? s = some st) (a : Activity) :
    ∃ st', (a.step σ).1.step? s = some st' ∧ a.Steps s σ st st' := by
  have hkeeper : (a.step σ).1.keeper? s = _ :=
    ((a.step_does σ).keeper? s).trans (Edit.foldl_step _ (Store.step?_eq_some.1 hs))
  refine ⟨_, Store.step?_eq_some.2 hkeeper, ?_⟩
  have hends : ∀ {r}, a.ending? s σ = some r → a.Steps s σ st ((a.edits σ).foldl (Edit.onStep s) st) :=
    fun {r} hending => .ends r hending (Activity.live_of_ending hs hending) <| by
      simp [(Activity.does_of_ending hending).1, Edit.onStep]
  by_cases habout : ∃ e ∈ a.edits σ, (∃ x, e = .slot s x) ∨ e = .endsStep s
  · obtain ⟨e, he, habout⟩ := habout
    cases a.makes_of_edits he with
    | @requests s' l hc =>
      obtain rfl : s' = s := by simpa using habout
      exact .runs l rfl hc (by simp [Activity.edits, hc, Node.edits, Edit.onStep])
    | @fills s' c hslot =>
      obtain rfl : s' = s := by simpa using habout
      refine .fills c rfl (by simpa [hs] using hslot) ?_
      simp [Activity.edits_fillSlot hslot, Edit.onStep]
    | @endStep s' r l fs hl hcomes =>
      obtain rfl : s' = s := by simpa using habout
      obtain ⟨e, link, stack, k⟩ := l
      cases hl
      exact hends (if_pos ⟨rfl, hcomes⟩)
    | @step s' source r hcompletes =>
      obtain rfl : s' = s := by simpa using habout
      exact hends (if_pos ⟨rfl, hcompletes⟩)
    | _ => simp at habout
  · refine .stays ?_ (Edit.foldl_onStep_eq fun e he => ⟨?_, ?_⟩)
    · refine Option.eq_none_iff_forall_ne_some.2 fun r hending => habout ⟨.endsStep s, ?_, .inr rfl⟩
      simp [(Activity.does_of_ending hending).1]
    · exact fun x hx => habout ⟨e, he, .inl ⟨x, hx⟩⟩
    · exact fun hx => habout ⟨e, he, .inr hx⟩

/-- The result with which the matter completes the boundary. -/
def Matter.completion? (b : BoundaryId) : Matter → Option Result
  | .completes b' r => if b' = b then some r else none
  | _ => none

theorem Activity.ending_of_completes {r : Result} (hs : σ.step? s = some st)
    (h : .completes s r ∈ a.matters σ) : a.ending? s σ = some r := by
  have hkeeper := Store.step?_eq_some.1 hs
  generalize hm : Matter.completes s r = m at h
  cases a.raises_of_matters h with
  | step r hs hc =>
    cases hm
    exact if_pos ⟨rfl, hc⟩
  | @endStep s' st' r' l fs hl hs hends =>
    cases hm
    obtain ⟨e, link, stack, k⟩ := l
    cases hl
    exact if_pos ⟨rfl, hends⟩
  | callback r hb =>
    cases hm
    cases hkeeper.symm.trans hb
  | refused e x hg | acquired e v hg hc | releasedLate e r hg =>
    cases hm
    cases hkeeper.symm.trans (Store.bracket?_eq_some.1 hg)
  | side e hf hmatters =>
    obtain ⟨-, rfl | ⟨v, rfl⟩⟩ := Fork.of_matters hmatters
    · cases hm
    · cases hm
      cases hkeeper.symm.trans (Store.fork?_eq_some.1 hf)
  | settle e x r hf =>
    cases hm
    cases hkeeper.symm.trans (Store.fork?_eq_some.1 hf)
  | outcome f x o hd hopen =>
    cases o with
    | completed v =>
      cases hm
      cases hkeeper.symm.trans (Store.duel?_eq_some.1 hd)
    | _ => cases hm
  | fail e cause r hd =>
    cases hm
    cases hkeeper.symm.trans (Store.duel?_eq_some.1 hd)
  | _ => cases hm

/-- **The boundary of a step is completed by the call that ends the wait, and by no other.** -/
theorem Activity.completions_of_step (hs : σ.step? s = some st) (a : Activity) :
    (a.matters σ).filterMap (·.completion? s) = (a.ending? s σ).toList := by
  cases hending : a.ending? s σ with
  | some r => simp [(Activity.does_of_ending hending).2, Matter.completion?]
  | none =>
    refine List.filterMap_eq_nil_iff.2 fun m hm => ?_
    cases m with
    | completes b r =>
      refine if_neg ?_
      rintro rfl
      cases hending.symm.trans (Activity.ending_of_completes hs hm)
    | _ => rfl

/-- A program that waits at a step opens a new one. -/
theorem Prog.opens_new {p : Prog} {e : ExecutionId} {link : Link} (h : p.opens e link σ = some (.step st)) :
    st.live = true ∧ st.slot = .pending := by
  cases p <;> simp only [Prog.opens, Option.some.injEq, Keeper.step.injEq, reduceCtorEq] at h <;>
    subst h <;> exact ⟨rfl, rfl⟩

/-- A step that was not there before is live, and its slot is empty. -/
theorem Activity.step_new (hnone : σ.step? s = none) (hs : (a.step σ).1.step? s = some st) :
    s = σ.boundaries.size ∧ st.live = true ∧ st.slot = .pending := by
  have hkeeper : σ.keeper? s = none := by
    refine Option.eq_none_iff_forall_ne_some.2 fun x hx => ?_
    obtain ⟨x', hx', hgrows⟩ := (a.step_grows σ).keeper s x hx
    cases hx'.symm.trans (Store.step?_eq_some.1 hs)
    cases x with
    | step st' => cases hnone.symm.trans (Store.step?_eq_some.2 hx)
    | _ => exact hgrows.elim
  obtain ⟨n, l, rfl, hc, rfl, -⟩ := Activity.of_new_keeper hkeeper (Store.step?_eq_some.1 hs)
  refine ⟨rfl, ?_⟩
  have hx := Store.step?_eq_some.1 hs
  rw [Activity.step, l.step_of_not_cancelled hc] at hx
  rcases Node.of_keeper hc hx with ⟨p, -, hopens⟩ | ⟨g, -, hst⟩
  · exact Prog.opens_new hopens
  · cases hst
    exact ⟨rfl, rfl⟩

end Steps

/-- The matters of a call other than that of a loop at work tell which boundary it completes. -/
theorem Activity.completion?_carries (a : Activity) (b : BoundaryId) :
    a.carries.filterMap (·.completion? b) = (a.offer? b).toList := by
  have hends : ∀ k : Sink, k.ends.filterMap (·.completion? b) = [] := by
    intro k
    cases k <;> rfl
  cases a with
  | start n link k =>
    simp only [carries, List.filterMap_append, hends, List.nil_append, offer?, Option.toList_none]
    exact List.filterMap_eq_nil_iff.2 (List.forall_mem_map.2 fun s _ => rfl)
  | complete c r =>
    cases c with
    | boundary b' =>
      by_cases hb : b' = b <;> simp [carries, offer?, Matter.completion?, hb]
    | _ => rfl
  | _ => rfl

theorem Activity.filterMap_offer? (as : List Activity) (b : BoundaryId) :
    as.filterMap (·.offer? b) = (as.flatMap Activity.carries).filterMap (·.completion? b) := by
  induction as with
  | nil => rfl
  | cons a as ih =>
    rw [List.flatMap_cons, List.filterMap_append, ← ih, a.completion?_carries b, List.filterMap_cons]
    cases a.offer? b <;> rfl

/-! ## The past of a step -/

namespace Session

variable {S : Session} {cs : List Choice} {s : StepId} {st : Step} {a : Activity} {xs ys : List Activity}

/-- The results with which the wait of the step ended, the latest first. -/
def endings (s : StepId) (S : Session) : List Result :=
  S.past.filterMap fun m => m.call.bind (·.ending? s m.before)

/-- The results with which pending calls complete the boundary. -/
def completions (b : BoundaryId) (S : Session) : List Result := S.calls.filterMap (·.offer? b)

theorem endings_call (S : Session) (a : Activity) (others : List Activity) :
    (S.record (some a) (a.step S.store) others).endings s =
      (a.ending? s S.store).toList ++ S.endings s := by
  simp only [endings, record_past, List.filterMap_cons, Option.bind_some]
  cases a.ending? s S.store <;> rfl

theorem endings_input (S : Session) (i : Input) :
    (S.record none (i.step S.store) S.calls).endings s = S.endings s := rfl

theorem mem_completions {b : BoundaryId} {r : Result} :
    r ∈ S.completions b ↔ .complete (.boundary b) r ∈ S.calls := by
  refine List.mem_filterMap.trans ⟨?_, fun h => ⟨_, h, if_pos rfl⟩⟩
  rintro ⟨a, ha, hr⟩
  exact Activity.of_offer? hr ▸ ha

theorem completions_call (hs : S.store.step? s = some st) (a : Activity) (others : List Activity) :
    (S.record (some a) (a.step S.store) others).completions s =
      (a.ending? s S.store).toList ++ others.filterMap (·.offer? s) := by
  rw [completions, record_calls, List.filterMap_append, Activity.filterMap_offer?,
    (a.step_does S.store).matters, Activity.completions_of_step hs]

theorem completions_input (b : BoundaryId) (S : Session) (i : Input) :
    (S.record none (i.step S.store) S.calls).completions b = S.completions b := by
  rw [completions, record_calls, List.filterMap_append, Activity.filterMap_offer?,
    (i.step_does S.store).matters]
  rfl

theorem offers_input (b : BoundaryId) (S : Session) (i : Input) :
    (S.record none (i.step S.store) S.calls).offers b = S.offers b := by
  simp [offers_record, Moment.offer?]

/-- The boundary of a step that is live is not about to be completed. -/
theorem Orderly.completions_of_live (h : S.Orderly) (hs : S.store.step? s = some st)
    (hlive : st.live = true) : S.completions s = [] := by
  refine List.eq_nil_iff_forall_not_mem.2 fun r hr => ?_
  have hkeeper := Store.step?_eq_some.1 hs
  have hanswers : S.Answers s r :=
    h.completes s r (List.mem_flatMap.2 ⟨_, mem_completions.1 hr, .head _⟩)
  obtain (⟨x, hx, hdecided, -⟩ | ⟨br, hbr, -⟩) | ⟨⟨br, hbr⟩, -⟩ := hanswers
  · cases hkeeper.symm.trans hx
    cases hlive.symm.trans hdecided
  · cases hkeeper.symm.trans (Store.bracket?_eq_some.1 hbr)
  · cases hkeeper.symm.trans (Store.bracket?_eq_some.1 hbr)

/-- The wait of the step has ended once, unless the step is live, and its boundary was completed with
the result, or is about to be. -/
structure Ends (s : StepId) (S : Session) : Prop where
  absent : S.store.step? s = none → S.endings s = []
  completed : ∀ st, S.store.step? s = some st → (S.completions s ++ S.offers s).Perm (S.endings s)
  once : ∀ st, S.store.step? s = some st → (S.endings s).length = if st.live then 0 else 1

/-- What a call completes or ends is entered. -/
theorem Ends.call (h : (after cs).Ends s) (hS : (after cs).calls = xs ++ a :: ys) :
    ((after cs).record (some a) (a.step (after cs).store) (xs ++ ys)).Ends s := by
  cases hs : (after cs).store.step? s with
  | some st =>
    obtain ⟨st', hst', hsteps⟩ := a.step_steps hs
    refine ⟨fun hnone => ?_, fun st'' hst'' => ?_, fun st'' hst'' => ?_⟩
    · cases hnone.symm.trans hst'
    · have hlt : s < (after cs).store.boundaries.size := Store.lt_of_step? hs
      have hoffer : Moment.offer? s ⟨some a, (after cs).store, a.step (after cs).store⟩ = a.offer? s :=
        if_pos hlt
      have hbefore : ((after cs).completions s).Perm
          ((a.offer? s).toList ++ (xs ++ ys).filterMap (·.offer? s)) := by
        rw [completions, hS, List.filterMap_append, List.filterMap_append, List.filterMap_cons]
        cases a.offer? s with
        | none => exact .refl _
        | some r => exact List.perm_middle
      rw [completions_call hs, endings_call, offers_record, hoffer, List.append_assoc]
      refine .append_left _ ?_
      calc (xs ++ ys).filterMap (·.offer? s) ++ ((a.offer? s).toList ++ (after cs).offers s)
        _ = ((xs ++ ys).filterMap (·.offer? s) ++ (a.offer? s).toList) ++ (after cs).offers s :=
          (List.append_assoc ..).symm
        _ |>.Perm (((a.offer? s).toList ++ (xs ++ ys).filterMap (·.offer? s)) ++ (after cs).offers s) :=
          List.perm_append_comm.append_right _
        _ |>.Perm ((after cs).completions s ++ (after cs).offers s) := hbefore.symm.append_right _
        _ |>.Perm ((after cs).endings s) := h.completed st hs
    · cases hst'.symm.trans hst''
      have honce := h.once st hs
      rw [endings_call, List.length_append, honce]
      cases hsteps with
      | stays hending hst => simp [hending, hst]
      | runs l ha hc hst => subst ha; simp [Activity.ending?, hst]
      | fills c ha hslot hst => subst ha; simp [Activity.ending?, hst]
      | ends r hending hlive hst => simp [hending, hlive, hst]
  | none =>
    have hendings : ((after cs).record (some a) (a.step (after cs).store) (xs ++ ys)).endings s = [] := by
      rw [endings_call, Activity.ending?_of_none hs, h.absent hs]
      rfl
    refine ⟨fun _ => hendings, fun st' hst' => ?_, fun st' hst' => ?_⟩
    · obtain ⟨rfl, hlive, -⟩ := Activity.step_new hs hst'
      have htells := tells (after cs).store.boundaries.size cs
      rw [Tells, show (after cs).store.boundary? (after cs).store.boundaries.size = none from
        Array.getElem?_eq_none (Nat.le_refl _)] at htells
      rw [hendings, ((orderly cs).call hS).completions_of_live hst' hlive, offers_record, htells.1]
      simp [Moment.offer?]
    · rw [hendings, (Activity.step_new hs hst').2.1]
      rfl

/-- **The wait of a step ends once at most, and its boundary is completed with that.** -/
theorem waits_end (s : StepId) (cs : List Choice) : (after cs).Ends s := by
  refine invariant (P := Ends s) ⟨fun _ => rfl, ?_, ?_⟩ ?_ (fun cs a xs ys hS h => h.call hS) cs
  · intro st hst
    cases hst
  · intro st hst
    cases hst
  · intro cs i h
    have hstep := i.step_step? s (after cs).store
    refine ⟨fun hs => h.absent (hstep ▸ hs), fun st hs => ?_, fun st hs => h.once st (hstep ▸ hs)⟩
    rw [completions_input, endings_input, offers_input]
    exact h.completed st (hstep ▸ hs)

/-- **The boundary of a step is completed once at most**, or about to be, with the result that ended
the wait. -/
theorem completed_as_ended (hs : (after cs).store.step? s = some st) :
    (after cs).completions s ++ (after cs).offers s = (after cs).endings s ∧
      (after cs).endings s = ((after cs).endings s).head?.toList ∧
      (st.live = true ↔ (after cs).endings s = []) := by
  have hperm := (waits_end s cs).completed st hs
  have honce := (waits_end s cs).once st hs
  cases hlive : st.live with
  | true =>
    rw [hlive, if_pos rfl] at honce
    have hnil := List.eq_nil_of_length_eq_zero honce
    rw [hnil] at hperm ⊢
    exact ⟨List.perm_nil.1 hperm, rfl, by simp⟩
  | false =>
    rw [hlive, if_neg (by simp)] at honce
    obtain ⟨r, hr⟩ := List.length_eq_one_iff.1 honce
    rw [hr] at hperm ⊢
    exact ⟨List.perm_singleton.1 hperm, rfl, by simp⟩

end Session

end CancelableEffects
