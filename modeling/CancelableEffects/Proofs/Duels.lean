import CancelableEffects.Proofs.Exchanges
import CancelableEffects.Proofs.Outcomes
import CancelableEffects.Proofs.Preparations

/-!
# Duels — what the first outcome of two fibers makes of a duel

* `Duel.answer`: what follows the first outcome of a duel.
* **`Activity.step_duel?`**: a duel changes only when it is told an outcome.
* `Session.ties`, `Session.fires`: how a duel was tied together, and the outcomes that it was told.
* `Session.Duels`: a loop opens a duel.
* **`Session.Duels.duel_of_fires`**: a duel is what the outcomes made of it.
* **`Session.Duels.comes_iff`**: what comes of it.
-/

namespace CancelableEffects

/-- The fiber of the side. -/
def Duel.fiber (d : Duel) : Side → FiberId
  | .left => d.left
  | .right => d.right

/-- What follows when the fiber of the side has the outcome first: a value comes to the boundary together
with the other fiber, and because of a failure or a cancellation that one is cancelled. -/
def Duel.answer (k : DuelId) (d : Duel) (x : Side) : Outcome Value → Activity
  | .completed v =>
    .complete (.boundary k) (.ok (x.tag (.pair v (.handle (.fiber (d.fiber x.other))))))
  | .errored e => .start (.token (.fiber (d.fiber x.other))) none (.fail k (some e))
  | .cancelled => .start (.token (.fiber (d.fiber x.other))) none (.fail k none)

/-- The duel after the outcomes that it was told. -/
def Duel.after (d : Duel) (fires : List (Side × Outcome Value)) : Duel :=
  { d with settled := !fires.isEmpty }

/-- The outcome that the call tells the duel, and the side of the fiber. -/
def Activity.fires? (k : DuelId) : Activity → Option (Side × Outcome Value)
  | .notify _ (.duel k' x) o => if k' = k then some (x, o) else none
  | _ => none

theorem Activity.of_fires? {k : DuelId} {a : Activity} {y : Side × Outcome Value}
    (h : a.fires? k = some y) : ∃ f, a = .notify f (.duel k y.1) y.2 := by
  unfold fires? at h
  split at h
  · split at h
    · subst_vars
      cases h
      exact ⟨_, rfl⟩
    · cases h
  · cases h

/-- The duel that the call ties together under the index. -/
def Activity.ties? (k : DuelId) : Activity → Option Duel
  | .tie left right parent k' => if k' = k then some { parent, left, right } else none
  | _ => none

theorem Activity.of_ties? {k : DuelId} {a : Activity} {d : Duel} (h : a.ties? k = some d) :
    a = .tie d.left d.right d.parent k ∧ d.settled = false := by
  unfold ties? at h
  split at h
  · split at h
    · subst_vars
      cases h
      exact ⟨rfl, rfl⟩
    · cases h
  · cases h

/-! ## Steps -/

section Steps

variable {σ : Store} {k : DuelId} {d : Duel} {a : Activity}

/-- A duel stays as it is unless an edit is about it. -/
theorem Edit.keeps_duel {e : Edit} (he : e.duel? ≠ some k) :
    e.Keeps fun b x => b = k ∧ x = .duel (some d) := by
  rintro xs b x hx ⟨rfl, rfl⟩
  have hmodify : ∀ (b' : BoundaryId) (g : Keeper → Keeper),
      (b' = b → g (.duel (some d)) = .duel (some d)) →
        ∃ x', (xs.modify b' g)[b]? = some x' ∧ b = b ∧ x' = .duel (some d) := fun b' g hg =>
    getElem?_modify (P := fun b x => b = b ∧ x = .duel (some d)) hx ⟨rfl, rfl⟩ fun hb => ⟨rfl, hg hb⟩
  cases e with
  | opens y =>
    obtain ⟨hlt, hy⟩ := Array.getElem?_eq_some_iff.1 hx
    exact ⟨_, Array.getElem?_push_lt hlt, rfl, hy⟩
  | value k side v => cases side <;> exact hmodify _ _ fun _ => rfl
  | endsDuel k => exact hmodify _ _ fun hk => absurd (congrArg some hk) he
  | ties k d => exact hmodify _ _ fun hk => absurd (congrArg some hk) he
  | _ => exact hmodify _ _ fun _ => rfl

/-- **A duel that is tied together changes only when it is told an outcome.** -/
theorem Activity.step_duel? (ha : a.ties? k = none) (h : σ.duel? k = some d) :
    (a.step σ).1.duel? k =
      some (if (a.fires? k).isSome then { d with settled := true } else d) := by
  have hx : σ.boundaries.keepers[k]? = some (.duel (some d)) := Store.duel?_eq_some.1 h
  rw [Store.duel?_eq_some, (a.step_does σ).keeper?]
  cases hfires : a.fires? k with
  | some y =>
    obtain ⟨f, rfl⟩ := Activity.of_fires? hfires
    obtain ⟨parent, left, right, settled⟩ := d
    cases settled with
    | true => simpa [Activity.edits, h] using hx
    | false => simp [Activity.edits, h, Edit.apply, Array.getElem?_modify, hx, Keeper.mapDuel]
  | none =>
    have hes : ∀ e ∈ a.edits σ, e.Keeps fun b x => b = k ∧ x = .duel (some d) := by
      intro e he
      refine Edit.keeps_duel fun hk => ?_
      rcases Activity.of_edit_duel he hk with ⟨left, right, parent, rfl, -⟩ | ⟨f, x, o, d', rfl, -⟩
      · exact absurd ha (by simp [Activity.ties?])
      · exact absurd hfires (by simp [Activity.fires?])
    obtain ⟨x', hx', -, rfl⟩ := Edit.keeps_foldl hes hx ⟨rfl, rfl⟩
    exact hx'

theorem Input.step_keeper? (i : Input) (k : BoundaryId) : (i.step σ).1.keeper? k = σ.keeper? k :=
  (i.step_does σ).keeper? k

/-- A duel is as it was tied together. -/
theorem Activity.step_tie (ha : a.ties? k = some d) (h : σ.keeper? k = some (.duel none)) :
    (a.step σ).1.keeper? k = some (.duel (some d)) := by
  obtain ⟨rfl, hd⟩ := Activity.of_ties? ha
  have hx : σ.boundaries.keepers[k]? = some (.duel none) := h
  rw [(Activity.step_does _ σ).keeper?]
  obtain ⟨parent, left, right, settled⟩ := d
  obtain rfl : settled = false := hd
  simp [Activity.edits, Edit.apply, Array.getElem?_modify, hx, Keeper.mapDuel]

/-- Nothing about a duel follows before it is tied together. -/
theorem Activity.not_mem_step_of_duel {a' : Activity} (h : σ.keeper? k = some (.duel none)) {m : Matter}
    (hm : m ∈ a'.carries) (hb : m.boundary? = some k) : a' ∉ (a.step σ).2 := fun ha' => by
  have hmatters : m ∈ a.matters σ := by
    rw [← (a.step_does σ).matters]
    exact List.mem_flatMap.2 ⟨a', ha', hm⟩
  obtain ⟨y, hy, hfinishes⟩ := a.of_matter hmatters hb
  cases hy.symm.trans h
  exact hfinishes

/-- What follows when a duel is told an outcome. -/
theorem Store.endDuel_calls (hd : σ.duel? k = some d) (x : Side) (o : Outcome Value) :
    (σ.endDuel k x o).2 = if d.settled then [] else [d.answer k x o] := by
  simp only [Store.endDuel, hd]
  split
  · rfl
  · cases o <;> cases x <;> rfl

/-- What follows a call, if it is about the duel. -/
theorem Activity.mem_step_of_duel {a' : Activity} (hd : σ.duel? k = some d) (ha' : a' ∈ (a.step σ).2)
    {m : Matter} (hm : m ∈ a'.carries) (hb : m.boundary? = some k) :
    (∃ f x o, a = .notify f (.duel k x) o ∧ d.settled = false ∧ a' = d.answer k x o) ∨
      ∃ e cause r, a = .deliver e (.fail k cause) r ∧
        a' = .complete (.boundary k) (.error (.afterCancel cause r)) := by
  have hmatters : m ∈ a.matters σ := by
    rw [← (a.step_does σ).matters]
    exact List.mem_flatMap.2 ⟨a', ha', hm⟩
  obtain ⟨y, hy, hfinishes⟩ := a.of_matter hmatters hb
  cases hy.symm.trans (Store.duel?_eq_some.1 hd)
  rcases hfinishes with ⟨f, x, o, rfl, hopen, -⟩ | ⟨e, cause, r, rfl, -⟩
  · refine .inl ⟨f, x, o, rfl, hopen, ?_⟩
    have hcalls : a' ∈ (σ.endDuel k x o).2 := ha'
    rw [Store.endDuel_calls hd, if_neg (by rw [hopen]; exact Bool.false_ne_true)] at hcalls
    exact List.mem_singleton.1 hcalls
  · refine .inr ⟨e, cause, r, rfl, ?_⟩
    simp only [Activity.step, Sink.receive, hd] at ha'
    exact List.mem_singleton.1 ha'

end Steps

/-! ## Sessions -/

/-- How the duel was tied together at this moment. -/
def Moment.ties? (k : DuelId) (m : Moment) : Option Duel := m.call.bind (·.ties? k)

/-- The outcome that the duel was told at this moment. -/
def Moment.fires? (k : DuelId) (m : Moment) : Option (Side × Outcome Value) := m.call.bind (·.fires? k)

namespace Session

variable {S : Session} {cs cs₀ : List Choice} {k : DuelId} {f : FiberId}

/-- How the duel was tied together. -/
def ties (k : DuelId) (S : Session) : List Duel := S.past.filterMap (·.ties? k)

/-- The outcomes that the duel was told, the latest first. -/
def fires (k : DuelId) (S : Session) : List (Side × Outcome Value) := S.past.filterMap (·.fires? k)

theorem ties_call (k : DuelId) (a : Activity) (next : Next) (others : List Activity) :
    (S.record (some a) next others).ties k = (a.ties? k).toList ++ S.ties k := by
  cases h : a.ties? k <;> simp [ties, Moment.ties?, h]

theorem fires_call (k : DuelId) (a : Activity) (next : Next) (others : List Activity) :
    (S.record (some a) next others).fires k = (a.fires? k).toList ++ S.fires k := by
  cases h : a.fires? k <;> simp [fires, Moment.fires?, h]

/-- A call that was made was pending before. -/
theorem exists_pending {m : Moment} {a : Activity} (hm : m ∈ (after cs).past) (h : m.call = some a) :
    ∃ x cs₁, x :: cs₁ <:+ cs ∧ a ∈ (after cs₁).calls ∧ m.before = (after cs₁).store := by
  obtain ⟨later, earlier, hpast⟩ := List.append_of_mem hm
  obtain ⟨cs₂, x, cs₁, rfl, -, hmade⟩ := exists_made hpast
  refine ⟨x, cs₁, List.suffix_append _ _, ?_, hmade.before⟩
  rcases hmade.how with ⟨i, -, hnone, -⟩ | ⟨place, a', -, hcalls, hcall, -⟩
  · cases hnone.symm.trans h
  · cases hcall.symm.trans h
    exact List.mem_of_getElem? hcalls

/-- A duel was tied together by a call. -/
theorem mem_ties {d : Duel} : d ∈ S.ties k ↔
    d.settled = false ∧ ∃ m ∈ S.past, m.call = some (.tie d.left d.right d.parent k) := by
  constructor
  · intro hd
    obtain ⟨m, hm, hties⟩ := List.mem_filterMap.1 hd
    obtain ⟨a, hcall, ha⟩ := Option.bind_eq_some_iff.1 hties
    obtain ⟨rfl, hsettled⟩ := a.of_ties? ha
    exact ⟨hsettled, m, hm, hcall⟩
  · rintro ⟨hsettled, m, hm, hcall⟩
    obtain ⟨parent, left, right, settled⟩ := d
    obtain rfl : settled = false := hsettled
    refine List.mem_filterMap.2 ⟨m, hm, ?_⟩
    rw [Moment.ties?, hcall]
    exact if_pos rfl

theorem mem_fires {y : Side × Outcome Value} : y ∈ S.fires k ↔
    ∃ m ∈ S.past, ∃ f, m.call = some (.notify f (.duel k y.1) y.2) := by
  constructor
  · intro hy
    obtain ⟨m, hm, hfires⟩ := List.mem_filterMap.1 hy
    obtain ⟨a, hcall, ha⟩ := Option.bind_eq_some_iff.1 hfires
    obtain ⟨f, rfl⟩ := a.of_fires? ha
    exact ⟨m, hm, f, hcall⟩
  · rintro ⟨m, hm, f, hcall⟩
    refine List.mem_filterMap.2 ⟨m, hm, ?_⟩
    rw [Moment.fires?, hcall]
    exact if_pos rfl

/-! ## Who tells a duel -/

theorem of_uses_listen {a : Activity} {σ : Store} {x : Side}
    (h : a.uses? σ = some (f, .listen (.duel k x))) : a = .listen f (.duel k x) := by
  unfold Activity.uses? at h
  split at h
  · split at h <;> cases h
  · split at h <;> cases h
  · cases h
    rfl
  · cases h
  · cases h
  · obtain ⟨x, -, hx⟩ := Option.map_eq_some_iff.1 h
    cases hx

/-- **A duel is told an outcome only by a fiber to which it listens.** -/
theorem tie_of_notify {x : Side} {o : Outcome Value} (h : (after cs).Comes (.notify f (.duel k x) o)) :
    ∃ d ∈ (after cs).ties k, f = d.fiber x := by
  -- the call is due, so that its listener was registered
  obtain ⟨cs₁, hsuffix, hpending⟩ :
      ∃ cs₁, cs₁ <:+ cs ∧ .notify f (.duel k x) o ∈ (after cs₁).calls := by
    rcases h with h | ⟨m, hm, hcall⟩
    · exact ⟨cs, List.suffix_refl cs, h⟩
    · obtain ⟨x, cs₁, hsuffix, hpending, -⟩ := exists_pending hm hcall
      exact ⟨cs₁, (List.suffix_cons x cs₁).trans hsuffix, hpending⟩
  have hnotice : (Listener.duel k x, o) ∈ Activity.notices f (after cs₁).calls :=
    List.mem_filterMap.2 ⟨_, hpending, if_pos rfl⟩
  have hexchanged := exchanged f cs₁
  have hsound : ((after cs₁).exchange f).Sound := Promise.Exchange.sound _
  have hregistered : Listener.duel k x ∈ ((after cs₁).exchange f).registered :=
    hsound.fates.mem_iff.2 (List.mem_append_left _ (List.mem_append_right _
      (List.mem_map.2 ⟨_, hexchanged.due.mem_iff.2 hnotice, rfl⟩)))
  rw [exchange, Promise.Exchange.registered_after, List.mem_reverse] at hregistered
  -- it was registered by a call that listens
  obtain ⟨u, hu, hlistener⟩ := List.mem_filterMap.1 hregistered
  obtain rfl : u = .listen (.duel k x) := by
    cases u <;> cases hlistener
    rfl
  obtain ⟨m, hm, huse⟩ := List.mem_filterMap.1 hu
  obtain ⟨⟨f', u⟩, huses, haddressed⟩ := Option.bind_eq_some_iff.1 huse
  obtain ⟨a, hcall, ha⟩ := Option.bind_eq_some_iff.1 huses
  dsimp only at haddressed
  split at haddressed
  · rename_i hf
    obtain ⟨rfl, -⟩ := hf
    cases haddressed
    obtain rfl := of_uses_listen ha
    -- and that came from the tie
    obtain ⟨cs₂, place, cs₃, a₀, rfl, hcall₀, hprepared⟩ := exists_prepared (.inr ⟨m, hm, hcall⟩) rfl
    have hpast : ⟨some a₀, (after cs₃).store, a₀.step (after cs₃).store⟩ ∈ (after cs).past := by
      obtain ⟨w, rfl⟩ := (List.suffix_append cs₂ (.call place :: cs₃)).trans hsuffix
      exact (past_suffix _ w).subset (by rw [after, past_call hcall₀]; exact .head _)
    cases a₀ with
    | tie left right parent k' =>
      have hties : ∀ y ∈ [Activity.listen left (.duel k' .left), .listen right (.duel k' .right)],
          y = .listen f' (.duel k x) → ∃ d ∈ (after cs).ties k, f' = d.fiber x := by
        intro y hy heq
        refine ⟨{ parent, left, right }, mem_ties.2 ⟨rfl, _, hpast, ?_⟩, ?_⟩
        · simp only [List.mem_cons, List.not_mem_nil, or_false] at hy
          rcases hy with rfl | rfl <;> cases heq <;> rfl
        · simp only [List.mem_cons, List.not_mem_nil, or_false] at hy
          rcases hy with rfl | rfl <;> cases heq <;> rfl
      exact hties _ hprepared rfl
    | startRight left q on parent k' =>
      cases List.mem_singleton.1 hprepared
    | work s l =>
      unfold Activity.prepared at hprepared
      split at hprepared <;> simp_all
    | _ => exact (List.not_mem_nil hprepared).elim
  · cases haddressed

/-! ## Who opens a duel -/

/-- With the choice of the place, the loop `l₀` opens a duel of `p` and `q`. -/
structure Duels (p q : Prog) (on : Executor) (l₀ : Loop) (place : Nat) (cs₀ : List Choice) : Prop where
  live : (after cs₀).store.isCancelled l₀.link = false
  looks : (after cs₀).calls[place]? = some (.work (.looking (.program (.racePair p q on))) l₀)

/-- The call is what comes of a duel: it follows the first outcome, or the end of the execution that
cancelled a fiber because of that. -/
def Gives (k : DuelId) (a : Activity) (S : Session) : Prop :=
  (∃ d ∈ S.ties k, ∃ y, (S.fires k).getLast? = some y ∧ a = d.answer k y.1 y.2) ∨
    ∃ m ∈ S.past, ∃ e cause r, m.call = some (.deliver e (.fail k cause) r) ∧
      a = .complete (.boundary k) (.error (.afterCancel cause r))

section Duel

variable {p q : Prog} {on : Executor} {l₀ : Loop} {place : Nat} {d : Duel} {a : Activity}

/-- The loop starts the left fiber, and comes to the boundary of the duel next. -/
theorem Duels.opened (h : Duels p q on l₀ place cs₀) : after (.call place :: cs₀) =
    (after cs₀).record (some (.work (.looking (.program (.racePair p q on))) l₀))
      ((((after cs₀).store.newBoundary (.duel none)).1.startFiber p on).1.1,
        [.execute on (.fiber p (after cs₀).store.connections.size (after cs₀).store.fibers.size),
          .startRight (after cs₀).store.fibers.size q on l₀.link (after cs₀).store.boundaries.size,
          .work (.leaving (after cs₀).store.boundaries.size) l₀])
      ((after cs₀).calls.eraseIdx place) := by
  refine (step_call h.looks).trans (congrArg (record _ _ · _) ?_)
  rw [Activity.step, Loop.step_of_not_cancelled h.live]
  have hc : (((after cs₀).store.newBoundary (.duel none)).1.newFiber.1.fibers[(after cs₀).store.fibers.size]?.map
      (·.connection) |>.getD 0) = (after cs₀).store.connections.size := by
    simp [Store.newFiber, Store.newConnection, Store.newBoundary, Store.emit]
  show _ = (_, [Activity.execute on (.fiber p (after cs₀).store.connections.size _), _, _])
  rw [← hc]
  rfl

theorem Duels.keeper (h : Duels p q on l₀ place cs₀) :
    (after (.call place :: cs₀)).store.keeper? (after cs₀).store.boundaries.size = some (.duel none) := by
  rw [h.opened, record_store]
  exact (Store.keeper?_newBoundary _ _).trans (if_pos rfl)

/-- A duel that was tied together was there before. -/
theorem lt_of_ties (hd : d ∈ (after cs).ties k) : ∃ x cs₁, x :: cs₁ <:+ cs ∧
    (after cs₁).store.keeper? k = some (.duel none) := by
  obtain ⟨-, m, hm, hcall⟩ := mem_ties.1 hd
  obtain ⟨x, cs₁, hsuffix, hpending, -⟩ := exists_pending hm hcall
  exact ⟨x, cs₁, hsuffix, duel_of_tie hpending⟩

theorem Duels.ties (h : Duels p q on l₀ place cs₀) :
    (after (.call place :: cs₀)).ties (after cs₀).store.boundaries.size = [] := by
  refine List.eq_nil_iff_forall_not_mem.2 fun d hd => ?_
  obtain ⟨x, cs₁, hsuffix, hkeeper⟩ := lt_of_ties hd
  obtain ⟨w, rfl⟩ : cs₁ <:+ cs₀ := by
    obtain ⟨w, hw⟩ := hsuffix
    exact (List.suffix_cons_iff.1 ⟨w, hw⟩).elim (fun heq => (List.cons.inj heq).2 ▸ List.suffix_refl _)
      ((List.suffix_cons x cs₁).trans ·)
  obtain ⟨y, hy, -⟩ := (after_grows cs₁ w).keeper _ _ hkeeper
  cases Store.keeper?_size.symm.trans hy

/-- A duel that was told an outcome was tied together before. -/
theorem ties_of_fires {y : Side × Outcome Value} (hy : y ∈ (after cs).fires k) :
    ∃ d ∈ (after cs).ties k, (after cs).store.outcome? (d.fiber y.1) = some y.2 := by
  obtain ⟨m, hm, f, hcall⟩ := mem_fires.1 hy
  obtain ⟨d, hd, rfl⟩ := tie_of_notify (.inr ⟨m, hm, hcall⟩)
  refine ⟨d, hd, ?_⟩
  obtain ⟨x, cs₁, ⟨w, rfl⟩, -, hbefore⟩ := exists_pending hm hcall
  have htold := (outcome_classified (d.fiber y.1) (w ++ x :: cs₁)).2.1.1 m hm _ _ hcall
  rw [hbefore] at htold
  have hgrows := after_grows cs₁ (w ++ [x])
  rw [List.append_assoc, List.singleton_append] at hgrows
  exact hgrows.outcome? htold

/-- **A duel is what the outcomes made of it**, once it was tied together. -/
theorem Duels.duel_of_fires (h : Duels p q on l₀ place cs₀) (cs : List Choice) :
    let S := after (cs ++ .call place :: cs₀)
    let k := (after cs₀).store.boundaries.size
    S.ties k = [] ∧ S.store.keeper? k = some (.duel none) ∨
      ∃ d, S.ties k = [d] ∧ S.store.duel? k = some (d.after (S.fires k)) := by
  intro S k
  refine invariant_from (P := fun S => S.ties k = [] ∧ S.store.keeper? k = some (.duel none) ∨
    ∃ d, S.ties k = [d] ∧ S.store.duel? k = some (d.after (S.fires k))) (.inl ⟨h.ties, h.keeper⟩) ?_ ?_ cs
  · intro cs i hold
    have hkeeper := i.step_keeper? (σ := (after (cs ++ .call place :: cs₀)).store) k
    rcases hold with ⟨hties, hnone⟩ | ⟨d, hties, hd⟩
    · exact .inl ⟨hties, hkeeper.trans hnone⟩
    · exact .inr ⟨d, hties, Store.duel?_eq_some.2 (hkeeper.trans (Store.duel?_eq_some.1 hd))⟩
  · intro cs a xs ys hS hold
    have ha : a ∈ (after (cs ++ .call place :: cs₀)).calls := by simp [hS]
    rw [ties_call, fires_call, record_store]
    cases hties' : a.ties? k with
    | some d =>
      obtain ⟨rfl, hopen⟩ := Activity.of_ties? hties'
      have hnone := duel_of_tie ha
      rcases hold with ⟨hties, -⟩ | ⟨d', -, hd'⟩
      · refine .inr ⟨d, by rw [hties]; rfl, ?_⟩
        have hfires : (after (cs ++ .call place :: cs₀)).fires k = [] :=
          List.eq_nil_iff_forall_not_mem.2 fun y hy => by
            obtain ⟨d', hd', -⟩ := ties_of_fires hy
            rw [hties] at hd'
            exact List.not_mem_nil hd'
        rw [hfires, Store.duel?_eq_some, Activity.step_tie hties' hnone]
        obtain ⟨parent, left, right, settled⟩ := d
        obtain rfl : settled = false := hopen
        rfl
      · cases hnone.symm.trans (Store.duel?_eq_some.1 hd')
    | none =>
      have hother : ∀ left right parent, a ≠ .tie left right parent k := by
        rintro left right parent rfl
        simp [Activity.ties?] at hties'
      rcases hold with ⟨hties, hnone⟩ | ⟨d, hties, hd⟩
      · exact .inl ⟨hties, Activity.step_duel_none hother hnone⟩
      · refine .inr ⟨d, hties, ?_⟩
        rw [a.step_duel? hties' hd]
        cases a.fires? k <;> rfl

/-- No call about the boundary of the duel has come before. -/
theorem Duels.not_comes (h : Duels p q on l₀ place cs₀) {m : Matter} (hm : m ∈ a.carries)
    (hb : m.boundary? = some (after cs₀).store.boundaries.size) : ¬(after (.call place :: cs₀)).Comes a := by
  have hold : ¬(after cs₀).Comes a := fun ha => Nat.lt_irrefl _ (ha.lt hm hb)
  rw [h.opened]
  rintro (ha | ⟨m', hm', hcall⟩)
  · simp only [record_calls, List.cons_append, List.nil_append, List.mem_cons] at ha
    rcases ha with rfl | rfl | rfl | ha
    · exact List.not_mem_nil hm
    · cases List.mem_singleton.1 hm
      cases hb
    · exact List.not_mem_nil hm
    · exact hold (.inl (List.mem_of_mem_eraseIdx ha))
  · rcases List.mem_cons.1 hm' with rfl | hm'
    · cases hcall
      exact List.not_mem_nil hm
    · exact hold (.inr ⟨m', hm', hcall⟩)

/-- An execution that ends a duel was begun after the duel had been tied together. -/
theorem Duels.ties_of_fail (h : Duels p q on l₀ place cs₀) {cs : List Choice} {e : ExecutionId}
    {cause : Option Error}
    (hbegan : (after (cs ++ .call place :: cs₀)).Began e (.fail (after cs₀).store.boundaries.size cause)) :
    ∃ d, (after (cs ++ .call place :: cs₀)).ties (after cs₀).store.boundaries.size = [d] ∧
      (after (cs ++ .call place :: cs₀)).store.duel? (after cs₀).store.boundaries.size =
        some (d.after ((after (cs ++ .call place :: cs₀)).fires (after cs₀).store.boundaries.size)) := by
  rcases h.duel_of_fires cs with ⟨-, hnone⟩ | hd
  · have hconcluded := (orderly _).began e _ _ hbegan (.head _)
    rcases hconcluded with ⟨x, hx, hdecided, -⟩ | ⟨br, hbr, -⟩
    · cases hnone.symm.trans hx
      obtain ⟨d, hd, -⟩ := hdecided
      cases hd
    · cases hnone.symm.trans (Store.bracket?_eq_some.1 hbr)
  · exact hd

/-- A call after which something comes of the duel. -/
theorem Duels.gives_of_next (h : Duels p q on l₀ place cs₀) {cs : List Choice} {a₀ : Activity} {m : Matter}
    {others : List Activity} (hm : m ∈ a.carries) (hb : m.boundary? = some (after cs₀).store.boundaries.size)
    (ha : a ∈ (a₀.step (after (cs ++ .call place :: cs₀)).store).2) :
    ((after (cs ++ .call place :: cs₀)).record (some a₀) (a₀.step (after (cs ++ .call place :: cs₀)).store)
      others).Gives (after cs₀).store.boundaries.size a := by
  rcases h.duel_of_fires cs with ⟨-, hnone⟩ | ⟨d, hties, hd⟩
  · exact absurd ha (Activity.not_mem_step_of_duel hnone hm hb)
  rcases Activity.mem_step_of_duel hd ha hm hb with ⟨f, x, o, rfl, hopen, rfl⟩ | ⟨e, cause, r, rfl, rfl⟩
  · refine .inl ⟨d, ?_, (x, o), ?_, ?_⟩
    · rw [ties_call, hties]
      exact List.mem_singleton_self d
    · have hfires : (after (cs ++ .call place :: cs₀)).fires (after cs₀).store.boundaries.size = [] := by
        simpa [Duel.after] using hopen
      rw [fires_call, hfires]
      simp [Activity.fires?]
    · cases o <;> cases x <;> rfl
  · exact .inr ⟨_, .head _, e, cause, r, rfl, rfl⟩

/-- What came of the duel stays. -/
theorem Gives.call {cs : List Choice} (h : (after cs).Gives k a) (a₀ : Activity) (next : Next)
    (others : List Activity) : ((after cs).record (some a₀) next others).Gives k a := by
  rcases h with ⟨d, hd, y, hy, rfl⟩ | ⟨m, hm, hdelivered⟩
  · refine .inl ⟨d, ?_, y, ?_, rfl⟩
    · rw [ties_call]
      exact List.mem_append_right _ hd
    · rw [fires_call, List.getLast?_append, hy]
      rfl
  · exact .inr ⟨m, .tail _ hm, hdelivered⟩

/-- What comes of the duel after a call came before, or follows it. -/
theorem Duels.next_of_gives (h : Duels p q on l₀ place cs₀) {cs : List Choice} {a₀ : Activity}
    {others : List Activity} (ha₀ : a₀ ∈ (after (cs ++ .call place :: cs₀)).calls)
    (hgives : ((after (cs ++ .call place :: cs₀)).record (some a₀)
      (a₀.step (after (cs ++ .call place :: cs₀)).store) others).Gives (after cs₀).store.boundaries.size a) :
    a ∈ (a₀.step (after (cs ++ .call place :: cs₀)).store).2 ∨
      (after (cs ++ .call place :: cs₀)).Gives (after cs₀).store.boundaries.size a := by
  have hduel := h.duel_of_fires cs
  rcases hgives with ⟨d, hd, y, hy, rfl⟩ | ⟨m, hm, e, cause, r, hcall, rfl⟩
  · rw [ties_call] at hd
    rw [fires_call] at hy
    cases hfires : a₀.fires? (after cs₀).store.boundaries.size with
    | none =>
      rw [hfires, Option.toList_none, List.nil_append] at hy
      -- it was told an outcome, so that it was tied together
      obtain ⟨d', hd', -⟩ := ties_of_fires (List.mem_of_getLast? hy)
      rcases hduel with ⟨hties, -⟩ | ⟨d₀, hties, hd₀⟩
      · rw [hties] at hd'
        exact (List.not_mem_nil hd').elim
      · refine .inr (.inl ⟨d, (List.mem_append.1 hd).resolve_left fun hnew => ?_, y, hy, rfl⟩)
        obtain ⟨rfl, -⟩ := Activity.of_ties? (Option.mem_toList.1 hnew)
        cases (duel_of_tie ha₀).symm.trans (Store.duel?_eq_some.1 hd₀)
    | some z =>
      obtain ⟨f, rfl⟩ := Activity.of_fires? hfires
      replace hd : d ∈ (after (cs ++ .call place :: cs₀)).ties (after cs₀).store.boundaries.size := hd
      rcases hduel with ⟨hties, -⟩ | ⟨d₀, hties, hd₀⟩
      · rw [hties] at hd
        exact (List.not_mem_nil hd).elim
      · obtain rfl := List.mem_singleton.1 (hties ▸ hd)
        rw [hfires, Option.toList_some, List.getLast?_append] at hy
        cases hfirst : ((after (cs ++ .call place :: cs₀)).fires (after cs₀).store.boundaries.size).getLast? with
        | some y' =>
          rw [hfirst] at hy
          exact .inr (.inl ⟨d, hd, y', hfirst, by cases hy; rfl⟩)
        | none =>
          rw [List.getLast?_eq_none_iff] at hfirst
          rw [hfirst] at hy hd₀
          cases hy
          refine .inl ?_
          show _ ∈ (Store.endDuel _ _ _ _).2
          rw [Store.endDuel_calls hd₀]
          obtain ⟨x, o⟩ := z
          cases o <;> cases x <;> exact .head _
  · rcases List.mem_cons.1 hm with rfl | hm
    · cases hcall
      left
      have hbegan := (entrusted (cs ++ .call place :: cs₀)).2 _ ha₀
      obtain ⟨d, -, hd⟩ := h.ties_of_fail hbegan
      simp only [Activity.step, Sink.receive, hd]
      exact .head _
    · exact .inr (.inr ⟨m, hm, e, cause, r, hcall, rfl⟩)

/-- **What comes of a duel.** -/
theorem Duels.comes_iff (h : Duels p q on l₀ place cs₀) (cs : List Choice) {m : Matter}
    (hm : m ∈ a.carries) (hb : m.boundary? = some (after cs₀).store.boundaries.size) :
    (after (cs ++ .call place :: cs₀)).Comes a ↔
      (after (cs ++ .call place :: cs₀)).Gives (after cs₀).store.boundaries.size a := by
  induction cs with
  | nil =>
    refine iff_of_false (h.not_comes hm hb) ?_
    rintro (⟨d, hd, -⟩ | ⟨m', hm', e, cause, r, hcall, -⟩)
    · rw [List.nil_append, h.ties] at hd
      exact List.not_mem_nil hd
    · have hbegan : (after ([] ++ .call place :: cs₀)).Began e (.fail _ cause) := (began_of_delivered hm' hcall).1
      obtain ⟨d, hd, -⟩ := h.ties_of_fail hbegan
      rw [List.nil_append, h.ties] at hd
      cases hd
  | cons x cs ih =>
    rw [List.cons_append]
    cases x with
    | input i =>
      refine comes_input.trans ((or_iff_right fun ha => ?_).trans (ih.trans ?_))
      · have hmatters := List.mem_flatMap.2 ⟨a, ha, hm⟩
        rw [(i.step_does _).matters] at hmatters
        exact List.not_mem_nil hmatters
      · -- an input is neither a tie nor an outcome nor the end of an execution
        simp only [Gives, after, step, Session.ties, fires, record_past, List.filterMap_cons, Moment.ties?,
          Moment.fires?, Option.bind_none, List.mem_cons, exists_eq_or_imp, reduceCtorEq, false_and,
          exists_false, false_or]
    | call place' =>
      cases ha₀ : (after (cs ++ .call place :: cs₀)).calls[place']? with
      | none =>
        rw [after]
        simpa only [step, ha₀] using ih
      | some a₀ =>
        rw [after, step_call ha₀, comes_call ha₀]
        constructor
        · rintro (hnew | hold)
          · exact h.gives_of_next hm hb hnew
          · exact (ih.1 hold).call _ _ _
        · intro hgives
          exact (h.next_of_gives (List.mem_of_getElem? ha₀) hgives).imp_right ih.2

end Duel

end Session

end CancelableEffects
