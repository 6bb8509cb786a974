import CancelableEffects.Proofs.Balance
import CancelableEffects.Proofs.Duels
import CancelableEffects.Proofs.Races

/-!
# Contests — the loser of a duel is handed over alive, or cancelled first

* `Session.Duels.fights`: the two fibers of a duel, and what they run.
* **`Session.ended_or_cancels`**: an execution that is begun to cancel a fiber goes on until the fiber has an
  outcome.
* `Session.LoserCancelled`: the other fiber was cancelled because of the first outcome.
* **`Session.tokens_tied`**: who put the token of two fibers on a connection.
* **`Session.loser_handed_over_or_cancelled`**: what comes of a duel is decided by the first outcome.
-/

namespace CancelableEffects

/-- The failure with which a duel ends because of the outcome; `none` within stands for cancellation. -/
def Outcome.cause? : Outcome Value → Option (Option Error)
  | .completed _ => none
  | .errored e => some (some e)
  | .cancelled => some none

/-- What follows the first outcome if that is no value. -/
theorem Duel.answer_of_cause {k : DuelId} {d : Duel} {x : Side} {o : Outcome Value} {cause : Option Error}
    (h : o.cause? = some cause) :
    d.answer k x o = .start (.token (.fiber (d.fiber x.other))) none (.fail k cause) := by
  cases o <;> cases h <;> rfl

/-- An execution is begun to end a duel only if the first outcome is no value. -/
theorem Duel.of_answer {k : DuelId} {d : Duel} {x : Side} {o : Outcome Value} {n : Node} {link : Link}
    {cause : Option Error} (h : .start n link (.fail k cause) = d.answer k x o) :
    n = .token (.fiber (d.fiber x.other)) ∧ link = none ∧ o.cause? = some cause := by
  cases o <;> cases h <;> exact ⟨rfl, rfl, rfl⟩

/-- Who listens to a fiber that has an outcome is told that at once. -/
theorem Activity.step_listen {σ : Store} {f : FiberId} {l : Listener} {o : Outcome Value}
    (h : σ.outcome? f = some o) : ((Activity.listen f l).step σ).2 = [.notify f l o] := by
  obtain ⟨⟨link, promise⟩, hx, hget⟩ := Option.bind_eq_some_iff.1 h
  cases promise with
  | pending ls n => cases hget
  | complete o' =>
    cases hget
    simp [Activity.step, Store.listen, hx, Promise.listen]

namespace Session

variable {S : Session} {cs cs₀ : List Choice} {k : DuelId} {f : FiberId} {c : ConnectionId}

/-! ## The fibers -/

/-- Something that is numbered was made once under a number. -/
theorem made_once {g : Store → Nat} (hmono : ∀ {σ σ' : Store}, σ.Grows σ' → g σ ≤ g σ') {x x' : Choice}
    {cs₁ : List Choice} (h : x :: cs₀ <:+ cs) (h' : x' :: cs₁ <:+ cs)
    (hsame : g (after cs₁).store = g (after cs₀).store)
    (hlt : g (after cs₀).store < g (after (x :: cs₀)).store)
    (hlt' : g (after cs₁).store < g (after (x' :: cs₁)).store) : x' :: cs₁ = x :: cs₀ := by
  have hlater : ∀ {y y' : Choice} {ds ds' : List Choice}, y :: ds <:+ y' :: ds' →
      g (after ds').store = g (after ds).store → g (after ds).store < g (after (y :: ds)).store →
        y' :: ds' = y :: ds := by
    intro y y' ds ds' hsuffix heq hds
    rcases List.suffix_cons_iff.1 hsuffix with hds' | ⟨w, rfl⟩
    · exact hds'.symm
    · have hle := hmono (after_grows (y :: ds) w)
      omega
  rcases List.suffix_or_suffix_of_suffix h h' with hsuffix | hsuffix
  · exact hlater hsuffix hsame hlt
  · exact (hlater hsuffix hsame.symm hlt').symm

section Duel

variable {p q : Prog} {on : Executor} {l₀ : Loop} {place : Nat} {d : Duel} {a : Activity}

theorem Duels.boundaries_lt (h : Duels p q on l₀ place cs₀) :
    (after cs₀).store.boundaries.size < (after (.call place :: cs₀)).store.boundaries.size := by
  obtain ⟨hlt, -⟩ := Array.getElem?_eq_some_iff.1 h.keeper
  rwa [Boundaries.aligned] at hlt

theorem Duels.fibers_lt (h : Duels p q on l₀ place cs₀) :
    (after cs₀).store.fibers.size < (after (.call place :: cs₀)).store.fibers.size := by
  rw [h.opened]
  simp [Store.startFiber, Store.newFiber, Store.newConnection, Store.newBoundary, Store.emit]

/-- Whoever prepares a duel was called by the loop that opened it. -/
theorem exists_duels {left : FiberId} {parent : Link}
    (h : (after cs).Comes (.startRight left q on parent k)) :
    ∃ p l₀ place cs₀, .call place :: cs₀ <:+ cs ∧ Duels p q on l₀ place cs₀ ∧
      k = (after cs₀).store.boundaries.size ∧ left = (after cs₀).store.fibers.size ∧ parent = l₀.link := by
  obtain ⟨cs₂, place, cs₁, a₀, rfl, hcall, hprepared⟩ := exists_prepared h rfl
  unfold Activity.prepared at hprepared
  split at hprepared
  · split at hprepared
    · exact (List.not_mem_nil hprepared).elim
    · rename_i hlive
      cases List.mem_singleton.1 hprepared
      exact ⟨_, _, place, cs₁, List.suffix_append _ _, ⟨Bool.eq_false_iff.2 hlive, hcall⟩, rfl, rfl, rfl⟩
  · cases List.mem_singleton.1 hprepared
  · simp at hprepared
  · exact (List.not_mem_nil hprepared).elim

/-- A duel that was tied together was opened before, and then its right fiber was started. -/
theorem exists_opened (hd : d ∈ (after cs).ties k) : ∃ p q on l₀ place cs₀, .call place :: cs₀ <:+ cs ∧
    Duels p q on l₀ place cs₀ ∧ k = (after cs₀).store.boundaries.size ∧
      d.left = (after cs₀).store.fibers.size ∧ d.parent = l₀.link ∧
        ∃ place' cs₁ on', .call place' :: cs₁ <:+ cs ∧ .call place :: cs₀ <:+ cs₁ ∧
          (after cs₁).calls[place']? = some (.startRight d.left q on' d.parent k) ∧
            d.right = (after cs₁).store.fibers.size := by
  obtain ⟨-, m, hm, hcall⟩ := mem_ties.1 hd
  obtain ⟨parent, left, right, settled⟩ := d
  obtain ⟨cs₂, place, cs₁, a₀, rfl, hcall₀, hprepared⟩ := exists_prepared (.inr ⟨m, hm, hcall⟩) rfl
  have hstart : ∃ q on, a₀ = .startRight left q on parent k ∧ right = (after cs₁).store.fibers.size := by
    unfold Activity.prepared at hprepared
    split at hprepared
    · split at hprepared
      · exact (List.not_mem_nil hprepared).elim
      · cases List.mem_singleton.1 hprepared
    · cases List.mem_singleton.1 hprepared
      exact ⟨_, _, rfl, rfl⟩
    · simp at hprepared
    · exact (List.not_mem_nil hprepared).elim
  obtain ⟨q, on, rfl, hright⟩ := hstart
  obtain ⟨p, l₀, place', cs₀, hsuffix, h, hk, hleft, hparent⟩ :=
    exists_duels (.inl (List.mem_of_getElem? hcall₀))
  exact ⟨p, q, on, l₀, place', cs₀, hsuffix.trans ((List.suffix_cons _ _).trans (List.suffix_append _ _)), h, hk,
    hleft, hparent, place, cs₁, on, List.suffix_append _ _, hsuffix, hcall₀, hright⟩

/-- The fibers of a duel are there. -/
theorem fiber_lt_of_ties (hd : d ∈ (after cs).ties k) (x : Side) :
    d.fiber x < (after cs).store.fibers.size := by
  obtain ⟨p, q, on, l₀, place, cs₀, ⟨w, hw⟩, h, -, hleft, -, place', cs₁, on', ⟨w', hw'⟩, -, hcall, hright⟩ :=
    exists_opened hd
  have hle := (after_grows (.call place :: cs₀) w).fibers_size_le
  have hle' := (after_grows (.call place' :: cs₁) w').fibers_size_le
  rw [hw] at hle
  rw [hw'] at hle'
  cases x with
  | left =>
    exact lt_of_eq_of_lt hleft (Nat.lt_of_lt_of_le h.fibers_lt hle)
  | right =>
    have hlt : (after cs₁).store.fibers.size < (after (.call place' :: cs₁)).store.fibers.size := by
      rw [after, step_call hcall]
      simp [Activity.step, Store.startFiber, Store.newFiber, Store.newConnection, Store.emit]
    exact lt_of_eq_of_lt hright (Nat.lt_of_lt_of_le hlt hle')

/-- Duels with the same left fiber are the same. -/
theorem ties_unique {k' : DuelId} {d' : Duel} (hd : d ∈ (after cs).ties k) (hd' : d' ∈ (after cs).ties k')
    (hleft : d'.left = d.left) : k' = k ∧ d' = d := by
  obtain ⟨p, q, on, l₀, place, cs₀, hsuffix, h, hk, hl, -⟩ := exists_opened hd
  obtain ⟨p', q', on', l₀', place', cs₀', hsuffix', h', hk', hl', -⟩ := exists_opened hd'
  have hsame := made_once (g := fun σ => σ.fibers.size) (fun h => h.fibers_size_le) hsuffix hsuffix'
    (hl'.symm.trans (hleft.trans hl)) h.fibers_lt h'.fibers_lt
  cases hsame
  obtain rfl : k' = k := hk'.trans hk.symm
  subst hk
  obtain ⟨w, rfl⟩ := hsuffix
  refine ⟨rfl, ?_⟩
  rcases h.duel_of_fires w with ⟨hties, -⟩ | ⟨d₀, hties, -⟩
  · rw [hties] at hd
    exact (List.not_mem_nil hd).elim
  · rw [hties, List.mem_singleton] at hd hd'
    exact hd'.trans hd.symm

/-- A fiber that is started is the only one with its program. -/
theorem seat_of_startFiber {x : Choice} {r : Prog}
    (hexecute : ∃ on c, .execute on (.fiber r c f) ∈ (after (x :: cs₀)).calls) {y : Seat}
    (hy : y ∈ (after (cs ++ x :: cs₀)).seats) (hsink : y.sink = .fiber f) : y.node = .program r := by
  obtain ⟨on, c₀, hexecute⟩ := hexecute
  have hseat : (⟨some c₀, .fiber f, .program r⟩ : Seat) ∈ (after (x :: cs₀)).seats :=
    List.mem_append_right _ (List.mem_append_left _ (List.mem_filterMap.2 ⟨_, hexecute, rfl⟩))
  rw [fiber_seat hseat rfl hy hsink]

/-- **The fibers of a duel**: the left one is that with which the duel begins, both are tied to the connection
of the loop that opened the duel, and each runs its program. -/
theorem Duels.fights (h : Duels p q on l₀ place cs₀)
    (hd : d ∈ (after (cs ++ .call place :: cs₀)).ties (after cs₀).store.boundaries.size) :
    d.left = (after cs₀).store.fibers.size ∧ d.parent = l₀.link ∧
      ∀ x, ∀ y ∈ (after (cs ++ .call place :: cs₀)).seats, y.sink = .fiber (d.fiber x) →
        y.node = .program (x.choose p q) := by
  obtain ⟨p', q', on', l₀', place', cs₀', hwhole, h', hk, hleft, hparent, place₁, cs₁, on'', hsuffix, -, hcall,
    hright⟩ := exists_opened hd
  -- the duel was opened once
  have hsame := made_once (g := fun σ => σ.boundaries.size) (fun h => h.boundaries_le)
    (List.suffix_append cs (.call place :: cs₀)) hwhole hk.symm h.boundaries_lt h'.boundaries_lt
  cases hsame
  cases h.looks.symm.trans h'.looks
  refine ⟨hleft, hparent, fun x y hy hsink => ?_⟩
  cases x with
  | left =>
    refine seat_of_startFiber ?_ hy hsink
    rw [show d.fiber .left = _ from hleft, h.opened]
    exact ⟨_, _, .head _⟩
  | right =>
    obtain ⟨w, hw⟩ := hsuffix
    rw [← hw] at hy
    refine seat_of_startFiber ?_ hy hsink
    rw [show d.fiber .right = _ from hright, after, step_call hcall]
    exact ⟨_, _, .head _⟩

end Duel

/-! ## The cancellation of the loser -/

section Cancel

variable {place : Nat} {l₀ : Loop}

/-- **An execution that is begun under no connection and cancels a fiber goes on until the fiber has an
outcome.** -/
theorem ended_or_cancels (hcall : (after cs₀).calls[place]? = some (.work (.looking (.token (.fiber f))) l₀))
    (hunder : l₀.link.under l₀.stack = none) (hf : f < (after cs₀).store.fibers.size) (cs : List Choice) :
    (after (cs ++ .call place :: cs₀)).store.Ended f ∨
      ∃ s l, (after (cs ++ .call place :: cs₀)).Has s l ∧ l.id = l₀.id := by
  have hl₀ : (after cs₀).Has (.looking (.token (.fiber f))) l₀ := .inl (List.mem_of_getElem? hcall)
  have hfree : ∀ ds : List Choice, ∀ {s l}, (after (ds ++ cs₀)).Has s l → l.id = l₀.id →
      (after (ds ++ cs₀)).store.isCancelled l.link = false := by
    intro ds s l hl hid
    have hlink : l.link = none := by
      rcases (fits_of_has hl).link_cases with hnone | hsame
      · exact hnone
      · exact hsame.trans ((under_of_id hl₀ _ hl hid).trans hunder)
    rw [hlink]
    rfl
  induction cs with
  | nil =>
    rcases has_next hl₀ (.call place) with ⟨s, l, hl, hid⟩ | ⟨place', hplace, -, ⟨n, hn, hc⟩ | ⟨r, hr, -⟩⟩
    · exact .inr ⟨s, l, hl, hid⟩
    · cases (hfree [] hl₀ rfl).symm.trans hc
    · cases hr
  | cons x cs ih =>
    rw [List.cons_append]
    rcases ih with hended | ⟨s, l, hl, hid⟩
    · exact .inl (hended.grows (after_grows (cs ++ .call place :: cs₀) [x]))
    rcases has_next hl x with ⟨s', l', hl', hid'⟩ | ⟨place', rfl, hcall', ⟨n, rfl, hc⟩ | ⟨r, rfl, hstack⟩⟩
    · exact .inr ⟨s', l', hl', hid'.trans hid⟩
    · rw [List.append_cons] at hl hc
      cases (hfree _ hl hid).symm.trans hc
    · -- the stack is as it was before only when the fiber has an outcome
      rcases dismissing hcall (hfree [] hl₀ rfl) hf cs _ l hl hid with hended | ⟨above, habove, -⟩
      · exact .inl (hended.grows (after_grows (cs ++ .call place :: cs₀) [.call place']))
      · rw [hstack] at habove
        exact absurd habove.symm (by simp)

/-- A pending call stays pending until it is chosen. -/
theorem pending_or_chosen {a : Activity} (h : a ∈ (after cs₀).calls) (cs : List Choice) :
    a ∈ (after (cs ++ cs₀)).calls ∨ ∃ cs₂ place cs₁, cs = cs₂ ++ .call place :: cs₁ ∧
      (after (cs₁ ++ cs₀)).calls[place]? = some a := by
  induction cs with
  | nil => exact .inl h
  | cons x cs ih =>
    rcases ih with hpending | ⟨cs₂, place, cs₁, rfl, hcall⟩
    · rcases call_next hpending x with hpending | ⟨place, rfl, hcall⟩
      · exact .inl hpending
      · exact .inr ⟨[], place, cs, rfl, hcall⟩
    · exact .inr ⟨x :: cs₂, place, cs₁, rfl, hcall⟩

/-- When an execution that was begun to cancel a fiber has delivered its result, the fiber has an outcome. -/
theorem ended_of_delivered {k : Sink} {m m' : Moment} {r : Result} (hm : m ∈ (after cs).past)
    (hcall : m.call = some (.start (.token (.fiber f)) none k)) (hf : f < m.before.fibers.size)
    (hm' : m' ∈ (after cs).past) (hdelivered : m'.call = some (.deliver m.before.executions k r)) :
    (after cs).store.Ended f := by
  obtain ⟨later, earlier, hpast⟩ := List.append_of_mem hm
  obtain ⟨cs₂, x, cs₁, rfl, -, hmade⟩ := exists_made hpast
  have hgone : ∀ {s l}, (after (cs₂ ++ x :: cs₁)).Has s l → l.id ≠ m.before.executions :=
    not_has_of_delivered hm' hdelivered
  have hlooks : .work (.looking (.token (.fiber f))) ⟨m.before.executions, none, [], k⟩ ∈
      (after (x :: cs₁)).calls := by
    rcases hmade.how with ⟨i, -, hnone, -⟩ | ⟨place, a, rfl, ha, hsome, -⟩
    · cases hnone.symm.trans hcall
    · cases hsome.symm.trans hcall
      rw [after, step_call ha, hmade.before]
      exact .head _
  rcases pending_or_chosen hlooks cs₂ with hpending | ⟨cs₄, place, cs₃, rfl, hcall'⟩
  · exact absurd rfl (hgone (.inl hpending))
  · have hsize : f < (after (cs₃ ++ x :: cs₁)).store.fibers.size := by
      have hgrows := after_grows cs₁ (cs₃ ++ [x])
      rw [List.append_assoc, List.singleton_append] at hgrows
      exact Nat.lt_of_lt_of_le (hmade.before ▸ hf) hgrows.fibers_size_le
    have hor := ended_or_cancels hcall' rfl hsize cs₄
    rw [List.append_assoc, List.cons_append] at hgone ⊢
    refine hor.resolve_right ?_
    rintro ⟨s, l, hl, hid⟩
    exact hgone hl hid

end Cancel

/-- The execution that cancels the other fiber because of the first outcome has ended with the result. -/
def LoserCancelled (k : DuelId) (d : Duel) (x : Side) (cause : Option Error) (r : Result) (S : Session) : Prop :=
  ∃ m ∈ S.past, m.call = some (.start (.token (.fiber (d.fiber x.other))) none (.fail k cause)) ∧
    ∃ m' ∈ S.past, m'.call = some (.deliver m.before.executions (.fail k cause) r)

section Loser

variable {p q : Prog} {on : Executor} {l₀ : Loop} {place : Nat} {d : Duel} {x : Side} {o : Outcome Value}
  {cause : Option Error} {r : Result} {n : Node} {link : Link}

/-- An execution is begun to end a duel only because of the first outcome. -/
theorem Duels.of_fail (h : Duels p q on l₀ place cs₀)
    (hcomes : (after (cs ++ .call place :: cs₀)).Comes (.start n link (.fail (after cs₀).store.boundaries.size cause))) :
    ∃ d ∈ (after (cs ++ .call place :: cs₀)).ties (after cs₀).store.boundaries.size, ∃ x o,
      ((after (cs ++ .call place :: cs₀)).fires (after cs₀).store.boundaries.size).getLast? = some (x, o) ∧
        n = .token (.fiber (d.fiber x.other)) ∧ link = none ∧ o.cause? = some cause := by
  rcases (h.comes_iff cs (.head _) rfl).1 hcomes with ⟨d, hd, ⟨x, o⟩, hfirst, hanswer⟩ | ⟨m, -, e, c, r, -, hother⟩
  · exact ⟨d, hd, x, o, hfirst, Duel.of_answer hanswer⟩
  · cases hother

/-- While an execution is begun to cancel a fiber of a duel, that fiber is there. -/
theorem Duels.fiber_lt (h : Duels p q on l₀ place cs₀) {m : Moment} {f : FiberId}
    (hm : m ∈ (after (cs ++ .call place :: cs₀)).past)
    (hcall : m.call = some (.start (.token (.fiber f)) link (.fail (after cs₀).store.boundaries.size cause))) :
    f < m.before.fibers.size := by
  obtain ⟨x, cs₁, ⟨w, hw⟩, hpending, hbefore⟩ := exists_pending hm hcall
  rw [hbefore]
  -- the call came after the duel had been opened
  obtain ⟨w', rfl⟩ : .call place :: cs₀ <:+ cs₁ := by
    have hsuffix : cs₁ <:+ cs ++ .call place :: cs₀ := ⟨w ++ [x], by rw [← hw]; simp⟩
    rcases List.suffix_or_suffix_of_suffix (List.suffix_append cs _) hsuffix with hle | hle
    · exact hle
    · rcases List.suffix_cons_iff.1 hle with rfl | ⟨w', rfl⟩
      · exact List.suffix_refl _
      · have hlt := Comes.lt (.inl hpending) (.head _) rfl
        exact absurd hlt (Nat.not_lt.2 (after_grows cs₁ w').boundaries_le)
  obtain ⟨d, hd, x, o, -, hn, -⟩ := h.of_fail (.inl hpending)
  cases hn
  exact fiber_lt_of_ties hd x.other

/-- **The loser has an outcome when its cancellation has ended.** -/
theorem Duels.ended_of_cancelled (h : Duels p q on l₀ place cs₀)
    (hcancelled : (after (cs ++ .call place :: cs₀)).LoserCancelled (after cs₀).store.boundaries.size d x cause r) :
    (after (cs ++ .call place :: cs₀)).store.Ended (d.fiber x.other) := by
  obtain ⟨m, hm, hcall, m', hm', hdelivered⟩ := hcancelled
  exact ended_of_delivered hm hcall (h.fiber_lt hm hcall) hm' hdelivered

section First

variable (h : Duels p q on l₀ place cs₀)
  (hties : (after (cs ++ .call place :: cs₀)).ties (after cs₀).store.boundaries.size = [d])
  (hfirst : ((after (cs ++ .call place :: cs₀)).fires (after cs₀).store.boundaries.size).getLast? = some (x, o))

include h hties hfirst

/-- Whoever ends the duel was begun because of the first outcome. -/
theorem Duels.fail_iff :
    (after (cs ++ .call place :: cs₀)).Comes (.start n link (.fail (after cs₀).store.boundaries.size cause)) ↔
      n = .token (.fiber (d.fiber x.other)) ∧ link = none ∧ o.cause? = some cause := by
  constructor
  · intro hcomes
    obtain ⟨d', hd', x', o', hfirst', hstart⟩ := h.of_fail hcomes
    cases hfirst.symm.trans hfirst'
    rw [hties, List.mem_singleton] at hd'
    exact hd' ▸ hstart
  · rintro ⟨rfl, rfl, hcause⟩
    refine (h.comes_iff cs (.head _) rfl).2 (.inl ⟨d, hties ▸ .head _, (x, o), hfirst, ?_⟩)
    exact (Duel.answer_of_cause hcause).symm

/-- **What comes to the boundary of a duel**: the value of the first outcome, with the other fiber, or its
failure, when the cancellation of the other fiber has ended. -/
theorem Duels.completes_iff :
    (after (cs ++ .call place :: cs₀)).Comes (.complete (.boundary (after cs₀).store.boundaries.size) r) ↔
      (∃ v, o = .completed v ∧ r = .ok (x.tag (.pair v (.handle (.fiber (d.fiber x.other)))))) ∨
        ∃ cause r', o.cause? = some cause ∧ r = .error (.afterCancel cause r') ∧
          (after (cs ++ .call place :: cs₀)).LoserCancelled (after cs₀).store.boundaries.size d x cause r' := by
  rw [h.comes_iff cs (.head _) rfl]
  constructor
  · rintro (⟨d', hd', y, hy, hanswer⟩ | ⟨m', hm', e, cause, r', hdelivered, hcompletes⟩)
    · cases hfirst.symm.trans hy
      rw [hties, List.mem_singleton] at hd'
      subst hd'
      cases o with
      | completed v => exact .inl ⟨v, rfl, by cases hanswer; rfl⟩
      | errored e => cases hanswer
      | cancelled => cases hanswer
    · obtain ⟨⟨m, hm, ⟨n, link, hcall⟩, rfl⟩, -⟩ := began_of_delivered hm' hdelivered
      obtain ⟨rfl, rfl, hcause⟩ := (h.fail_iff hties hfirst).1 (.inr ⟨m, hm, hcall⟩)
      cases hcompletes
      exact .inr ⟨cause, r', hcause, rfl, m, hm, hcall, m', hm', hdelivered⟩
  · rintro (⟨v, rfl, rfl⟩ | ⟨cause, r', -, rfl, m, -, -, m', hm', hdelivered⟩)
    · exact .inl ⟨d, hties ▸ .head _, (x, .completed v), hfirst, rfl⟩
    · exact .inr ⟨m', hm', _, cause, r', hdelivered, rfl⟩

end First

end Loser

/-! ## The token of a duel -/

section Token

variable {p q : Prog} {on : Executor} {l₀ : Loop} {place : Nat} {d : Duel}

/-- Only a call that ties a duel together pushes the token of its fibers. -/
theorem of_mem_tokens_fibers {a : Activity} {σ : Store} {left right : FiberId}
    (h : .fibers left right ∈ (a.step σ).1.tokens c) :
    .fibers left right ∈ σ.tokens c ∨ ∃ k, a = .tie left right (some c) k := by
  obtain hold | hpush := (a.step_operates σ).mem_tokens h
  · exact .inl hold
  obtain ⟨n, l, -, -, hn⟩ | ⟨left', right', k, rfl, ht⟩ | ⟨-, ht⟩ := Activity.of_operation_push hpush
  · -- a loop that opens a boundary pushes the token of that
    cases n with
    | program p => cases p <;> simp [Node.operation, Prog.operation] at hn
    | token t => cases t <;> simp [Node.operation] at hn
    | _ => simp [Node.operation] at hn
  · cases ht
    exact .inr ⟨k, rfl⟩
  · exact ht.elim

/-- **The token of two fibers was put on a connection by the call that tied them together there.** -/
theorem tokens_tied (cs : List Choice) : ∀ c left right, .fibers left right ∈ (after cs).store.tokens c →
    ∃ k, { parent := some c, left, right : Duel } ∈ (after cs).ties k := by
  refine invariant (P := fun S => ∀ c left right, .fibers left right ∈ S.store.tokens c →
    ∃ k, { parent := some c, left, right : Duel } ∈ S.ties k) (fun _ _ _ => nofun) ?_ ?_ cs
  · intro cs i ih c left right hmem
    exact ih c left right (((i.step_operates _).mem_tokens hmem).resolve_right
      fun hpush => (Input.of_operation hpush).2 _ rfl)
  · intro cs a xs ys hS ih c left right hmem
    rcases of_mem_tokens_fibers hmem with hold | ⟨k, rfl⟩
    · obtain ⟨k, hk⟩ := ih c left right hold
      refine ⟨k, ?_⟩
      rw [ties_call]
      exact List.mem_append_right _ hk
    · refine ⟨k, ?_⟩
      rw [ties_call, Activity.ties?, if_pos rfl]
      exact .head _

/-- A duel is tied together once. -/
theorem tied_of_ties (hd : d ∈ (after cs).ties k) : ∃ d', (after cs).store.duel? k = some d' := by
  obtain ⟨p, q, on, l₀, place, cs₀, ⟨w, rfl⟩, h, rfl, -⟩ := exists_opened hd
  rcases h.duel_of_fires w with ⟨hties, -⟩ | ⟨d₀, -, hd₀⟩
  · rw [hties] at hd
    exact (List.not_mem_nil hd).elim
  · exact ⟨_, hd₀⟩

theorem ties_of_later (hd : d ∈ (after cs₀).ties k) (cs : List Choice) : d ∈ (after (cs ++ cs₀)).ties k := by
  obtain ⟨hopen, m, hm, hcall⟩ := mem_ties.1 hd
  exact mem_ties.2 ⟨hopen, m, (past_suffix cs₀ cs).subset hm, hcall⟩

/-- A token of a duel that is on no connection any more never comes back. -/
theorem not_mem_tokens_of_later (hd : d ∈ (after cs₀).ties k)
    (hgone : ∀ c, .fibers d.left d.right ∉ (after cs₀).store.tokens c) (cs : List Choice) :
    ∀ c, .fibers d.left d.right ∉ (after (cs ++ cs₀)).store.tokens c := by
  refine invariant_from (P := fun S => ∀ c, .fibers d.left d.right ∉ S.store.tokens c) hgone ?_ ?_ cs
  · intro cs i ih c hmem
    exact ih c (((i.step_operates _).mem_tokens hmem).resolve_right
      fun hpush => (Input.of_operation hpush).2 _ rfl)
  · intro cs a xs ys hS ih c hmem
    rcases of_mem_tokens_fibers hmem with hold | ⟨k', rfl⟩
    · exact ih c hold
    · -- a duel with the same fibers is the same, and that is not tied together again
      have hpending : .tie d.left d.right (some c) k' ∈ (after (cs ++ cs₀)).calls := by
        rw [hS]
        exact List.mem_append_right _ (.head _)
      obtain ⟨place, hcall⟩ := List.mem_iff_getElem?.1 hpending
      have hnew : { parent := some c, left := d.left, right := d.right : Duel } ∈
          (after (.call place :: (cs ++ cs₀))).ties k' := by
        rw [after, step_call hcall, ties_call, Activity.ties?, if_pos rfl]
        exact .head _
      obtain ⟨rfl, -⟩ := ties_unique (ties_of_later hd (.call place :: cs)) hnew rfl
      obtain ⟨d', hd'⟩ := tied_of_ties (ties_of_later hd cs)
      cases (duel_of_tie hpending).symm.trans (Store.duel?_eq_some.1 hd')

/-- A frame keeps no token of a duel. -/
theorem fibers_notMem_kept {σ : Store} {fs : List Frame} {left right : FiberId} :
    .fibers left right ∉ fs.flatMap (Frame.kept c σ) := fun hmem => by
  obtain ⟨f, -, hf⟩ := List.mem_flatMap.1 hmem
  cases f <;> simp only [Frame.kept, List.not_mem_nil] at hf
  all_goals split at hf <;> simp at hf

/-- With the choice of the place, the duel is told its first outcome. -/
def Decides (k : DuelId) (place : Nat) (cs : List Choice) : Prop :=
  (after cs).fires k = [] ∧ ∃ f x o, (after cs).calls[place]? = some (.notify f (.duel k x) o)

/-- **The first outcome takes the token of the duel from the connection of the loop that opened it**, so that
it is on no connection any more, if that has not been cancelled, and no code has used it. -/
theorem Duels.not_mem_tokens (h : Duels p q on l₀ place cs₀) {place' : Nat}
    (hdecides : Decides (after cs₀).store.boundaries.size place' (cs ++ .call place :: cs₀))
    (hcaller : ∀ c, l₀.link = some c → Undisturbed c (cs ++ .call place :: cs₀) ∧
      (after (cs ++ .call place :: cs₀)).store.isCancelled (some c) = false) :
    ∃ d ∈ (after (cs ++ .call place :: cs₀)).ties (after cs₀).store.boundaries.size,
      ∀ c, .fibers d.left d.right ∉ (after (.call place' :: (cs ++ .call place :: cs₀))).store.tokens c := by
  obtain ⟨hnone, f, x, o, hcall⟩ := hdecides
  have hpending := List.mem_of_getElem? hcall
  obtain ⟨d, hd, rfl⟩ := tie_of_notify (.inl hpending)
  refine ⟨d, hd, fun c hmem => ?_⟩
  have hduel : (after (cs ++ .call place :: cs₀)).store.duel? (after cs₀).store.boundaries.size =
      some (d.after []) := by
    rcases h.duel_of_fires cs with ⟨hties, -⟩ | ⟨d₀, hties, hd₀⟩
    · rw [hties] at hd
      exact (List.not_mem_nil hd).elim
    · rw [hties, List.mem_singleton] at hd
      rw [hd, ← hnone]
      exact hd₀
  rw [after, step_call hcall] at hmem
  -- if the token were there, it would have been pushed there by this duel
  have hbefore : .fibers d.left d.right ∈ (after (cs ++ .call place :: cs₀)).store.tokens c :=
    (of_mem_tokens_fibers hmem).resolve_right (by rintro ⟨_, htie⟩; cases htie)
  obtain ⟨k', hk'⟩ := tokens_tied _ _ _ _ hbefore
  have hparent : d.parent = some c := (congrArg Duel.parent (ties_unique hd hk' rfl).2).symm
  obtain ⟨-, hlink, -⟩ := h.fights hd
  obtain ⟨hundisturbed, hactive⟩ := hcaller c (hlink.symm.trans hparent)
  have hbalanced := balanced _ hundisturbed hactive
  -- the token is on top, and below it are only those of brackets
  obtain ⟨ts, hbefore, hafter⟩ := hbalanced.withdraws (t := .fibers d.left d.right) hpending (by
    simp [Activity.withdrawal, hduel, Duel.after, hparent])
  have howes : (after (cs ++ .call place :: cs₀)).store.owes c (after cs₀).store.boundaries.size =
      some (.fibers d.left d.right) := by
    rw [Store.owes_of_duel hduel rfl]
    exact if_pos hparent
  obtain ⟨l, hl, hlinked⟩ := hbalanced.waits _ (.owes _ howes)
  have hholds := hbalanced.held _ l hl (under_of_link hl hlinked)
  rw [hbefore, holds, pending, owed_of_owes howes, List.singleton_append] at hholds
  rw [record_store, hafter, (List.cons.inj hholds).2] at hmem
  exact fibers_notMem_kept hmem

end Token

/-! ## What comes of a duel -/

section Contest

variable {p q : Prog} {on : Executor} {l₀ : Loop} {place : Nat}

theorem Duels.registering (h : Duels p q on l₀ place cs₀) :
    (after (.call place :: cs₀)).store.boundary? (after cs₀).store.boundaries.size = some .registering := by
  rw [h.opened]
  exact Array.getElem?_push_size

theorem Duels.leaving (h : Duels p q on l₀ place cs₀) :
    .work (.leaving (after cs₀).store.boundaries.size) l₀ ∈ (after (.call place :: cs₀)).calls := by
  rw [h.opened]
  simp

/-- **The loser of a duel is handed over alive, or cancelled first.** Take any duel of `p` and `q`, and anything
that happens afterwards.
* The duel is tied together at most once; then it listens to the left fiber, and after that to the right one,
  and to which it listens when that has an outcome already, that one tells it at once.
* As long as the duel was told no outcome, nothing comes to its boundary.
* The first outcome that it was told is that of the fiber of its side, which runs `p` or `q`.
* If that is a value, it comes to the boundary together with the other fiber, and nothing else does; and the
  duel begins no execution that cancels a fiber.
* If it is a failure or a cancellation, the boundary is completed only after an execution has ended that cancels
  the other fiber, which has an outcome by then, with the failure, to which one of that execution is added, or
  with cancellation.
* If until the first outcome the caller was not cancelled, and no code that was given its connection has used
  it, the token with which the cancellation of the caller reaches both fibers is on no connection any more.
* The loop goes on from the boundary at most once, with a result that came there. -/
theorem loser_handed_over_or_cancelled
    (hcall : (after cs₀).calls[place]? = some (.work (.looking (.program (.racePair p q on))) l₀))
    (hlive : (after cs₀).store.isCancelled l₀.link = false) (cs : List Choice) :
    let k := (after cs₀).store.boundaries.size
    let S := after (cs ++ .call place :: cs₀)
    ((S.ties k).length ≤ 1 ∧
      (∀ m ∈ S.past, ∀ left right parent, m.call = some (.tie left right parent k) →
        ∃ others, m.next.2 = others ++ [.listen left (.duel k .left), .listen right (.duel k .right)]) ∧
      ∀ m ∈ S.past, ∀ f x o, m.call = some (.listen f (.duel k x)) → m.before.outcome? f = some o →
        m.next.2 = [.notify f (.duel k x) o]) ∧
    (S.fires k = [] → ∀ r, ¬S.Comes (.complete (.boundary k) r)) ∧
    (∀ x o, (S.fires k).getLast? = some (x, o) → ∃ d, S.ties k = [d] ∧
      (∀ side, ∀ y ∈ S.seats, y.sink = .fiber (d.fiber side) → y.node = .program (side.choose p q)) ∧
      S.store.outcome? (d.fiber x) = some o ∧
      (∀ v, o = .completed v →
        (∀ r, S.Comes (.complete (.boundary k) r) ↔
          r = .ok (x.tag (.pair v (.handle (.fiber (d.fiber x.other)))))) ∧
        ∀ n link cause, ¬S.Comes (.start n link (.fail k cause))) ∧
      (∀ cause, o.cause? = some cause →
        (∀ r, S.Comes (.complete (.boundary k) r) ↔
          ∃ r', S.LoserCancelled k d x cause r' ∧ r = .error (.afterCancel cause r')) ∧
        ∀ r', S.LoserCancelled k d x cause r' → S.store.Ended (d.fiber x.other)) ∧
      ∀ place' cs₁ cs₂, cs = cs₂ ++ .call place' :: cs₁ → Decides k place' (cs₁ ++ .call place :: cs₀) →
        (∀ c, l₀.link = some c → Undisturbed c (cs₁ ++ .call place :: cs₀) ∧
          (after (cs₁ ++ .call place :: cs₀)).store.isCancelled (some c) = false) →
        ∀ c, .fibers d.left d.right ∉ S.store.tokens c) ∧
    (S.resumptions k).length ≤ 1 ∧
    ∀ r l, (r, l) ∈ S.resumptions k → l = l₀ ∧ S.Comes (.complete (.boundary k) r) := by
  have h : Duels p q on l₀ place cs₀ := ⟨hlive, hcall⟩
  have hstep : ∀ {m a}, m ∈ (after (cs ++ .call place :: cs₀)).past → m.call = some a →
      m.next = a.step m.before := fun hm hmcall => by
    obtain ⟨later, earlier, hpast⟩ := List.append_of_mem hm
    obtain ⟨cs', -, -, ⟨i, hi, -⟩ | ⟨a, -, hsome, hnext⟩⟩ := exists_of_past hpast
    · cases hi.symm.trans hmcall
    · cases hsome.symm.trans hmcall
      exact hnext
  refine ⟨⟨?_, fun m hm left right parent htie => ?_, fun m hm f x o hlisten houtcome => ?_⟩, fun hnone r hr => ?_,
    fun x o hfirst => ?_, length_resumptions_le_one _ _, fun r l hl => ?_⟩
  · rcases h.duel_of_fires cs with ⟨hties, -⟩ | ⟨d, hties, -⟩ <;> simp [hties]
  · rw [hstep hm htie]
    exact ⟨_, rfl⟩
  · rw [hstep hm hlisten]
    exact Activity.step_listen houtcome
  · rcases (h.comes_iff cs (.head _) rfl).1 hr with ⟨d, -, y, hy, -⟩ | ⟨m, hm, e, cause, r', hdelivered, -⟩
    · rw [hnone] at hy
      cases hy
    · obtain ⟨⟨m', hm', ⟨n, link, hstart⟩, -⟩, -⟩ := began_of_delivered hm hdelivered
      obtain ⟨d, -, x, o, hfirst, -⟩ := h.of_fail (.inr ⟨m', hm', hstart⟩)
      rw [hnone] at hfirst
      cases hfirst
  · obtain ⟨d', hd', houtcome⟩ := ties_of_fires (List.mem_of_getLast? hfirst)
    obtain ⟨d, hties⟩ : ∃ d, (after (cs ++ .call place :: cs₀)).ties (after cs₀).store.boundaries.size = [d] := by
      rcases h.duel_of_fires cs with ⟨hties, -⟩ | ⟨d, hties, -⟩
      · rw [hties] at hd'
        exact (List.not_mem_nil hd').elim
      · exact ⟨d, hties⟩
    obtain rfl : d' = d := List.mem_singleton.1 (hties ▸ hd')
    refine ⟨d', hties, (h.fights hd').2.2, houtcome, fun v hv => ⟨fun r => ?_, fun n link cause hstart => ?_⟩,
      fun cause hcause => ⟨fun r => ?_, fun r' => h.ended_of_cancelled⟩, fun place' cs₁ cs₂ hcs hdecides hcaller => ?_⟩
    · subst hv
      simp [h.completes_iff hties hfirst, Outcome.cause?]
    · subst hv
      cases ((h.fail_iff hties hfirst).1 hstart).2.2
    · rw [h.completes_iff hties hfirst]
      constructor
      · rintro (⟨v, rfl, -⟩ | ⟨cause', r', hcause', rfl, hcancelled⟩)
        · cases hcause
        · cases hcause.symm.trans hcause'
          exact ⟨r', hcancelled, rfl⟩
      · rintro ⟨r', hcancelled, rfl⟩
        exact .inr ⟨cause, r', hcause, rfl, hcancelled⟩
    · subst hcs
      obtain ⟨d, hd, hgone⟩ := h.not_mem_tokens hdecides hcaller
      have hlater := ties_of_later hd (cs₂ ++ [.call place'])
      rw [List.append_assoc, List.singleton_append, ← List.cons_append, ← List.append_assoc] at hlater
      rw [hties, List.mem_singleton] at hlater
      subst hlater
      have hlater := not_mem_tokens_of_later (ties_of_later hd [.call place']) hgone cs₂
      rw [List.append_assoc]
      exact hlater
  · obtain ⟨hl, hr⟩ := resumed_of_registering h.registering h.leaving hl
    exact ⟨hl, comes_complete.2 (.inr hr)⟩

end Contest

/-- A program that waits for a callback which nobody calls. -/
def waitsForever : Prog := .cancelable fun _ => .ret .unit

/-- A run opens a duel of a value and a program that waits. -/
def opensDuel : List Choice := [.call 0, .input (.run (.racePair (.pure (.int 1)) waitsForever (.queue "tasks")) none true)]

/-- Both fibers are started, and the left one ends. -/
def leftEnds : List Choice :=
  List.replicate 32 (.call 0) ++ .input (.tick "tasks" 0) :: (List.replicate 12 (.call 0) ++
    .input (.tick "tasks" 1) :: List.replicate 7 (.call 0))

set_option maxRecDepth 1024 in
/-- The value of the left side is handed over with the fiber of the right one, which is still at work. -/
theorem left_value_hands_over_right :
    (after opensDuel).calls[0]? = some (.work (.looking (.program
        (.racePair (.pure (.int 1)) waitsForever (.queue "tasks")))) ⟨0, some 0, [], .observer 0⟩) ∧
      (after opensDuel).store.isCancelled (some 0) = false ∧
      (after (leftEnds ++ .call 0 :: opensDuel)).fires 0 = [(.left, .completed (.int 1))] ∧
      (after (leftEnds ++ .call 0 :: opensDuel)).store.outcome? 1 = none ∧
      ∃ d, (after (leftEnds ++ .call 0 :: opensDuel)).ties 0 = [d] ∧
        ∀ r, (after (leftEnds ++ .call 0 :: opensDuel)).Comes (.complete (.boundary 0) r) ↔
          r = .ok (.left (.pair (.int 1) (.handle (.fiber d.right)))) := by
  have hcall : (after opensDuel).calls[0]? = some (.work (.looking (.program
    (.racePair (.pure (.int 1)) waitsForever (.queue "tasks")))) ⟨0, some 0, [], .observer 0⟩) := rfl
  have hfires : (after (leftEnds ++ .call 0 :: opensDuel)).fires 0 = [(.left, .completed (.int 1))] := rfl
  obtain ⟨-, -, hfirst, -⟩ := loser_handed_over_or_cancelled hcall rfl leftEnds
  obtain ⟨d, hties, -, -, hvalue, -⟩ := hfirst .left (.completed (.int 1)) (congrArg List.getLast? hfires)
  exact ⟨hcall, rfl, hfires, rfl, d, hties, (hvalue _ rfl).1⟩

/-- A program that shares its connection, opens a duel, and waits when that is over. -/
def sharesConnection : Prog :=
  .bind (.connected fun link c =>
      .write ⟨.connection, "mine"⟩ (some (.handle (.connection link))) (.answer c (.ok .unit) (.ret ())))
    fun _ => .ret (.bind (.racePair (.pure (.int 1)) waitsForever (.queue "tasks")) fun _ => .ret waitsForever)

/-- Both fibers are started, somebody pushes a token to the shared connection, and the left fiber ends. -/
def pushedMeanwhile : List Choice :=
  List.replicate 14 (.call 0) ++ .input (.tick "tasks" 0) :: (List.replicate 8 (.call 0) ++
    .input (.tick "tasks" 1) :: .input (.move (.push (some 0) .unit (.ret ()))) :: (List.replicate 21 (.call 0) ++
      [.input (.run sharesConnection none true)]))

/-- The run is cancelled when the duel is over. -/
def cancelledAfterwards : List Choice :=
  List.replicate 50 (.call 0) ++ .input (.run (.cancel (some 0)) none false) :: pushedMeanwhile

set_option maxRecDepth 1024 in
/-- **The end of a duel drops the newest token of the connection**, whoever pushed it: when that was somebody else
meanwhile, the token of the duel stays there, and so cancelling the run afterwards reaches the fiber that was handed
over. -/
theorem handed_over_and_reached :
    (after pushedMeanwhile).calls = [] ∧ (after pushedMeanwhile).store.isCancelled (some 0) = false ∧
      ((after pushedMeanwhile).resumptions 1).map Prod.fst =
        [.ok (.left (.pair (.int 1) (.handle (.fiber 1))))] ∧
      (after pushedMeanwhile).store.outcome? 1 = none ∧
      (.fibers 0 1 : Token) ∈ (after pushedMeanwhile).store.tokens 0 ∧
      (after cancelledAfterwards).store.outcome? 1 = some .cancelled :=
  ⟨rfl, rfl, rfl, rfl, .tail _ (.head _), rfl⟩

end Session

end CancelableEffects
