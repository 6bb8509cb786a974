import CancelableEffects.Proofs.Pairs
import CancelableEffects.Proofs.Runs

/-!
# Races — the first side that ends decides, when the other one was cancelled

* `Session.cancelled_or_looks`: an execution that is begun to cancel a connection does so first.
* **`Session.Forks.settler_unique`**: at most one execution is begun to settle a fork.
* `Session.cancellers`, `Session.OnlyForkCancels`: nobody but the fork has cancelled a side.
* **`Session.Forks.finished_of_cancelled`**: then all tokens of the side are over when that has ended.
* **`Session.race_settles_once`**: what comes of a race is decided by the side that ends first.
-/

namespace CancelableEffects

/-- The call begins an execution that settles the fork. -/
def Activity.settles (k : ForkId) : Activity → Bool
  | .start _ _ (.settle k' _) => k' == k
  | _ => false

/-- A fork that waits for the first end is decided by it. -/
theorem ForkKind.decider?_first (ends : List (Side × Result)) :
    ForkKind.first.decider? ends = ends.getLast? := by
  rw [decider?, ← List.head?_reverse]
  cases ends.reverse <;> rfl

theorem Fork.length_answer_le_one (k : ForkId) (f : Fork) (x : Side) (r : Result) :
    (f.answer k x r).length ≤ 1 := by
  unfold answer
  repeat' split
  all_goals simp

theorem Activity.of_settles {k : ForkId} {a : Activity} (h : a.settles k = true) :
    ∃ n link r, a = .start n link (.settle k r) := by
  unfold Activity.settles at h
  split at h
  · obtain rfl := eq_of_beq h
    exact ⟨_, _, _, rfl⟩
  · cases h

/-- An execution that settles the fork was begun at this moment. -/
def Moment.settles (k : ForkId) (m : Moment) : Bool := m.call.any (·.settles k)

/-- For whom the connection is cancelled at this moment, or found cancelled. -/
def Moment.canceller? (c : ConnectionId) (m : Moment) : Option Sink :=
  match m.call with
  | some (.work (.looking (.token (.connection (some c')))) l) => if c' = c then some l.sink else none
  | _ => none

namespace Session

/-- How many executions were begun, or are about to begin, that settle the fork. -/
def settling (k : ForkId) (S : Session) : Nat :=
  S.calls.countP (Activity.settles k) + S.past.countP (Moment.settles k)

/-- For whom the connection was cancelled so far, or found cancelled, the latest first. -/
def cancellers (c : ConnectionId) (S : Session) : List Sink := S.past.filterMap (·.canceller? c)

/-- Nobody but the fork has come to cancel the connection of one of its sides. -/
def OnlyForkCancels (k : ForkId) (c : ConnectionId) (S : Session) : Prop :=
  ∀ x ∈ S.cancellers c, ∃ r, x = .settle k r

/-! ## An execution that is begun to cancel a connection -/

section Canceller

variable {cs₀ : List Choice} {place : Nat} {c : ConnectionId} {k : Sink}

/-- **An execution that is begun to cancel a connection does so first**: the connection is cancelled,
or the execution is still about to do it. -/
theorem cancelled_or_looks
    (hcall : (after cs₀).calls[place]? = some (.start (.token (.connection (some c))) none k))
    (hc : c < (after cs₀).store.connections.size) (cs : List Choice) :
    (after (cs ++ .call place :: cs₀)).store.isCancelled (some c) = true ∨
      .work (.looking (.token (.connection (some c)))) ⟨(after cs₀).store.executions, none, [], k⟩ ∈
        (after (cs ++ .call place :: cs₀)).calls := by
  induction cs with
  | nil =>
    right
    show _ ∈ ((after cs₀).step (.call place)).calls
    rw [step_call hcall]
    exact .head _
  | cons x cs ih =>
    rw [List.cons_append]
    rcases ih with hcancelled | hlooks
    · exact .inl ((after_grows (cs ++ .call place :: cs₀) [x]).cancelled _ hcancelled)
    rcases made_or (cs ++ .call place :: cs₀) x with hsame | ⟨m, hm⟩
    · rw [hsame]
      exact .inr hlooks
    by_cases hown : m.call = some (.work (.looking (.token (.connection (some c))))
        ⟨(after cs₀).store.executions, none, [], k⟩)
    · -- the execution takes its first step
      left
      have hlt : c < (after (cs ++ .call place :: cs₀)).store.connections.size := by
        have hle := connections_le cs₀ (cs ++ [.call place])
        rw [List.append_assoc, List.singleton_append] at hle
        exact Nat.lt_of_lt_of_le hc hle
      rcases hm.how with ⟨i, -, hnone, -⟩ | ⟨place', a, -, -, hsome, hnext⟩
      · cases hnone.symm.trans hown
      · cases hsome.symm.trans hown
        rw [hm.store, hnext, hm.before]
        show ((Activity.work _ _).step _).1.isCancelled _ = true
        rw [Activity.step, Loop.step_of_not_cancelled rfl, Turn.on, Node.step_cancel_store]
        exact Store.isCancelled_cancel hlt
    · exact .inr (hm.mem_of_other hlooks hown)

/-- An execution that has delivered its result is at work nowhere. -/
theorem not_has_of_delivered {cs : List Choice} {m : Moment} (hm : m ∈ (after cs).past) {e : ExecutionId}
    {r : Result} (hcall : m.call = some (.deliver e k r)) {s : Stage} {l : Loop} (hl : (after cs).Has s l) :
    l.id ≠ e := by
  rintro rfl
  have hheld := held_of_has hl
  have hledger := ledger l.id cs
  have hdelivered : 0 < (after cs).delivered l.id :=
    List.countP_pos_iff.2 ⟨m, hm, by rw [Moment.delivers, hcall]; simp⟩
  unfold holders at hledger
  split at hledger <;> omega

end Canceller

/-! ## Who settles a fork -/

open Connection.Operation

section Fork

variable {kind : ForkKind} {p q : Prog} {on : Executor} {fs : List Frame} {l₀ : Loop} {place : Nat}
  {cs₀ cs : List Choice} {S : Session} {k : ForkId} {next : Next}

theorem settling_call {a : Activity} {place : Nat} (ha : S.calls[place]? = some a) :
    (S.record (some a) next (S.calls.eraseIdx place)).settling k =
      next.2.countP (Activity.settles k) + S.settling k := by
  obtain ⟨hlt, rfl⟩ := List.getElem?_eq_some_iff.1 ha
  have hperm := (List.getElem_cons_eraseIdx_perm hlt).countP_eq (Activity.settles k)
  rw [List.countP_cons] at hperm
  rw [settling, settling, record_calls, record_past, List.countP_append, List.countP_cons, ← hperm]
  show _ + _ + (_ + if Activity.settles k S.calls[place] = true then 1 else 0) = _
  omega

theorem settling_input : (S.record none next S.calls).settling k =
    next.2.countP (Activity.settles k) + S.settling k := by
  simp [settling, Moment.settles, Nat.add_assoc]

/-- As long as nobody comes to settle the fork, none is counted. -/
theorem settling_eq_zero (h : ∀ n link r, ¬S.Comes (.start n link (.settle k r))) : S.settling k = 0 := by
  refine Nat.add_eq_zero_iff.2 ⟨List.countP_eq_zero.2 fun a ha hk => ?_,
    List.countP_eq_zero.2 fun m hm hk => ?_⟩
  · obtain ⟨n, link, r, rfl⟩ := Activity.of_settles hk
    exact h n link r (.inl ha)
  · obtain ⟨a, hcall, hk⟩ := (Option.any_eq_true ..).1 hk
    obtain ⟨n, link, r, rfl⟩ := Activity.of_settles hk
    exact h n link r (.inr ⟨m, hm, hcall⟩)

/-- **At most one execution is begun to settle a fork.** -/
theorem Forks.settling_le_one (h : Forks kind p q on fs l₀ place cs₀) (cs : List Choice) :
    (after (cs ++ .call place :: cs₀)).settling (after cs₀).store.boundaries.size ≤ 1 := by
  induction cs with
  | nil =>
    refine le_of_eq_of_le (settling_eq_zero fun n link r ha => h.not_comes (.head _) rfl ha) (Nat.zero_le 1)
  | cons x cs ih =>
    rw [List.cons_append]
    cases x with
    | input i =>
      show ((after (cs ++ .call place :: cs₀)).record none _ _).settling _ ≤ 1
      rw [settling_input, List.countP_eq_zero.2, Nat.zero_add]
      · exact ih
      · intro a ha hk
        obtain ⟨n, link, r, rfl⟩ := Activity.of_settles hk
        have hmatters := List.mem_flatMap.2 ⟨_, ha, show _ ∈ Activity.carries _ from .head _⟩
        rw [(i.step_does _).matters] at hmatters
        exact List.not_mem_nil hmatters
    | call place' =>
      rw [after]
      cases ha : (after (cs ++ .call place :: cs₀)).calls[place']? with
      | none => simpa only [step, ha] using ih
      | some a =>
        rw [step_call ha, settling_call ha]
        by_cases hnone : (a.step (after (cs ++ .call place :: cs₀)).store).2.countP
            (Activity.settles (after cs₀).store.boundaries.size) = 0
        · omega
        -- the call is the first end that decides
        obtain ⟨a', ha', hk⟩ := List.countP_pos_iff.1 (Nat.pos_of_ne_zero hnone)
        obtain ⟨n, link, r, rfl⟩ := Activity.of_settles hk
        have hfork := h.fork_of_ends cs
        rcases mem_step_of_fork hfork ha' (.head _) rfl with ⟨e, x, r', rfl, hanswer⟩ | ⟨e, x, r', -, heq⟩
        · have hnodup := h.ends_nodup (.call place' :: cs)
          rw [List.cons_append, after, step_call ha, ends_call, Activity.end?, if_pos rfl] at hnodup
          have hzero : (after (cs ++ .call place :: cs₀)).settling (after cs₀).store.boundaries.size = 0 := by
            refine settling_eq_zero fun n link r hcomes => ?_
            obtain ⟨y, hy, -⟩ := ((h.forked cs).settlers n link r).1 hcomes
            rcases (Fork.Fresh.mem_answer ⟨rfl, rfl, rfl⟩ hnodup).1 hanswer with ⟨hno, -⟩ | ⟨-, v, -, heq⟩
            · cases hno.symm.trans hy
            · cases heq
          have hle := List.countP_le_length (p := Activity.settles (after cs₀).store.boundaries.size)
            (l := ((Activity.deliver e (.side (after cs₀).store.boundaries.size x) r').step
              (after (cs ++ .call place :: cs₀)).store).2)
          have hone : ((Activity.deliver e (.side (after cs₀).store.boundaries.size x) r').step
              (after (cs ++ .call place :: cs₀)).store).2.length ≤ 1 := by
            show ((after (cs ++ .call place :: cs₀)).store.endSide _ x r').2.length ≤ 1
            rw [Store.endSide_calls hfork]
            exact Fork.length_answer_le_one ..
          omega
        · cases heq

/-- Two executions that settle the fork are the same. -/
theorem Forks.settler_unique (h : Forks kind p q on fs l₀ place cs₀) {e e' : ExecutionId} {r r' : Result}
    (he : (after (cs ++ .call place :: cs₀)).Began e (.settle (after cs₀).store.boundaries.size r))
    (he' : (after (cs ++ .call place :: cs₀)).Began e' (.settle (after cs₀).store.boundaries.size r')) :
    e' = e := by
  obtain ⟨m, hm, ⟨n, link, hcall⟩, rfl⟩ := he
  obtain ⟨m', hm', ⟨n', link', hcall'⟩, rfl⟩ := he'
  have hcount := h.settling_le_one cs
  obtain ⟨xs, ys, hpast⟩ := List.append_of_mem hm
  have hsettles : ∀ {m : Moment} {n link r},
      m.call = some (.start n link (.settle (after cs₀).store.boundaries.size r)) →
        m.settles (after cs₀).store.boundaries.size = true := fun hcall => by
    rw [Moment.settles, hcall]
    exact beq_self_eq_true _
  have hpos : ∀ {ms : List Moment}, m' ∈ ms → 0 < ms.countP (Moment.settles (after cs₀).store.boundaries.size) :=
    fun hm' => List.countP_pos_iff.2 ⟨m', hm', hsettles hcall'⟩
  rw [hpast] at hm'
  rw [settling, hpast, List.countP_append, List.countP_cons_of_pos (hsettles hcall)] at hcount
  rcases List.mem_append.1 hm' with hm' | hm'
  · have := hpos hm'
    omega
  · rcases List.mem_cons.1 hm' with rfl | hm'
    · rfl
    · have := hpos hm'
      omega

/-- The connections of the sides are there. -/
theorem Forks.connection_lt (h : Forks kind p q on fs l₀ place cs₀) (side : Side) :
    ((after cs₀).store.newFork kind l₀.link).connection side <
      (after (.call place :: cs₀)).store.connections.size := by
  obtain ⟨prog, others, -, hafter⟩ := h.opened
  have hsize : (after (.call place :: cs₀)).store.connections.size =
      (after cs₀).store.connections.size + 2 := by
    rw [hafter]
    cases l₀.link <;> simp [Store.fork, Store.push, Store.modifyConnection, Store.newConnection, Store.newBoundary]
  rw [hsize]
  cases side <;> simp [Store.newFork, Fork.connection]

/-- The execution that cancels the other side was begun after the fork was opened. -/
theorem Forks.exists_cancelsOther (h : Forks kind p q on fs l₀ place cs₀) {m : Moment} {x : Side × Result}
    (hm : m ∈ (after (cs ++ .call place :: cs₀)).past)
    (hcall : m.call = some (((after cs₀).store.newFork kind l₀.link).cancelsOther
      (after cs₀).store.boundaries.size x)) :
    ∃ cs₂ place' cs₁, cs = cs₂ ++ .call place' :: cs₁ ∧
      (after (cs₁ ++ .call place :: cs₀)).calls[place']? =
        some (((after cs₀).store.newFork kind l₀.link).cancelsOther (after cs₀).store.boundaries.size x) ∧
      m.before = (after (cs₁ ++ .call place :: cs₀)).store := by
  obtain ⟨later, hpast⟩ := past_suffix (.call place :: cs₀) cs
  rw [← hpast] at hm
  rcases List.mem_append.1 hm with hm | hm
  · obtain ⟨newer, older, rfl⟩ := List.append_of_mem hm
    rw [List.append_assoc, List.cons_append] at hpast
    obtain ⟨cs₂, y, cs₁, rfl, -, hmade⟩ := exists_of_later hpast.symm (List.suffix_append _ _)
    rcases hmade.how with ⟨i, -, hnone, -⟩ | ⟨place', a, rfl, ha, hsome, -⟩
    · cases hnone.symm.trans hcall
    · cases hsome.symm.trans hcall
      exact ⟨cs₂, place', cs₁, rfl, ha, hmade.before⟩
  · exact absurd (.inr ⟨m, hm, hcall⟩) (h.not_comes (.head _) rfl)

/-- When the cancellation of a side has ended, the connection of the side is cancelled. -/
theorem Forks.isCancelled (h : Forks kind p q on fs l₀ place cs₀) {x : Side × Result} {r : Result}
    (hcancelled : (after (cs ++ .call place :: cs₀)).OtherCancelled (after cs₀).store.boundaries.size
      ((after cs₀).store.newFork kind l₀.link) x r) :
    (after (cs ++ .call place :: cs₀)).store.isCancelled
      (some (((after cs₀).store.newFork kind l₀.link).connection x.1.other)) = true := by
  obtain ⟨m, hm, hcall, m', hm', hdelivered⟩ := hcancelled
  obtain ⟨cs₂, place', cs₁, rfl, hcall', hbefore⟩ := h.exists_cancelsOther hm hcall
  have hlt := Nat.lt_of_lt_of_le (h.connection_lt x.1.other) (connections_le (.call place :: cs₀) cs₁)
  have hor := cancelled_or_looks hcall' hlt cs₂
  rw [List.append_assoc, List.cons_append] at hm' ⊢
  rcases hor with hcancelled | hlooks
  · exact hcancelled
  · rw [hbefore] at hdelivered
    exact absurd rfl (not_has_of_delivered hm' hdelivered (.inl hlooks))

/-- **All tokens of the cancelled side are over** when its cancellation has ended, unless somebody else has
cancelled it. -/
theorem Forks.finished_of_cancelled (h : Forks kind p q on fs l₀ place cs₀) {x : Side × Result} {r : Result}
    (hcancelled : (after (cs ++ .call place :: cs₀)).OtherCancelled (after cs₀).store.boundaries.size
      ((after cs₀).store.newFork kind l₀.link) x r)
    (honly : (after (cs ++ .call place :: cs₀)).OnlyForkCancels (after cs₀).store.boundaries.size
      (((after cs₀).store.newFork kind l₀.link).connection x.1.other)) :
    let loser := ((after cs₀).store.newFork kind l₀.link).connection x.1.other
    let ts := (taken (operations loser (cs ++ .call place :: cs₀))).map Prod.snd
    (after (cs ++ .call place :: cs₀)).begun loser = ts.reverse ∧
      (after (cs ++ .call place :: cs₀)).finished loser = ts.reverse := by
  intro loser ts
  have hdead := h.isCancelled hcancelled
  obtain ⟨m, hm, hcall, m', hm', hdelivered⟩ := hcancelled
  have hgone : ∀ {s l}, (after (cs ++ .call place :: cs₀)).Has s l → l.id ≠ m.before.executions :=
    not_has_of_delivered hm' hdelivered
  -- who took the tokens
  have hops : .cancel ∈ operations loser (cs ++ .call place :: cs₀) := by
    rw [Store.isCancelled_some, connectionAt_after, isCancelled_replay, Option.isNone_iff_eq_none] at hdead
    exact stack_eq_none_iff.1 hdead
  obtain ⟨place₁, cs₁, cs₂, s₁, l₁, hcs, hcall₁, hcancels⟩ := exists_cancels hops
  obtain ⟨r₁, hsink⟩ : ∃ r₁, l₁.sink = .settle (after cs₀).store.boundaries.size r₁ := by
    obtain ⟨later, hpast⟩ := past_suffix (.call place₁ :: cs₁) cs₂
    refine honly _ (List.mem_filterMap.2
      ⟨⟨some (.work s₁ l₁), (after cs₁).store, (Activity.work s₁ l₁).step (after cs₁).store⟩, ?_, ?_⟩)
    · rw [hcs, ← hpast]
      refine List.mem_append_right _ ?_
      show _ ∈ ((after cs₁).step (.call place₁)).past
      rw [past_call hcall₁]
      exact .head _
    · rw [hcancels.stage]
      exact if_pos rfl
  have hid : l₁.id = m.before.executions := by
    have hbegan : (after (cs ++ .call place :: cs₀)).Began l₁.id l₁.sink := by
      obtain ⟨m₁, hm₁, hstart⟩ := (entrusted cs₁).2 _ (List.mem_of_getElem? hcall₁)
      obtain ⟨later, hpast⟩ := past_suffix cs₁ (cs₂ ++ [.call place₁])
      rw [List.append_assoc, List.singleton_append, ← hcs] at hpast
      exact ⟨m₁, hpast ▸ List.mem_append_right _ hm₁, hstart⟩
    rw [hsink] at hbegan
    exact h.settler_unique (began_of_delivered hm' hdelivered).1 hbegan
  have hclears := clears hcall₁ hcancels cs₂
  rw [← hcs] at hclears
  cases hclears with
  | comes h => exact absurd hid (hgone h)
  | runs s l above done rest t first enclosing h hl => exact absurd (hl.trans hid) (hgone h)
  | ran hnone hbegun hfinished => exact ⟨hbegun, hfinished⟩
  | stopped σ hσ =>
    -- the execution is under no connection, as at its first step
    obtain ⟨cs₄, place', cs₃, rfl, hcall', hbefore⟩ := h.exists_cancelsOther hm hcall
    rw [hbefore] at hid
    obtain ⟨w, rfl⟩ : .call place' :: (cs₃ ++ .call place :: cs₀) <:+ cs₁ := by
      rw [List.append_assoc, List.cons_append] at hcs
      have hsuffix : cs₁ <:+ cs₄ ++ .call place' :: (cs₃ ++ .call place :: cs₀) :=
        hcs ▸ (List.suffix_cons _ _).trans (List.suffix_append _ _)
      rcases List.suffix_or_suffix_of_suffix hsuffix (List.suffix_append cs₄ _) with hle | hle
      · rcases List.suffix_cons_iff.1 hle with heq | ⟨w, hw⟩
        · exact heq ▸ List.suffix_refl _
        · have hlt := lt_executions (.inl (List.mem_of_getElem? hcall₁))
          have hle := executions_le cs₁ w
          rw [hw, ← hid] at hle
          exact absurd hlt (Nat.not_lt.2 hle)
      · exact hle
    have hlt := Nat.lt_of_lt_of_le (h.connection_lt x.1.other) (connections_le (.call place :: cs₀) cs₃)
    rcases cancelled_or_looks hcall' hlt w with hdone | hlooks
    · exact absurd hcancels.active (by rw [hdone]; exact nofun)
    · obtain ⟨-, rfl⟩ := has_unique (.inl hlooks) (.inl (List.mem_of_getElem? hcall₁)) hid
      cases hσ

end Fork

/-! ## Races -/

section Race

variable {p q : Prog} {on : Executor} {l₀ : Loop} {place : Nat} {cs₀ : List Choice}

/-- **A race is decided by the side that ends first, when the other one was cancelled.** Take any race of
`p` and `q`, and anything that happens afterwards.
* Each side has at most one execution, which runs `p` or `q` under the connection of the side, and each
  side ends at most once.
* As long as no side has ended, nothing comes to the boundary of the race.
* When a side has ended, the cancellation of the other one because of the first end is begun, and the
  boundary is completed only after that has ended, with the tagged value of the first side or its error;
  a failure of the cancellation replaces a value and is added to an error.
* By then the connection of the other side is cancelled, and all tokens that it had at that moment were
  run and are over, unless somebody else than the fork has come to cancel that connection too.
* The loop goes on from the boundary at most once, with a result that came there. -/
theorem race_settles_once
    (hcall : (after cs₀).calls[place]? = some (.work (.looking (.program (.race p q on))) l₀))
    (hlive : (after cs₀).store.isCancelled l₀.link = false) (cs : List Choice) :
    let k := (after cs₀).store.boundaries.size
    let fork := (after cs₀).store.newFork .first l₀.link
    let S := after (cs ++ .call place :: cs₀)
    ((∀ m ∈ S.past, ∀ n link side, m.call = some (.start n link (.side k side)) →
        n = .program (side.choose p q) ∧ link = some (fork.connection side)) ∧
      (∀ side e e', S.Began e (.side k side) → S.Began e' (.side k side) → e' = e) ∧
      ((S.ends k).map Prod.fst).Nodup) ∧
    (S.ends k = [] → ∀ r, ¬S.Comes (.complete (.boundary k) r)) ∧
    (∀ x, (S.ends k).getLast? = some x → S.Comes (fork.cancelsOther k x) ∧
      (∀ r, S.Comes (.complete (.boundary k) r) ↔
        ∃ r', S.OtherCancelled k fork x r' ∧ r = Result.afterCancel (x.2.map x.1.tag) r') ∧
      ∀ r', S.OtherCancelled k fork x r' →
        S.store.isCancelled (some (fork.connection x.1.other)) = true ∧
        (S.OnlyForkCancels k (fork.connection x.1.other) →
          let ts := (taken (operations (fork.connection x.1.other) (cs ++ .call place :: cs₀))).map Prod.snd
          S.begun (fork.connection x.1.other) = ts.reverse ∧
            S.finished (fork.connection x.1.other) = ts.reverse)) ∧
    (S.resumptions k).length ≤ 1 ∧
    ∀ r l, (r, l) ∈ S.resumptions k → l = l₀ ∧ S.Comes (.complete (.boundary k) r) := by
  have h : Forks .first p q on [] l₀ place cs₀ := ⟨hlive, _, hcall, rfl⟩
  refine ⟨⟨fun m hm n link side hstart => h.start_side hm hstart, fun side e e' he he' => h.side_unique he he',
    h.ends_nodup cs⟩, fun hends r hr => ?_, fun x hx => ?_, length_resumptions_le_one _ _, fun r l hl => ?_⟩
  · rcases (h.comes_iff r).1 hr with ⟨hkind, -⟩ | ⟨x, r', hx, -⟩
    · cases hkind
    · rw [hends] at hx
      cases hx
  · rw [← ForkKind.decider?_first] at hx
    refine ⟨((h.forked cs).settlers _ _ _).2 ⟨x, hx, rfl⟩, fun r => ?_, fun r' hcancelled =>
      ⟨h.isCancelled hcancelled, h.finished_of_cancelled hcancelled⟩⟩
    rw [h.comes_iff]
    constructor
    · rintro (⟨hkind, -⟩ | ⟨y, r', hy, hcancelled, rfl⟩)
      · cases hkind
      · obtain rfl : x = y := Option.some.inj (hx.symm.trans hy)
        exact ⟨r', hcancelled, rfl⟩
    · rintro ⟨r', hcancelled, rfl⟩
      exact .inr ⟨x, r', hx, hcancelled, rfl⟩
  · obtain ⟨hl, hr⟩ := h.resumed hl
    exact ⟨hl, comes_complete.2 (.inr hr)⟩

/-- Two sides whose tasks wait in a queue, up to the race. -/
def opensRace (p q : Prog) : List Choice :=
  [.call 0, .input (.run (.race p q (.queue "tasks")) none true)]

set_option maxRecDepth 2000 in
/-- The left side ends while the right one waits, and the clean-up of the right one fails, in place of the
value of the left one; by then it is over. -/
theorem race_value_replaced :
    let S := after (rightFirst ++ .call 0 :: opensRace (.pure (.int 1)) failsLate)
    S.ends 0 = [(.right, .error .cancelled), (.left, .ok (.int 1))] ∧
      (S.resumptions 0).map Prod.fst = [.error (.panic "late")] ∧
      S.store.isCancelled (some 2) = true ∧ S.begun 2 = [.step 1] ∧ S.finished 2 = [.step 1] := by
  intro S
  have hcall : (after (opensRace (.pure (.int 1)) failsLate)).calls[0]? =
      some (.work (.looking (.program (.race (.pure (.int 1)) failsLate (.queue "tasks"))))
        ⟨0, some 0, [], .observer 0⟩) := rfl
  obtain ⟨-, -, hends, -, hresumed⟩ := race_settles_once hcall rfl rightFirst
  obtain ⟨-, hcomes, hcancelled⟩ := hends (.left, .ok (.int 1)) rfl
  have hresumption : (S.resumptions 0).map Prod.fst = [.error (.panic "late")] := rfl
  obtain ⟨⟨r, l⟩, hl, rfl⟩ := List.mem_map.1 (hresumption ▸ List.mem_singleton.2 rfl)
  obtain ⟨r', hother, -⟩ := (hcomes _).1 (hresumed _ _ hl).2
  obtain ⟨hdead, hover⟩ := hcancelled r' hother
  have hcancellers : S.cancellers 2 = [.settle 0 (.ok (.left (.int 1)))] := rfl
  have honly : S.OnlyForkCancels 0 2 := fun x hx => ⟨_, List.mem_singleton.1 (hcancellers ▸ hx)⟩
  obtain ⟨hbegun, hfinished⟩ := hover honly
  exact ⟨rfl, hresumption, hdead, hbegun, hfinished⟩

end Race

end Session

end CancelableEffects
