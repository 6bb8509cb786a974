import CancelableEffects.Proofs.Debts
import CancelableEffects.Proofs.Resources

/-!
# Decisions — a loop goes on from a boundary when that has been decided

* `Session.matters`: what the pending calls are about.
* **`Session.tied_once`**: a duel is tied together once.
* `Store.Concluded`: nothing is left to wait for at a boundary.
* `Session.Answers`: a result may come to a boundary.
* `Session.Orderly`: whatever completes a boundary, now or later, may do so.
* **`Session.orderly`**: this holds in every reachable state.
-/

namespace CancelableEffects

/-- The matter is about this duel. -/
def Matter.isTies (k : DuelId) : Matter → Bool
  | .ties k' _ => k' == k
  | _ => false

namespace Session

variable {S : Session} {cs : List Choice} {a : Activity} {xs ys : List Activity}

/-- The matters of the calls that are pending. -/
def matters (S : Session) : List Matter := S.calls.flatMap Activity.carries

theorem matters_eq (hS : S.calls = xs ++ a :: ys) :
    S.matters.Perm (a.carries ++ (xs ++ ys).flatMap Activity.carries) := by
  simp only [matters, hS, List.flatMap_append, List.flatMap_cons]
  rw [← List.append_assoc, ← List.append_assoc]
  exact List.perm_append_comm.append_right _

theorem matters_call (S : Session) (a : Activity) (others : List Activity) :
    (S.record (some a) (a.step S.store) others).matters =
      a.matters S.store ++ others.flatMap Activity.carries := by
  simp only [matters, record_calls, List.flatMap_append, (a.step_does S.store).matters]

theorem matters_input (S : Session) (i : Input) :
    (S.record none (i.step S.store) S.calls).matters = S.matters := by
  simp only [matters, record_calls, List.flatMap_append, (i.step_does S.store).matters,
    List.nil_append]

/-- **A duel is tied together once**, when its fibers are there. -/
theorem tied_once (k : DuelId) (cs : List Choice) :
    (after cs).matters.countP (·.isTies k) ≤ 1 ∧
      (0 < (after cs).matters.countP (·.isTies k) →
        (after cs).store.keeper? k = some (.duel none)) := by
  refine invariant (P := fun S => S.matters.countP (·.isTies k) ≤ 1 ∧
    (0 < S.matters.countP (·.isTies k) → S.store.keeper? k = some (.duel none)))
    ⟨Nat.zero_le _, fun h => absurd h (Nat.lt_irrefl 0)⟩ ?_ ?_ cs
  · intro cs i h
    rw [matters_input, record_store, ((i.step_does (after cs).store)).keeper?]
    exact h
  · intro cs a xs ys hS ⟨hone, hnone⟩
    have hbefore := (matters_eq hS).countP_eq (·.isTies k)
    rw [List.countP_append] at hbefore
    rw [matters_call, List.countP_append, record_store]
    by_cases htie : ∃ left right parent, a = .tie left right parent k
    · obtain ⟨left, right, parent, rfl⟩ := htie
      have hcarries : (Activity.tie left right parent k).carries.countP (·.isTies k) = 1 := by
        simp [Activity.carries, Matter.isTies]
      have hmatters : ((Activity.tie left right parent k).matters (after cs).store).countP
          (·.isTies k) = 0 := rfl
      exact ⟨by omega, fun hpos => by omega⟩
    have hstays : (after cs).store.keeper? k = some (.duel none) →
        (a.step (after cs).store).1.keeper? k = some (.duel none) :=
      Activity.step_duel_none fun left right parent ha => htie ⟨left, right, parent, ha⟩
    by_cases hnew : 0 < (a.matters (after cs).store).countP (·.isTies k)
    · obtain ⟨m, hm, hk⟩ := List.countP_pos_iff.1 hnew
      cases m with
      | ties k' parent =>
        obtain rfl : k' = k := by simpa [Matter.isTies] using hk
        obtain ⟨left, q, on, rfl⟩ | ⟨rfl, p, q, on, l, rfl, rfl, hc⟩ := a.matters_follow _ _ hm
        · have hcarries : (Activity.startRight left q on parent k').carries.countP (·.isTies k') = 1 := by
            simp [Activity.carries, Matter.isTies]
          have hmatters : ((Activity.startRight left q on parent k').matters (after cs).store).countP
              (·.isTies k') = 1 := by simp [Activity.matters, Matter.isTies]
          exact ⟨by omega, fun _ => hstays (hnone (by omega))⟩
        · -- the boundary was not there before
          have hzero : (after cs).matters.countP (·.isTies (after cs).store.boundaries.size) = 0 :=
            Nat.eq_zero_of_not_pos fun hpos => by cases Store.keeper?_size.symm.trans (hnone hpos)
          have hmatters : ((Activity.work (.looking (.program (.racePair p q on))) l).matters
              (after cs).store).countP (·.isTies (after cs).store.boundaries.size) = 1 := by
            simp [Activity.matters, hc, Node.matters, Matter.isTies]
          refine ⟨by omega, fun _ => ?_⟩
          rw [Activity.step, l.step_of_not_cancelled hc]
          exact Prog.step_keeper hc rfl
      | _ => simp [Matter.isTies] at hk
    · exact ⟨by omega, fun hpos => hstays (hnone (by omega))⟩

/-- The fibers of a duel that a call ties together are there, and it was not decided. -/
theorem duel_of_tie {k : DuelId} {cs : List Choice} {left right : FiberId} {parent : Link}
    (h : .tie left right parent k ∈ (after cs).calls) :
    (after cs).store.keeper? k = some (.duel none) := by
  have hm : .ties k parent ∈ (after cs).matters := List.mem_flatMap.2 ⟨_, h, by simp [Activity.carries]⟩
  exact (tied_once k cs).2 (List.countP_pos_iff.2 ⟨_, hm, by simp [Matter.isTies]⟩)

end Session

/-! ## What may complete a boundary -/

/-- Nothing is left to wait for at the boundary: its keeper has been decided, or the connection of its
bracket was cancelled. -/
def Store.Concluded (b : BoundaryId) (σ : Store) : Prop :=
  σ.Settled b ∨ ∃ br, σ.bracket? b = some br ∧ σ.isCancelled br.link = true

namespace Session

variable {cs : List Choice} {a : Activity} {xs ys : List Activity} {b : BoundaryId} {r : Result}

/-- The result may come to the boundary: nothing is left to wait for there, or the acquisition of its
bracket has ended like that. -/
def Answers (b : BoundaryId) (r : Result) (S : Session) : Prop :=
  S.store.Concluded b ∨ (∃ br, S.store.bracket? b = some br) ∧ 0 < S.deals b (.acquires r.isOk)

theorem concluded_call (hS : (after cs).calls = xs ++ a :: ys) (h : (after cs).store.Concluded b) :
    (a.step (after cs).store).1.Concluded b := by
  obtain hsettled | ⟨br, hbr, hc⟩ := h
  · refine .inl (Activity.step_settled ?_ hsettled)
    rintro left right parent rfl
    have hnone : (after cs).store.keeper? b = some (.duel none) :=
      duel_of_tie (by rw [hS]; exact List.mem_append_right _ (.head _))
    obtain ⟨x, hx, hdecided, -⟩ := hsettled
    cases hnone.symm.trans hx
    obtain ⟨d, hd, -⟩ := hdecided
    cases hd
  · have hgrows := a.step_grows (after cs).store
    obtain ⟨br', hbr', hlike⟩ := hgrows.bracket b br hbr
    exact .inr ⟨br', hbr', hgrows.cancelled _ (hlike.link ▸ hc)⟩

theorem concluded_input (i : Input) (h : (after cs).store.Concluded b) :
    (i.step (after cs).store).1.Concluded b := by
  obtain ⟨x, hx, hdecided⟩ | ⟨br, hbr, hc⟩ := h
  · exact .inl ⟨x, ((i.step_does _).keeper? b).trans hx, hdecided⟩
  · have hgrows := i.step_grows (after cs).store
    obtain ⟨br', hbr', hlike⟩ := hgrows.bracket b br hbr
    exact .inr ⟨br', hbr', hgrows.cancelled _ (hlike.link ▸ hc)⟩

theorem answers_call (hS : (after cs).calls = xs ++ a :: ys) (h : (after cs).Answers b r) :
    ((after cs).record (some a) (a.step (after cs).store) (xs ++ ys)).Answers b r := by
  obtain h | ⟨⟨br, hbr⟩, hdeals⟩ := h
  · exact .inl (concluded_call hS h)
  · obtain ⟨br', hbr', -⟩ := (a.step_grows (after cs).store).bracket b br hbr
    exact .inr ⟨⟨br', hbr'⟩, by rw [deals_call]; omega⟩

theorem answers_input (i : Input) (h : (after cs).Answers b r) :
    ((after cs).record none (i.step (after cs).store) (after cs).calls).Answers b r := by
  obtain h | ⟨⟨br, hbr⟩, hdeals⟩ := h
  · exact .inl (concluded_input i h)
  · obtain ⟨br', hbr', -⟩ := (i.step_grows (after cs).store).bracket b br hbr
    exact .inr ⟨⟨br', hbr'⟩, by rwa [deals_input (by simp)]⟩

/-- Whatever completes a boundary may do so: the results that are ready, the calls with which it is
completed, and the executions at whose end it is. No call runs the token of a step. -/
structure Orderly (S : Session) : Prop where
  ready : ∀ b r, S.store.boundary? b = some (.ready r) → S.Answers b r
  completes : ∀ b r, .completes b r ∈ S.matters → S.Answers b r
  ends : ∀ b, .ends b ∈ S.matters → S.store.Concluded b
  began : ∀ e k b, S.Began e k → .ends b ∈ k.ends → S.store.Concluded b
  runs : ∀ s, .runs s ∉ S.matters

theorem Orderly.call (h : (after cs).Orderly) (hS : (after cs).calls = xs ++ a :: ys) :
    ((after cs).record (some a) (a.step (after cs).store) (xs ++ ys)).Orderly := by
  have hcalls : ∀ a' ∈ xs ++ a :: ys, ∀ m ∈ a'.carries, m ∈ (after cs).matters := fun a' ha' m hm =>
    List.mem_flatMap.2 ⟨a', hS ▸ ha', hm⟩
  have ha : a ∈ xs ++ a :: ys := List.mem_append_right _ (.head _)
  -- a matter is an old one, or comes up in the step
  have hmatters : ∀ m ∈ ((after cs).record (some a) (a.step (after cs).store) (xs ++ ys)).matters,
      m.Follows a (after cs).store ∨ m ∈ (after cs).matters := by
    intro m hm
    rw [matters_call] at hm
    obtain hm | hm := List.mem_append.1 hm
    · exact .inl (a.matters_follow _ m hm)
    · obtain ⟨a', ha', hm⟩ := List.mem_flatMap.1 hm
      refine .inr (hcalls a' ?_ m hm)
      simp only [List.mem_append, List.mem_cons] at ha' ⊢
      exact ha'.imp_right .inr
  refine ⟨fun b r hready => ?_, fun b r hm => ?_, fun b hm => ?_, fun e k b hbegan hends => ?_,
    fun s hm => ?_⟩
  · obtain hready | rfl := Activity.step_ready hready
    · exact answers_call hS (h.ready b r hready)
    · exact answers_call hS (h.completes b r (hcalls _ ha _ (.head _)))
  · obtain hfollows | hold := hmatters _ hm
    · obtain hsettled | ⟨e, k, r', rfl, hends⟩ | ⟨e, r', rfl, hok⟩ := hfollows
      · exact .inl (.inl hsettled)
      · have hbegan : (after cs).Began e k := (entrusted cs).2 (.deliver e k r') (hS ▸ ha)
        exact .inl (concluded_call hS (h.began e k b hbegan hends))
      · have hdeal : (Activity.deliver e (.acquired b) r').deal b (after cs).store =
            .acquires r.isOk := by simp [Activity.deal, Sink.deal, hok]
        obtain ⟨-, -, br, hbr⟩ := acquiring hS hdeal
        obtain ⟨br, hbr, -⟩ := Option.map_eq_some_iff.1 hbr
        obtain ⟨br', hbr', -⟩ := (Activity.step_grows _ (after cs).store).bracket b br hbr
        exact .inr ⟨⟨br', hbr'⟩, by rw [deals_call, if_pos hdeal]; omega⟩
    · exact answers_call hS (h.completes b r hold)
  · obtain hfollows | hold := hmatters _ hm
    · obtain hsettled | hcancelled := hfollows
      · exact .inl hsettled
      · exact concluded_call hS (.inr hcancelled)
    · exact concluded_call hS (h.ends b hold)
  · obtain ⟨⟨n, link, hstart⟩, -⟩ | hbegan := began_record.1 hbegan
    · cases hstart
      exact concluded_call hS (h.ends b (hcalls _ ha _ (List.mem_append_left _ hends)))
    · exact concluded_call hS (h.began e k b hbegan hends)
  · exact (hmatters _ hm).elim id (h.runs s)

/-- **In every reachable state**, whatever completes a boundary may do so. -/
theorem orderly (cs : List Choice) : (after cs).Orderly := by
  refine invariant (P := Orderly) ⟨?_, ?_, ?_, ?_, ?_⟩ ?_ (fun cs a xs ys hS h => h.call hS) cs
  · exact fun b r h => by simp [Store.boundary?] at h
  · exact fun b r h => (List.not_mem_nil h).elim
  · exact fun b h => (List.not_mem_nil h).elim
  · rintro e k b ⟨m, hm, -⟩
    exact (List.not_mem_nil hm).elim
  · exact fun s h => List.not_mem_nil h
  · intro cs i h
    have hbegan : ∀ {e k}, ((after cs).record none (i.step (after cs).store) (after cs).calls).Began e k →
        (after cs).Began e k := fun hb => (began_record.1 hb).elim (fun hx => by simp at hx) id
    refine ⟨fun b r hready => ?_, fun b r hm => ?_, fun b hm => ?_, fun e k b hb hends => ?_,
      fun s hm => ?_⟩
    · rw [record_store, (i.step_aside _).boundary?] at hready
      exact answers_input i (h.ready b r hready)
    · exact answers_input i (h.completes b r (matters_input _ i ▸ hm))
    · exact concluded_input i (h.ends b (matters_input _ i ▸ hm))
    · exact concluded_input i (h.began e k b (hbegan hb) hends)
    · exact h.runs s (matters_input _ i ▸ hm)

/-- A loop stays where it waits, or goes on with a result that may come to the boundary. -/
theorem leaves {l : Loop} (h : (after cs).Has (.leaving b) l) (x : Choice) :
    (after (x :: cs)).Has (.leaving b) l ∨
      ∃ r, (after (x :: cs)).Has (.looking (.result r)) l ∧ (after cs).Answers b r := by
  obtain ⟨s', h', rfl | ⟨b', r, -, rfl⟩⟩ := has_other h fun place s' l' _ hcall hid =>
    ⟨b, (has_unique h (.inl (List.mem_of_getElem? hcall)) hid).1⟩
  · exact .inl h'
  refine .inr ⟨r, h', ?_⟩
  obtain ⟨place, -, ⟨-, hready⟩ | ⟨hcall, -⟩⟩ := resumes h h'
  · exact (orderly cs).ready _ _ hready
  · exact (orderly cs).completes _ _
      (List.mem_flatMap.2 ⟨_, List.mem_of_getElem? hcall, .head _⟩)

end Session

end CancelableEffects
