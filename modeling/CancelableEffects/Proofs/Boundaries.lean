import CancelableEffects.Proofs.Session
import CancelableEffects.Proofs.Turn

/-!
# Boundaries — each one is left once and resumed once

* `Session.offers`, `Session.leavers`, `Session.resumptions`: the results offered to a boundary so
  far, the loops that came to wait there, and those that went on from there.
* `Boundary.Tells`: what the state of a boundary tells about them.
* **`Session.tells`**: the state of a boundary always tells the truth.
* **`Session.leaving_open`**: no loop comes to a boundary that was left before.
* **`Session.resumptions_eq`**: a loop goes on at most once, with the first result that was offered.
-/

namespace CancelableEffects

/-! ## The past of a boundary -/

/-- The registration of the boundary is over with this call: the loop that comes to wait there. -/
def Activity.leaver? (b : BoundaryId) : Activity → Option Loop
  | .work (.leaving b') l => if b' = b then some l else none
  | _ => none

/-- The result that the call offers to the boundary. -/
def Activity.offer? (b : BoundaryId) : Activity → Option Result
  | .complete (.boundary b') r => if b' = b then some r else none
  | _ => none

theorem Activity.of_leaver? {a : Activity} {b : BoundaryId} {l : Loop} (h : a.leaver? b = some l) :
    a = .work (.leaving b) l := by
  unfold leaver? at h
  split at h
  · split at h <;> cases h
    subst b
    rfl
  · cases h

theorem Activity.of_offer? {a : Activity} {b : BoundaryId} {r : Result} (h : a.offer? b = some r) :
    a = .complete (.boundary b) r := by
  unfold offer? at h
  split at h
  · split at h <;> cases h
    subst b
    rfl
  · cases h

namespace Moment

/-- The loop that came to wait at the boundary at this moment. -/
def leaver? (b : BoundaryId) (m : Moment) : Option Loop := m.call.bind (·.leaver? b)

/-- The result that was offered to the boundary at this moment, if it was there. -/
def offer? (b : BoundaryId) (m : Moment) : Option Result :=
  if b < m.before.boundaries.size then m.call.bind (·.offer? b) else none

/-- The loop that went on from the boundary at this moment, and its result. -/
def resumption? (b : BoundaryId) (m : Moment) : Option (Result × Loop) :=
  if (m.leaver? b).isSome ∨ (m.offer? b).isSome then
    match m.next.2 with
    | [.work (.looking (.result r)) l] => some (r, l)
    | _ => none
  else none

/-- Who goes on from a boundary comes there now, or has waited there. -/
theorem of_resumption? {b : BoundaryId} {m : Moment} {r : Result} {l : Loop}
    (h : m.resumption? b = some (r, l)) : m.next.2 = [.work (.looking (.result r)) l] ∧
      ((∃ l', m.call = some (.work (.leaving b) l')) ∨
        ∃ r', m.call = some (.complete (.boundary b) r')) := by
  unfold resumption? at h
  split at h
  · rename_i hsome
    split at h
    · rename_i hnext
      cases h
      refine ⟨hnext, hsome.imp (fun hsome => ?_) fun hsome => ?_⟩
      · obtain ⟨l', hl'⟩ := Option.isSome_iff_exists.1 hsome
        obtain ⟨a, ha, hl'⟩ := Option.bind_eq_some_iff.1 hl'
        exact ⟨l', Activity.of_leaver? hl' ▸ ha⟩
      · obtain ⟨r', hr'⟩ := Option.isSome_iff_exists.1 hsome
        unfold offer? at hr'
        split at hr'
        · obtain ⟨a, ha, hr'⟩ := Option.bind_eq_some_iff.1 hr'
          exact ⟨r', Activity.of_offer? hr' ▸ ha⟩
        · cases hr'
    · cases h
  · cases h

end Moment

namespace Session

/-- The results offered to the boundary so far, the latest first. -/
def offers (b : BoundaryId) (S : Session) : List Result := S.past.filterMap (·.offer? b)

/-- The loops that came to wait at the boundary so far. -/
def leavers (b : BoundaryId) (S : Session) : List Loop := S.past.filterMap (·.leaver? b)

/-- The loops that went on from the boundary so far, with the results they got. -/
def resumptions (b : BoundaryId) (S : Session) : List (Result × Loop) :=
  S.past.filterMap (·.resumption? b)

/-- The loops that are about to come to the boundary. -/
def leaving (b : BoundaryId) (S : Session) : List Loop := S.calls.filterMap (·.leaver? b)

end Session

/-- What the state of a boundary tells about the results offered to it, the latest first, the loops
about to come there, the loops that came, and the loops that went on from there. -/
def Boundary.Tells (offers : List Result) (leaving leavers : List Loop)
    (resumptions : List (Result × Loop)) : Option Boundary → Prop
  | none => offers = [] ∧ leaving = [] ∧ leavers = [] ∧ resumptions = []
  | some .registering => offers = [] ∧ leaving.length = 1 ∧ leavers = [] ∧ resumptions = []
  | some (.ready r) =>
    offers.getLast? = some r ∧ leaving.length = 1 ∧ leavers = [] ∧ resumptions = []
  | some (.parked l) => offers = [] ∧ leaving = [] ∧ leavers = [l] ∧ resumptions = []
  | some .resumed => leaving = [] ∧
      ∃ r l, offers.getLast? = some r ∧ leavers = [l] ∧ resumptions = [(r, l)]

/-! ## One step -/

theorem Activity.leaver?_of_apart {a : Activity} (h : a.Apart) (b : BoundaryId) :
    a.leaver? b = none := by
  cases a with
  | work s l => exact h.elim
  | _ => rfl

theorem filterMap_leaver?_of_apart {calls : List Activity} (h : ∀ a ∈ calls, a.Apart)
    (b : BoundaryId) : calls.filterMap (·.leaver? b) = [] := by
  rw [List.filterMap_eq_nil_iff]
  exact fun a ha => Activity.leaver?_of_apart (h a ha) b

theorem Input.step_aside (i : Input) (σ : Store) : Next.Aside σ (i.step σ) := by
  cases i with
  | move c => exact c.move_aside σ
  | run p label cancelable =>
    cases cancelable <;> exact ⟨rfl, rfl, by simp [Input.step, Activity.Apart]⟩
  | pushPair link left right => exact ⟨rfl, rfl, Store.apart_push _ _ _⟩
  | tick queue place =>
    simp only [Input.step]
    split <;> exact ⟨rfl, rfl, by simp [Activity.Apart]⟩
  | ready place =>
    simp only [Input.step]
    split <;> exact ⟨rfl, rfl, by simp [Activity.Apart]⟩
  | startFuture f => exact σ.startFuture_aside f none
  | dropFuture f => exact σ.dropFuture_aside f
  | _ => exact ⟨rfl, rfl, by simp [Input.step, Activity.Apart]⟩

/-- A call that neither comes to a boundary nor completes one leaves all boundaries as they are, or
opens one to which its loop will come. -/
theorem Activity.step_opens {a : Activity} (σ : Store) (hl : ∀ b, a.leaver? b = none)
    (ho : ∀ b, a.offer? b = none) :
    (∀ b, (a.step σ).1.boundary? b = σ.boundary? b ∧
        (a.step σ).2.filterMap (·.leaver? b) = []) ∨
      ∃ l, ∀ b, (a.step σ).1.boundary? b =
          (if b = σ.boundaries.size then some .registering else σ.boundary? b) ∧
        (a.step σ).2.filterMap (·.leaver? b) = if b = σ.boundaries.size then [l] else [] := by
  by_cases hbeside : a.Beside
  · have h := Activity.step_aside hbeside σ
    exact .inl fun b => ⟨h.boundary? b, filterMap_leaver?_of_apart h.apart b⟩
  cases a with
  | start n link k => exact .inl fun b => ⟨rfl, rfl⟩
  | work s l =>
    obtain ⟨r, h, -⟩ | ⟨t, fs, h, ht, -⟩ | ⟨b, rfl⟩ := l.step_cases s σ
    · simp only [Activity.step, h]
      exact .inl fun b => ⟨trivial, rfl⟩
    · simp only [Activity.step, h, Turn.on, List.filterMap_append, Store.boundary?]
      obtain ⟨hb, hs⟩ | ⟨hb, hs⟩ := ht.cells
      · refine .inl fun b => ⟨by rw [hb], ?_⟩
        rw [filterMap_leaver?_of_apart ht.apart b]
        cases hstage : t.stage with
        | leaving b' => exact absurd hstage (hs b')
        | _ => rfl
      · refine .inr ⟨{ l with link := t.link, stack := t.frames ++ fs }, fun b => ⟨?_, ?_⟩⟩
        · rw [hb, Array.getElem?_push]
          rfl
        · rw [filterMap_leaver?_of_apart ht.apart b, hs, List.nil_append]
          by_cases hbs : b = σ.boundaries.size
          · subst hbs
            simp [Activity.leaver?]
          · simp [Activity.leaver?, hbs, Ne.symm hbs]
    · have := hl b
      simp [Activity.leaver?] at this
  | complete c r =>
    cases c with
    | boundary b =>
      have := ho b
      simp [Activity.offer?] at this
    | _ => exact absurd trivial hbeside
  | _ => exact absurd trivial hbeside

theorem Store.boundary?_setBoundary {b : BoundaryId} {σ : Store} {x y : Boundary}
    (h : σ.boundary? b = some y) : (σ.setBoundary b x).boundary? b = some x := by
  obtain ⟨hlt, -⟩ := Array.getElem?_eq_some_iff.1 h
  simp [Store.boundary?, Store.setBoundary, Boundaries.set, hlt]

theorem Store.boundary?_setBoundary_ne {b b' : BoundaryId} {σ : Store} {x : Boundary} (h : b' ≠ b) :
    (σ.setBoundary b x).boundary? b' = σ.boundary? b' := by
  simp [Store.boundary?, Store.setBoundary, Boundaries.set, Ne.symm h]

theorem Store.boundary?_of_setBoundary {b b' : BoundaryId} {σ : Store} {x y : Boundary}
    (h : (σ.setBoundary b x).boundary? b' = some y) :
    b' = b ∧ y = x ∨ σ.boundary? b' = some y := by
  simp only [Store.boundary?, Store.setBoundary, Boundaries.set,
    Array.getElem?_setIfInBounds] at h
  split at h
  · rename_i hb
    split at h
    · exact .inl ⟨hb.symm, (Option.some.inj h).symm⟩
    · cases h
  · exact .inr h

theorem Store.leave_other {b b' : BoundaryId} {l : Loop} {σ : Store} (h : b ≠ b') :
    (σ.leave b' l).1.boundary? b = σ.boundary? b ∧
      (σ.leave b' l).2.filterMap (·.leaver? b) = [] := by
  unfold Store.leave
  split
  · exact ⟨Store.boundary?_setBoundary_ne h, rfl⟩
  · exact ⟨Store.boundary?_setBoundary_ne h, rfl⟩
  · exact ⟨rfl, rfl⟩

theorem Store.completeBoundary_other {b b' : BoundaryId} {r : Result} {σ : Store} (h : b ≠ b') :
    (σ.completeBoundary b' r).1.boundary? b = σ.boundary? b ∧
      (σ.completeBoundary b' r).2.filterMap (·.leaver? b) = [] := by
  unfold Store.completeBoundary
  split
  · exact ⟨Store.boundary?_setBoundary_ne h, rfl⟩
  · exact ⟨Store.boundary?_setBoundary_ne h, rfl⟩
  · exact ⟨rfl, rfl⟩

/-! ## The invariant -/

namespace Session

/-- The state of the boundary tells the truth about its past. -/
def Tells (b : BoundaryId) (S : Session) : Prop :=
  Boundary.Tells (S.offers b) (S.leaving b) (S.leavers b) (S.resumptions b)
    (S.store.boundary? b)

section Record

variable {S : Session} {b : BoundaryId} {call : Option Activity} {next : Next}
  {others : List Activity}

theorem offers_record : (S.record call next others).offers b =
    (Moment.offer? b ⟨call, S.store, next⟩).toList ++ S.offers b := by
  simp only [offers, record_past, List.filterMap_cons]
  cases Moment.offer? b ⟨call, S.store, next⟩ <;> rfl

theorem leavers_record : (S.record call next others).leavers b =
    (Moment.leaver? b ⟨call, S.store, next⟩).toList ++ S.leavers b := by
  simp only [leavers, record_past, List.filterMap_cons]
  cases Moment.leaver? b ⟨call, S.store, next⟩ <;> rfl

theorem resumptions_record : (S.record call next others).resumptions b =
    (Moment.resumption? b ⟨call, S.store, next⟩).toList ++ S.resumptions b := by
  simp only [resumptions, record_past, List.filterMap_cons]
  cases Moment.resumption? b ⟨call, S.store, next⟩ <;> rfl

theorem leaving_record : (S.record call next others).leaving b =
    next.2.filterMap (·.leaver? b) ++ others.filterMap (·.leaver? b) := List.filterMap_append

/-- A moment that is not about the boundary changes nothing of it. -/
theorem Tells.record (h : S.Tells b) (hl : Moment.leaver? b ⟨call, S.store, next⟩ = none)
    (ho : Moment.offer? b ⟨call, S.store, next⟩ = none)
    (hb : next.1.boundary? b = S.store.boundary? b)
    (hc : next.2.filterMap (·.leaver? b) ++ others.filterMap (·.leaver? b) = S.leaving b) :
    (S.record call next others).Tells b := by
  have hr : Moment.resumption? b ⟨call, S.store, next⟩ = none := by
    simp [Moment.resumption?, hl, ho]
  rw [Tells, offers_record, leavers_record, resumptions_record, leaving_record, hl, ho, hr, hc]
  rw [record_store, hb]
  exact h

end Record

section Call

variable {S : Session} {xs ys : List Activity} {b b' : BoundaryId} {l : Loop} {r : Result}

/-- A loop comes to its boundary: it waits there, or goes on if a result was offered before. -/
theorem Tells.leave (h : S.Tells b) (hS : S.calls = xs ++ .work (.leaving b) l :: ys) :
    (S.record (some (.work (.leaving b) l)) (S.store.leave b l) (xs ++ ys)).Tells b := by
  have hleaving : S.leaving b = xs.filterMap (·.leaver? b) ++ l :: ys.filterMap (·.leaver? b) := by
    simp [leaving, hS, Activity.leaver?]
  have hl : ∀ next, Moment.leaver? b ⟨some (.work (.leaving b) l), S.store, next⟩ = some l := by
    simp [Moment.leaver?, Activity.leaver?]
  have ho : ∀ next, Moment.offer? b ⟨some (.work (.leaving b) l), S.store, next⟩ = none := by
    simp [Moment.offer?, Activity.offer?]
  have hothers : (S.leaving b).length = 1 → (xs ++ ys).filterMap (·.leaver? b) = [] := by
    rw [hleaving, List.filterMap_append, List.length_append, List.length_cons]
    intro hlen
    exact List.eq_nil_of_length_eq_zero (by rw [List.length_append]; omega)
  have hsome : S.leaving b ≠ [] := by simp [hleaving]
  rw [Tells] at h
  rw [Tells, offers_record, leavers_record, resumptions_record, leaving_record, hl, ho,
    record_store]
  cases hb : S.store.boundary? b with
  | none =>
    rw [hb] at h
    exact absurd h.2.1 hsome
  | some x =>
    rw [hb] at h
    cases x with
    | registering =>
      obtain ⟨hoffers, hlen, hleavers, hres⟩ := h
      have hstep : S.store.leave b l =
          ((S.store.setBoundary b (.parked l)).emit (.parked b), []) := by
        simp only [Store.leave, hb]
      have hb' : ((S.store.setBoundary b (.parked l)).emit (.parked b)).boundary? b =
          some (.parked l) := Store.boundary?_setBoundary hb
      have hr : Moment.resumption? b ⟨some (.work (.leaving b) l), S.store,
          ((S.store.setBoundary b (.parked l)).emit (.parked b), [])⟩ = none := by
        simp [Moment.resumption?]
      rw [hstep, hb', hr, hothers hlen, hoffers, hleavers, hres]
      exact ⟨rfl, rfl, rfl, rfl⟩
    | ready r =>
      obtain ⟨hoffers, hlen, hleavers, hres⟩ := h
      have hstep : S.store.leave b l =
          (S.store.setBoundary b .resumed, [.work (.looking (.result r)) l]) := by
        simp only [Store.leave, hb]
      have hr : Moment.resumption? b ⟨some (.work (.leaving b) l), S.store,
          (S.store.setBoundary b .resumed, [.work (.looking (.result r)) l])⟩ = some (r, l) := by
        simp [Moment.resumption?, hl]
      rw [hstep, Store.boundary?_setBoundary hb, hr, hothers hlen, hleavers, hres]
      exact ⟨rfl, r, l, hoffers, rfl, rfl⟩
    | parked l' => exact absurd h.2.1 hsome
    | resumed => exact absurd h.1 hsome

/-- A result is offered to a boundary: the first one is kept for the loop or makes it go on, and
any other one is dropped. -/
theorem Tells.complete (h : S.Tells b) (hS : S.calls = xs ++ .complete (.boundary b) r :: ys) :
    (S.record (some (.complete (.boundary b) r)) (S.store.completeBoundary b r)
      (xs ++ ys)).Tells b := by
  have hleaving : (xs ++ ys).filterMap (·.leaver? b) = S.leaving b := by
    simp [leaving, hS, Activity.leaver?]
  have hl : ∀ next,
      Moment.leaver? b ⟨some (.complete (.boundary b) r), S.store, next⟩ = none := by
    simp [Moment.leaver?, Activity.leaver?]
  have ho : ∀ next, Moment.offer? b ⟨some (.complete (.boundary b) r), S.store, next⟩ =
      if b < S.store.boundaries.size then some r else none := by
    simp [Moment.offer?, Activity.offer?]
  rw [Tells] at h
  cases hb : S.store.boundary? b with
  | none =>
    have hlt : ¬ b < S.store.boundaries.size := Nat.not_lt.2 (Array.getElem?_eq_none_iff.1 hb)
    have hstep : S.store.completeBoundary b r = (S.store.emit (.completedAgain b), []) := by
      simp only [Store.completeBoundary, hb]
    rw [hstep]
    exact Tells.record h (hl _) ((ho _).trans (if_neg hlt)) rfl hleaving
  | some x =>
    have hlt : b < S.store.boundaries.size := (Array.getElem?_eq_some_iff.1 hb).1
    rw [hb] at h
    rw [Tells, offers_record, leavers_record, resumptions_record, leaving_record, hl, ho,
      if_pos hlt, record_store, hleaving]
    cases x with
    | registering =>
      obtain ⟨hoffers, hlen, hleavers, hres⟩ := h
      have hstep : S.store.completeBoundary b r = (S.store.setBoundary b (.ready r), []) := by
        simp only [Store.completeBoundary, hb]
      have hr : Moment.resumption? b ⟨some (.complete (.boundary b) r), S.store,
          (S.store.setBoundary b (.ready r), [])⟩ = none := by
        simp [Moment.resumption?]
      rw [hstep, Store.boundary?_setBoundary hb, hr, hoffers, hleavers, hres]
      exact ⟨rfl, hlen, rfl, rfl⟩
    | ready r' =>
      obtain ⟨hoffers, hlen, hleavers, hres⟩ := h
      have hstep : S.store.completeBoundary b r = (S.store.emit (.completedAgain b), []) := by
        simp only [Store.completeBoundary, hb]
      have hr : Moment.resumption? b ⟨some (.complete (.boundary b) r), S.store,
          (S.store.emit (.completedAgain b), [])⟩ = none := by
        simp [Moment.resumption?]
      have hb' : (S.store.emit (.completedAgain b)).boundary? b = some (.ready r') := hb
      rw [hstep, hb', hr, hleavers, hres]
      refine ⟨?_, hlen, rfl, rfl⟩
      rw [List.getLast?_append, hoffers]
      rfl
    | parked l =>
      obtain ⟨hoffers, hnone, hleavers, hres⟩ := h
      have hstep : S.store.completeBoundary b r =
          ((S.store.setBoundary b .resumed).emit (.resumed b),
            [.work (.looking (.result r)) l]) := by
        simp only [Store.completeBoundary, hb]
      have hb' : ((S.store.setBoundary b .resumed).emit (.resumed b)).boundary? b =
          some .resumed := Store.boundary?_setBoundary hb
      have hr : Moment.resumption? b ⟨some (.complete (.boundary b) r), S.store,
          ((S.store.setBoundary b .resumed).emit (.resumed b),
            [.work (.looking (.result r)) l])⟩ = some (r, l) := by
        simp [Moment.resumption?, ho, hlt]
      rw [hstep, hb', hr, hoffers, hnone, hleavers, hres]
      exact ⟨rfl, r, l, rfl, rfl, rfl⟩
    | resumed =>
      obtain ⟨hnone, r', l, hoffers, hleavers, hres⟩ := h
      have hstep : S.store.completeBoundary b r = (S.store.emit (.completedAgain b), []) := by
        simp only [Store.completeBoundary, hb]
      have hr : Moment.resumption? b ⟨some (.complete (.boundary b) r), S.store,
          (S.store.emit (.completedAgain b), [])⟩ = none := by
        simp [Moment.resumption?]
      have hb' : (S.store.emit (.completedAgain b)).boundary? b = some .resumed := hb
      rw [hstep, hb', hr, hnone, hleavers, hres]
      refine ⟨rfl, r', l, ?_, rfl, rfl⟩
      rw [List.getLast?_append, hoffers]
      rfl

/-- Any other call leaves the boundary as it is, or opens it for its loop. -/
theorem Tells.call (h : S.Tells b) {a : Activity} (hS : S.calls = xs ++ a :: ys)
    (hl : ∀ b, a.leaver? b = none) (ho : ∀ b, a.offer? b = none) :
    (S.record (some a) (a.step S.store) (xs ++ ys)).Tells b := by
  have hleaving : (xs ++ ys).filterMap (·.leaver? b) = S.leaving b := by
    simp [leaving, hS, hl b]
  have hl' : Moment.leaver? b ⟨some a, S.store, a.step S.store⟩ = none := hl b
  have ho' : Moment.offer? b ⟨some a, S.store, a.step S.store⟩ = none := by
    simp [Moment.offer?, ho b]
  obtain hb | ⟨l, hb⟩ := a.step_opens S.store hl ho
  · refine h.record hl' ho' (hb b).1 ?_
    rw [(hb b).2, hleaving, List.nil_append]
  · obtain ⟨hb, hc⟩ := hb b
    by_cases hbs : b = S.store.boundaries.size
    · subst hbs
      have hr : Moment.resumption? S.store.boundaries.size
          ⟨some a, S.store, a.step S.store⟩ = none := by
        simp [Moment.resumption?, hl', ho']
      rw [Tells, show S.store.boundary? S.store.boundaries.size = none from
        Array.getElem?_eq_none (Nat.le_refl _)] at h
      obtain ⟨hoffers, hnone, hleavers, hres⟩ := h
      rw [Tells, offers_record, leavers_record, resumptions_record, leaving_record, hl', ho', hr,
        hc, if_pos rfl, hleaving, hoffers, hnone, hleavers, hres, record_store, hb, if_pos rfl]
      exact ⟨rfl, rfl, rfl, rfl⟩
    · refine h.record hl' ho' ?_ ?_
      · rw [hb, if_neg hbs]
      · rw [hc, if_neg hbs, hleaving, List.nil_append]

end Call

/-- A call about another boundary leaves this one as it is. -/
theorem Tells.other {S : Session} {xs ys : List Activity} {b : BoundaryId} (h : S.Tells b)
    {a : Activity} (hS : S.calls = xs ++ a :: ys) (hl : a.leaver? b = none)
    (ho : a.offer? b = none) {next : Next}
    (hb : next.1.boundary? b = S.store.boundary? b)
    (hc : next.2.filterMap (·.leaver? b) = []) :
    (S.record (some a) next (xs ++ ys)).Tells b := by
  refine h.record hl (by simp [Moment.offer?, ho]) hb ?_
  simp [leaving, hS, hl, hc]

/-- **The state of a boundary tells the truth about its past**, in every reachable state. -/
theorem tells (b : BoundaryId) (cs : List Choice) : (after cs).Tells b := by
  refine invariant (P := Tells b) ⟨rfl, rfl, rfl, rfl⟩ ?_ ?_ cs
  · intro cs i h
    have hi := i.step_aside (after cs).store
    refine h.record rfl (by simp [Moment.offer?]) (hi.boundary? b) ?_
    rw [filterMap_leaver?_of_apart hi.apart]
    rfl
  intro cs a xs ys hS h
  cases a with
  | work s l =>
    cases s with
    | leaving b' =>
      by_cases hb : b = b'
      · subst hb
        exact h.leave hS
      · have hother := Store.leave_other (l := l) (σ := (after cs).store) hb
        exact h.other hS (by simp [Activity.leaver?, Ne.symm hb]) rfl hother.1 hother.2
    | _ => exact h.call hS (fun _ => rfl) (fun _ => rfl)
  | complete c r =>
    cases c with
    | boundary b' =>
      by_cases hb : b = b'
      · subst hb
        exact h.complete hS
      · have hother := Store.completeBoundary_other (r := r) (σ := (after cs).store) hb
        exact h.other hS rfl (by simp [Activity.offer?, Ne.symm hb]) hother.1 hother.2
    | _ => exact h.call hS (fun _ => rfl) (fun _ => rfl)
  | _ => exact h.call hS (fun _ => rfl) (fun _ => rfl)

/-! ## Consequences -/

/-- **No loop comes to a boundary that was left before.** -/
theorem leaving_open {cs : List Choice} {b : BoundaryId} {l : Loop}
    (h : .work (.leaving b) l ∈ (after cs).calls) :
    (after cs).store.boundary? b = some .registering ∨
      ∃ r, (after cs).store.boundary? b = some (.ready r) := by
  have hsome : (after cs).leaving b ≠ [] := by
    have : l ∈ (after cs).leaving b :=
      List.mem_filterMap.2 ⟨_, h, by simp [Activity.leaver?]⟩
    exact List.ne_nil_of_mem this
  have ht := tells b cs
  rw [Tells] at ht
  cases hb : (after cs).store.boundary? b with
  | none =>
    rw [hb] at ht
    exact absurd ht.2.1 hsome
  | some x =>
    rw [hb] at ht
    cases x with
    | registering => exact .inl rfl
    | ready r => exact .inr ⟨r, rfl⟩
    | parked l' => exact absurd ht.2.1 hsome
    | resumed => exact absurd ht.1 hsome

/-- At most one loop comes to a boundary. -/
theorem length_leavers_le_one (b : BoundaryId) (cs : List Choice) :
    ((after cs).leavers b).length ≤ 1 := by
  have ht := tells b cs
  rw [Tells] at ht
  cases hb : (after cs).store.boundary? b with
  | none => simp [(hb ▸ ht : Boundary.Tells _ _ _ _ none).2.2.1]
  | some x =>
    rw [hb] at ht
    cases x with
    | registering => simp [ht.2.2.1]
    | ready r => simp [ht.2.2.1]
    | parked l => simp [ht.2.2.1]
    | resumed =>
      obtain ⟨-, r, l, -, hleavers, -⟩ := ht
      simp [hleavers]

/-- **A loop goes on from its boundary once it has come there and a result was offered, and it gets
the first result that was offered.** -/
theorem resumptions_eq (b : BoundaryId) (cs : List Choice) :
    (after cs).resumptions b =
      (((after cs).offers b).getLast?.bind fun r =>
        ((after cs).leavers b).head?.map fun l => (r, l)).toList := by
  have ht := tells b cs
  rw [Tells] at ht
  cases hb : (after cs).store.boundary? b with
  | none =>
    rw [hb] at ht
    simp [ht.1, ht.2.2.2]
  | some x =>
    rw [hb] at ht
    cases x with
    | registering => simp [ht.1, ht.2.2.2]
    | ready r => simp [ht.2.2.1, ht.2.2.2]
    | parked l => simp [ht.1, ht.2.2.2]
    | resumed =>
      obtain ⟨-, r, l, hoffers, hleavers, hres⟩ := ht
      simp [hoffers, hleavers, hres]

/-- A result that is offered after another one changes nothing. -/
theorem completeBoundary_of_offered {cs : List Choice} {b : BoundaryId}
    (h : (after cs).offers b ≠ []) (r : Result) :
    (after cs).store.completeBoundary b r =
      ((after cs).store.emit (.completedAgain b), []) := by
  have ht := tells b cs
  rw [Tells] at ht
  unfold Store.completeBoundary
  split
  · rename_i hb
    rw [hb] at ht
    exact absurd ht.1 h
  · rename_i l hb
    rw [hb] at ht
    exact absurd ht.1 h
  · rfl

end Session

end CancelableEffects
