import CancelableEffects.Proofs.Boundaries

/-!
# Executions — each one is at work, waits, or has delivered its result

* `Session.working`, `Session.parked`, `Session.delivering`, `Session.delivered`: the calls at work
  on an execution, the boundaries where it waits, the deliveries of its result that are due, and
  those that have been made.
* `Session.Began`: an execution began with a sink.
* **`Session.ledger`**: exactly one of them holds an execution, at every moment.
* **`Session.began_of_delivered`**: a result goes to the sink with which its execution began.
* **`Session.single_resumption_and_delivery`**: what holds of all executions and boundaries.
-/

namespace CancelableEffects

/-! ## Who holds an execution -/

/-- The call is at work on the execution. -/
def Activity.worksOn (e : ExecutionId) : Activity → Bool
  | .work _ l => l.id == e
  | _ => false

/-- The call delivers the result of the execution. -/
def Activity.delivers (e : ExecutionId) : Activity → Bool
  | .deliver e' _ _ => e' == e
  | _ => false

/-- The execution waits at the boundary. -/
def Boundary.parks (e : ExecutionId) : Boundary → Bool
  | .parked l => l.id == e
  | _ => false

/-- At how many boundaries the execution waits. -/
def Store.parked (e : ExecutionId) (σ : Store) : Nat := σ.boundaries.cells.countP (·.parks e)

/-- The result of the execution was delivered at this moment. -/
def Moment.delivers (e : ExecutionId) (m : Moment) : Bool := m.call.any (·.delivers e)

namespace Session

/-- How many calls are at work on the execution. -/
def working (e : ExecutionId) (S : Session) : Nat := S.calls.countP (·.worksOn e)

/-- At how many boundaries the execution waits. -/
def parked (e : ExecutionId) (S : Session) : Nat := S.store.parked e

/-- How many deliveries of the execution's result are due. -/
def delivering (e : ExecutionId) (S : Session) : Nat := S.calls.countP (·.delivers e)

/-- How many times the result of the execution was delivered. -/
def delivered (e : ExecutionId) (S : Session) : Nat := S.past.countP (·.delivers e)

/-- How many hold the execution. -/
def holders (e : ExecutionId) (S : Session) : Nat :=
  S.working e + S.parked e + S.delivering e + S.delivered e

end Session

/-! ## One step -/

@[simp] theorem Activity.worksOn_work (e : ExecutionId) (s : Stage) (l : Loop) :
    (Activity.work s l).worksOn e = (l.id == e) := rfl

@[simp] theorem Activity.delivers_work (e : ExecutionId) (s : Stage) (l : Loop) :
    (Activity.work s l).delivers e = false := rfl

@[simp] theorem Activity.worksOn_deliver (e e' : ExecutionId) (k : Sink) (r : Result) :
    (Activity.deliver e' k r).worksOn e = false := rfl

@[simp] theorem Activity.delivers_deliver (e e' : ExecutionId) (k : Sink) (r : Result) :
    (Activity.deliver e' k r).delivers e = (e' == e) := rfl

section Step

variable {e : ExecutionId} {b : BoundaryId} {σ : Store}

theorem Activity.worksOn_of_apart {a : Activity} (h : a.Apart) : a.worksOn e = false := by
  cases a with
  | work s l => exact h.elim
  | _ => rfl

theorem Activity.delivers_of_apart {a : Activity} (h : a.Apart) : a.delivers e = false := by
  cases a with
  | deliver e k r => exact h.elim
  | _ => rfl

theorem countP_worksOn_of_apart {calls : List Activity} (h : ∀ a ∈ calls, a.Apart) :
    calls.countP (·.worksOn e) = 0 :=
  List.countP_eq_zero.2 fun a ha => by simp [Activity.worksOn_of_apart (h a ha)]

theorem countP_delivers_of_apart {calls : List Activity} (h : ∀ a ∈ calls, a.Apart) :
    calls.countP (·.delivers e) = 0 :=
  List.countP_eq_zero.2 fun a ha => by simp [Activity.delivers_of_apart (h a ha)]

theorem Store.parked_setBoundary {x y : Boundary} (h : σ.boundary? b = some y) :
    (σ.setBoundary b x).parked e + (if y.parks e then 1 else 0) =
      σ.parked e + if x.parks e then 1 else 0 := by
  obtain ⟨hlt, rfl⟩ := Array.getElem?_eq_some_iff.1 h
  have hle : (if σ.boundaries.cells[b].parks e then 1 else 0) ≤
      σ.boundaries.cells.countP (·.parks e) := by
    split
    · rename_i hp
      exact Array.countP_pos_iff.2 ⟨_, Array.getElem_mem hlt, hp⟩
    · exact Nat.zero_le _
  simp only [Store.parked, Store.setBoundary, Boundaries.set, Array.setIfInBounds, hlt, dif_pos,
    Array.countP_set]
  omega

theorem countP_parks_push (cells : Array Boundary) :
    (cells.push .registering).countP (·.parks e) = cells.countP (·.parks e) := by
  simp [Boundary.parks]

@[simp] theorem Store.parked_emit (v : Event) : (σ.emit v).parked e = σ.parked e := rfl

/-- The step begins no execution, and before and after it the execution `e` is held equally
often. -/
def Next.Holds (e : ExecutionId) (a : Activity) (σ : Store) (next : Next) : Prop :=
  next.1.executions = σ.executions ∧
    next.2.countP (·.worksOn e) + next.1.parked e + next.2.countP (·.delivers e) =
      (if a.worksOn e then 1 else 0) + σ.parked e

theorem Next.Aside.holds {a : Activity} {next : Next} (h : next.Aside σ)
    (ha : a.worksOn e = false) : next.Holds e a σ := by
  have hparked : next.1.parked e = σ.parked e := by
    rw [Store.parked, h.cells]
    rfl
  refine ⟨h.executions, ?_⟩
  rw [countP_worksOn_of_apart h.apart, countP_delivers_of_apart h.apart, hparked, ha]
  rfl

/-- A turn leaves the execution with its loop. -/
theorem Turn.Opens.holds {t : Turn} {s : Stage} {l l' : Loop} (h : t.Opens σ)
    (hid : l'.id = l.id) : (t.on l').Holds e (.work s l) σ := by
  have hparked : t.store.parked e = σ.parked e := by
    obtain ⟨hb, -⟩ | ⟨hb, -⟩ := h.cells <;> rw [Store.parked, hb]
    · rfl
    · exact countP_parks_push _
  refine ⟨h.executions, ?_⟩
  simp [Turn.on, countP_worksOn_of_apart h.apart, countP_delivers_of_apart h.apart, hparked, hid]

/-- A boundary that is still open keeps the loop that comes, or gives it back at once. -/
theorem Store.leave_holds {l : Loop} (h : σ.boundary? b = some .registering ∨
    ∃ r, σ.boundary? b = some (.ready r)) :
    (σ.leave b l).Holds e (.work (.leaving b) l) σ := by
  obtain h | ⟨r, h⟩ := h
  · have hp := Store.parked_setBoundary (e := e) (x := .parked l) h
    simp only [Store.leave, h]
    refine ⟨rfl, ?_⟩
    simp_all [Boundary.parks, Nat.add_comm]
  · have hp := Store.parked_setBoundary (e := e) (x := .resumed) h
    simp only [Store.leave, h]
    refine ⟨rfl, ?_⟩
    simp_all [Boundary.parks]

/-- A completion gives the loop back that waits at the boundary. -/
theorem Store.completeBoundary_holds {r : Result} :
    (σ.completeBoundary b r).Holds e (.complete (.boundary b) r) σ := by
  unfold Store.completeBoundary
  split
  · rename_i h
    have hp := Store.parked_setBoundary (e := e) (x := .ready r) h
    refine ⟨rfl, ?_⟩
    simp_all [Boundary.parks, Activity.worksOn]
  · rename_i l h
    have hp := Store.parked_setBoundary (e := e) (x := .resumed) h
    refine ⟨rfl, ?_⟩
    simp_all [Boundary.parks, Activity.worksOn, Nat.add_comm]
  · exact ⟨rfl, by simp [Activity.worksOn]⟩

/-- A loop at work is delivered, goes on, or waits at its boundary. -/
theorem Loop.step_holds {s : Stage} {l : Loop} (h : ∀ b, s = .leaving b →
    σ.boundary? b = some .registering ∨ ∃ r, σ.boundary? b = some (.ready r)) :
    (l.step s σ).Holds e (.work s l) σ := by
  obtain ⟨r, hr, -⟩ | ⟨t, fs, ht, hopens, -⟩ | ⟨b, rfl⟩ := l.step_cases s σ
  · rw [hr]
    refine ⟨rfl, ?_⟩
    simp [Nat.add_comm]
  · rw [ht]
    exact hopens.holds rfl
  · exact Store.leave_holds (h b rfl)

/-- A call that is not the start of an execution leaves every execution where it is. -/
theorem Activity.step_holds {a : Activity} (hs : ∀ n link k, a ≠ .start n link k)
    (h : ∀ b l, a = .work (.leaving b) l →
      σ.boundary? b = some .registering ∨ ∃ r, σ.boundary? b = some (.ready r)) :
    (a.step σ).Holds e a σ := by
  cases a with
  | start n link k => exact absurd rfl (hs n link k)
  | work s l => exact Loop.step_holds fun b hb => h b l (by rw [hb])
  | complete c r =>
    cases c with
    | boundary b => exact Store.completeBoundary_holds
    | callback b => exact (σ.completeCallback_aside b r).holds rfl
    | step s source => exact (σ.completeStep_aside s source r).holds rfl
  | _ => exact Next.Aside.holds (Activity.step_aside (by trivial) σ) rfl

end Step

/-! ## The ledger -/

namespace Session

theorem holders_record {S : Session} {e : ExecutionId} {a : Activity} {xs ys : List Activity}
    (next : Next) (hS : S.calls = xs ++ a :: ys) :
    (S.record (some a) next (xs ++ ys)).holders e + (if a.worksOn e then 1 else 0) + S.parked e =
      S.holders e + next.2.countP (·.worksOn e) + next.1.parked e +
        next.2.countP (·.delivers e) := by
  simp only [holders, working, parked, delivering, delivered, record_calls, record_store,
    record_past, hS, List.countP_append, List.countP_cons, Moment.delivers, Option.any_some]
  omega

/-- A call that is pending and begins no execution leaves every execution where it is. -/
theorem step_holds {e : ExecutionId} {cs : List Choice} {a : Activity} {xs ys : List Activity}
    (hS : (after cs).calls = xs ++ a :: ys) (hs : ¬∃ n link k, a = .start n link k) :
    (a.step (after cs).store).Holds e a (after cs).store :=
  Activity.step_holds (fun n link k ha => hs ⟨n, link, k, ha⟩) fun b l ha =>
    leaving_open (l := l) (by rw [hS, ha]; simp)

/-- **Every execution that has begun is held exactly once**: a call is at work on it, or it waits at
one boundary, or its result is delivered, once. -/
theorem ledger (e : ExecutionId) (cs : List Choice) :
    (after cs).holders e = if e < (after cs).store.executions then 1 else 0 := by
  refine invariant (P := fun S => S.holders e = if e < S.store.executions then 1 else 0)
    rfl ?_ ?_ cs
  · intro cs i h
    have hi := i.step_aside (after cs).store
    have hparked : (i.step (after cs).store).1.parked e = (after cs).store.parked e := by
      rw [Store.parked, hi.cells]
      rfl
    rw [record_store, hi.executions, ← h]
    simp [holders, working, parked, delivering, delivered, Moment.delivers, hparked,
      countP_worksOn_of_apart hi.apart, countP_delivers_of_apart hi.apart]
  intro cs a xs ys hS h
  have hrecord := holders_record (e := e) (a.step (after cs).store) hS
  by_cases hs : ∃ n link k, a = .start n link k
  · obtain ⟨n, link, k, rfl⟩ := hs
    have hworks : ((Activity.start n link k).step (after cs).store).2.countP (·.worksOn e) =
        if (after cs).store.executions = e then 1 else 0 := by
      simp [Activity.step, Store.begin]
    have hdelivers :
        ((Activity.start n link k).step (after cs).store).2.countP (·.delivers e) = 0 := rfl
    have hparked : ((Activity.start n link k).step (after cs).store).1.parked e =
        (after cs).parked e := rfl
    have hexecutions : ((Activity.start n link k).step (after cs).store).1.executions =
        (after cs).store.executions + 1 := rfl
    have hnot : (Activity.start n link k).worksOn e = false := rfl
    rw [record_store, hexecutions]
    rw [hworks, hdelivers, hparked, hnot, h] at hrecord
    simp only [Bool.false_eq_true, if_false] at hrecord
    obtain hlt | heq | hgt := Nat.lt_trichotomy e (after cs).store.executions
    · rw [if_pos hlt, if_neg (Nat.ne_of_gt hlt)] at hrecord
      rw [if_pos (Nat.lt_succ_of_lt hlt)]
      omega
    · rw [if_neg (Nat.not_lt.2 (Nat.le_of_eq heq.symm)), if_pos heq.symm] at hrecord
      rw [if_pos (Nat.lt_succ_of_le (Nat.le_of_eq heq))]
      omega
    · rw [if_neg (Nat.not_lt_of_gt hgt), if_neg (Nat.ne_of_lt hgt)] at hrecord
      rw [if_neg (Nat.not_lt.2 hgt)]
      omega
  · have hstep := step_holds (e := e) hS hs
    have hparked : (after cs).parked e = (after cs).store.parked e := rfl
    rw [record_store, hstep.1, ← h]
    have := hstep.2
    omega

/-- No execution is forgotten. -/
theorem executions_le (cs₀ cs : List Choice) :
    (after cs₀).store.executions ≤ (after (cs ++ cs₀)).store.executions := by
  refine invariant_from (P := fun S => (after cs₀).store.executions ≤ S.store.executions)
    (Nat.le_refl _) ?_ ?_ cs
  · intro cs i h
    rw [record_store, (i.step_aside _).executions]
    exact h
  · intro cs a xs ys hS h
    by_cases hs : ∃ n link k, a = .start n link k
    · obtain ⟨n, link, k, rfl⟩ := hs
      exact Nat.le_succ_of_le h
    · rw [record_store, (step_holds (e := 0) hS hs).1]
      exact h

end Session

/-! ## Sinks -/

section Sinks

variable {K : ExecutionId → Sink → Prop} {σ : Store}

/-- The call works on an execution, or delivers its result, for a sink with which it may go. -/
def Activity.Entrusts (K : ExecutionId → Sink → Prop) : Activity → Prop
  | .work _ l => K l.id l.sink
  | .deliver e k _ => K e k
  | _ => True

/-- The loops that wait do so for sinks with which they may go. -/
def Store.Entrusts (K : ExecutionId → Sink → Prop) (σ : Store) : Prop :=
  ∀ (b : BoundaryId) (l : Loop), σ.boundary? b = some (.parked l) → K l.id l.sink

/-- The calls and the loops that wait are for sinks with which they may go. -/
def Next.Entrusts (K : ExecutionId → Sink → Prop) (next : Next) : Prop :=
  next.1.Entrusts K ∧ ∀ a ∈ next.2, a.Entrusts K

theorem Activity.Entrusts.mono {K K' : ExecutionId → Sink → Prop} {a : Activity}
    (h : a.Entrusts K) (hk : ∀ e k, K e k → K' e k) : a.Entrusts K' := by
  cases a with
  | work s l => exact hk _ _ h
  | deliver e k r => exact hk _ _ h
  | _ => trivial

theorem Store.Entrusts.mono {K K' : ExecutionId → Sink → Prop} {σ : Store} (h : σ.Entrusts K)
    (hk : ∀ e k, K e k → K' e k) : σ.Entrusts K' := fun b l hl => hk _ _ (h b l hl)

theorem Activity.Entrusts.of_apart {a : Activity} (h : a.Apart) : a.Entrusts K := by
  cases a with
  | work s l => exact h.elim
  | deliver e k r => exact h.elim
  | _ => trivial

theorem Next.Aside.entrusts {next : Next} (h : next.Aside σ) (hσ : σ.Entrusts K) :
    next.Entrusts K :=
  ⟨fun b l hl => hσ b l (h.boundary? b ▸ hl), fun a ha => .of_apart (h.apart a ha)⟩

theorem Store.Entrusts.setBoundary {b : BoundaryId} {x : Boundary} (hσ : σ.Entrusts K)
    (hx : ∀ l, x = .parked l → K l.id l.sink) : (σ.setBoundary b x).Entrusts K := by
  intro b' l hl
  obtain ⟨-, h⟩ | h := Store.boundary?_of_setBoundary hl
  · exact hx l h.symm
  · exact hσ b' l h

/-- A turn leaves every loop with its sink. -/
theorem Turn.Opens.entrusts {t : Turn} {l : Loop} (h : t.Opens σ) (hσ : σ.Entrusts K)
    (hl : K l.id l.sink) : (t.on l).Entrusts K := by
  refine ⟨?_, ?_⟩
  · obtain ⟨hb, -⟩ | ⟨hb, -⟩ := h.cells
    · intro b l' hl'
      change t.store.boundaries.cells[b]? = _ at hl'
      rw [hb] at hl'
      exact hσ b l' hl'
    · intro b l' hl'
      change t.store.boundaries.cells[b]? = _ at hl'
      rw [hb, Array.getElem?_push] at hl'
      split at hl'
      · cases hl'
      · exact hσ b l' hl'
  · simp only [Turn.on, List.mem_append, List.mem_singleton]
    rintro a (ha | rfl)
    · exact .of_apart (h.apart a ha)
    · exact hl

theorem Store.leave_entrusts {b : BoundaryId} {l : Loop} (hσ : σ.Entrusts K)
    (hl : K l.id l.sink) : (σ.leave b l).Entrusts K := by
  unfold Store.leave
  split
  · exact ⟨hσ.setBoundary (by simp), by simpa [Activity.Entrusts] using hl⟩
  · refine ⟨hσ.setBoundary ?_, by simp⟩
    rintro l' ⟨⟩
    exact hl
  · exact ⟨hσ, by simp⟩

theorem Store.completeBoundary_entrusts {b : BoundaryId} {r : Result} (hσ : σ.Entrusts K) :
    (σ.completeBoundary b r).Entrusts K := by
  unfold Store.completeBoundary
  split
  · exact ⟨hσ.setBoundary (by simp), by simp⟩
  · rename_i l h
    exact ⟨hσ.setBoundary (by simp), by simpa [Activity.Entrusts] using hσ b l h⟩
  · exact ⟨hσ, by simp⟩

/-- No call changes the sink of an execution. -/
theorem Activity.step_entrusts {a : Activity} (ha : a.Entrusts K) (hσ : σ.Entrusts K)
    (hs : ∀ n link k, a = .start n link k → K σ.executions k) : (a.step σ).Entrusts K := by
  cases a with
  | start n link k =>
    refine ⟨hσ, ?_⟩
    simpa [Activity.step, Activity.Entrusts, Store.begin] using hs n link k rfl
  | work s l =>
    obtain ⟨r, hr, -⟩ | ⟨t, fs, ht, hopens, -⟩ | ⟨b, rfl⟩ := l.step_cases s σ
    · simp only [Activity.step, hr]
      exact ⟨hσ, by simpa [Activity.Entrusts] using ha⟩
    · simp only [Activity.step, ht]
      exact hopens.entrusts hσ ha
    · exact Store.leave_entrusts hσ ha
  | complete c r =>
    cases c with
    | boundary b => exact Store.completeBoundary_entrusts hσ
    | callback b => exact (σ.completeCallback_aside b r).entrusts hσ
    | step s source => exact (σ.completeStep_aside s source r).entrusts hσ
  | _ => exact Next.Aside.entrusts (Activity.step_aside (by trivial) σ) hσ

end Sinks

namespace Session

/-- The execution began with the sink. -/
def Began (e : ExecutionId) (k : Sink) (S : Session) : Prop :=
  ∃ m ∈ S.past, (∃ n link, m.call = some (.start n link k)) ∧ m.before.executions = e

theorem began_record {S : Session} {e : ExecutionId} {k : Sink} {call : Option Activity}
    {next : Next} {others : List Activity} : (S.record call next others).Began e k ↔
      (∃ n link, call = some (.start n link k)) ∧ S.store.executions = e ∨ S.Began e k := by
  simp [Began]

/-- Only executions that have begun began with a sink. -/
theorem began_lt {e : ExecutionId} {k : Sink} {cs : List Choice} (h : (after cs).Began e k) :
    e < (after cs).store.executions := by
  revert h
  refine invariant (P := fun S => S.Began e k → e < S.store.executions) ?_ ?_ ?_ cs
  · simp [Began]
  · intro cs i h
    rw [began_record, record_store, (i.step_aside _).executions]
    simpa using h
  intro cs a xs ys hS h
  rw [began_record, record_store]
  by_cases hs : ∃ n link k, a = .start n link k
  · obtain ⟨n, link, k', rfl⟩ := hs
    change _ → e < (after cs).store.executions + 1
    rintro (⟨-, rfl⟩ | hb)
    · exact Nat.lt_succ_self _
    · exact Nat.lt_succ_of_lt (h hb)
  · rw [(step_holds (e := e) hS hs).1]
    rintro (⟨⟨n, link, ha⟩, -⟩ | hb)
    · exact absurd ⟨n, link, k, Option.some.inj ha⟩ hs
    · exact h hb

/-- An execution begins once, with one sink. -/
theorem began_unique {e : ExecutionId} {k k' : Sink} {cs : List Choice}
    (h : (after cs).Began e k) (h' : (after cs).Began e k') : k = k' := by
  revert h h'
  refine invariant (P := fun S => S.Began e k → S.Began e k' → k = k') ?_ ?_ ?_ cs
  · simp [Began]
  · intro cs i h
    simpa [began_record] using h
  intro cs a xs ys hS h
  rw [began_record, began_record]
  rintro (⟨⟨n, link, ha⟩, rfl⟩ | hb) (⟨⟨n', link', ha'⟩, he⟩ | hb')
  · cases ha.symm.trans ha'
    rfl
  · exact absurd (began_lt hb') (Nat.lt_irrefl _)
  · exact absurd (began_lt hb) (he ▸ Nat.lt_irrefl _)
  · exact h hb hb'

/-- Those that hold an execution hold it for the sink with which it began. -/
theorem entrusted (cs : List Choice) :
    (after cs).store.Entrusts (fun e k => (after cs).Began e k) ∧
      ∀ a ∈ (after cs).calls, a.Entrusts fun e k => (after cs).Began e k := by
  refine invariant (P := fun S => S.store.Entrusts (fun e k => S.Began e k) ∧
    ∀ a ∈ S.calls, a.Entrusts fun e k => S.Began e k)
    ⟨by simp [Store.Entrusts, Store.boundary?], by simp⟩ ?_ ?_ cs
  · intro cs i h
    have hnext := (i.step_aside (after cs).store).entrusts h.1
    have hmono : ∀ e k, (after cs).Began e k →
        ((after cs).record none (i.step (after cs).store) (after cs).calls).Began e k :=
      fun e k hb => began_record.2 (.inr hb)
    refine ⟨hnext.1.mono hmono, fun a ha => ?_⟩
    obtain ha | ha := List.mem_append.1 ha
    · exact (hnext.2 a ha).mono hmono
    · exact (h.2 a ha).mono hmono
  intro cs a xs ys hS h
  have hcalls : ∀ a' ∈ xs ++ a :: ys, a'.Entrusts fun e k => (after cs).Began e k := hS ▸ h.2
  have hmono : ∀ e k, (after cs).Began e k →
      ((after cs).record (some a) (a.step (after cs).store) (xs ++ ys)).Began e k :=
    fun e k hb => began_record.2 (.inr hb)
  have hnext := Activity.step_entrusts ((hcalls a (by simp)).mono hmono) (h.1.mono hmono)
    fun n link k ha => began_record.2 (.inl ⟨⟨n, link, by rw [ha]⟩, rfl⟩)
  refine ⟨hnext.1, fun a' ha' => ?_⟩
  obtain ha' | ha' := List.mem_append.1 ha'
  · exact hnext.2 a' ha'
  · refine (hcalls a' ?_).mono hmono
    simp only [List.mem_append, List.mem_cons] at ha' ⊢
    exact ha'.imp_right .inr

/-- **A result goes to the sink with which its execution began.** -/
theorem began_of_delivered {cs : List Choice} {m : Moment} (hm : m ∈ (after cs).past)
    {e : ExecutionId} {k : Sink} {r : Result} (h : m.call = some (.deliver e k r)) :
    (after cs).Began e k ∧ m.next = k.receive r m.before := by
  obtain ⟨later, earlier, hpast⟩ := List.append_of_mem hm
  obtain ⟨cs', hearlier, -, ⟨i, hi, -⟩ | ⟨a, ha, hcall, hnext⟩⟩ := exists_of_past hpast
  · cases hi.symm.trans h
  · cases hcall.symm.trans h
    refine ⟨?_, hnext⟩
    obtain ⟨m', hm', hbegan⟩ := (entrusted cs').2 _ ha
    refine ⟨m', ?_, hbegan⟩
    rw [hpast]
    exact List.mem_append_right _ (List.mem_cons_of_mem _ (hearlier ▸ hm'))

/-! ## Summary -/

/-- **In every reachable state** every execution that has begun is at work, or waits at one
boundary, or has ended, and then its result is delivered once, to the sink with which it began. At
most one loop comes to a boundary, and it goes on at most once, with the first result that was
offered there; a later result changes nothing, and no loop finds the boundary left. -/
theorem single_resumption_and_delivery (cs : List Choice) :
    (∀ e < (after cs).store.executions, (after cs).working e + (after cs).parked e +
        (after cs).delivering e + (after cs).delivered e = 1) ∧
      (∀ m ∈ (after cs).past, ∀ e k r, m.call = some (.deliver e k r) →
        m.next = k.receive r m.before ∧ ∀ k', (after cs).Began e k' ↔ k' = k) ∧
      (∀ b, ((after cs).leavers b).length ≤ 1 ∧
        (after cs).resumptions b =
          (((after cs).offers b).getLast?.bind fun r =>
            ((after cs).leavers b).head?.map fun l => (r, l)).toList) ∧
      (∀ later m earlier b r, (after cs).past = later ++ m :: earlier →
        m.call = some (.complete (.boundary b) r) → earlier.filterMap (·.offer? b) ≠ [] →
        m.next = (m.before.emit (.completedAgain b), [])) ∧
      ∀ m ∈ (after cs).past, ∀ b l, m.call = some (.work (.leaving b) l) →
        m.before.boundary? b = some .registering ∨
          ∃ r, m.before.boundary? b = some (.ready r) := by
  refine ⟨fun e he => ?_, fun m hm e k r h => ?_, fun b => ⟨length_leavers_le_one b cs,
    resumptions_eq b cs⟩, fun later m earlier b r hpast h hoffers => ?_, fun m hm b l h => ?_⟩
  · exact (ledger e cs).trans (if_pos he)
  · obtain ⟨hbegan, hnext⟩ := began_of_delivered hm h
    refine ⟨hnext, fun k' => ⟨fun hk' => began_unique hk' hbegan, ?_⟩⟩
    rintro rfl
    exact hbegan
  · obtain ⟨cs', rfl, hbefore, ⟨i, hi, -⟩ | ⟨a, -, hcall, hnext⟩⟩ := exists_of_past hpast
    · cases hi.symm.trans h
    · cases hcall.symm.trans h
      rw [hnext, hbefore]
      exact completeBoundary_of_offered hoffers r
  · obtain ⟨later, earlier, hpast⟩ := List.append_of_mem hm
    obtain ⟨cs', -, hbefore, ⟨i, hi, -⟩ | ⟨a, ha, hcall, -⟩⟩ := exists_of_past hpast
    · cases hi.symm.trans h
    · cases hcall.symm.trans h
      rw [hbefore]
      exact leaving_open ha

/-- A registration that answers and then panics, up to the end of its run. -/
def answeredTwice : List Choice :=
  List.replicate 12 (.call 0) ++
    [.input (.run (.connected fun _ c => .answer c (.ok .unit) (.panic "late")) none false)]

theorem answeredTwice_delivers_once :
    (0 < (after answeredTwice).store.executions ∧
        (after answeredTwice).working 0 + (after answeredTwice).parked 0 +
          (after answeredTwice).delivering 0 + (after answeredTwice).delivered 0 = 1) ∧
      (∃ m ∈ (after answeredTwice).past, m.call = some (.deliver 0 (.observer 0) (.ok .unit)) ∧
        m.next = (Sink.observer 0).receive (.ok .unit) m.before) ∧
      (∃ m ∈ (after answeredTwice).past,
        m.call = some (.complete (.boundary 0) (.error (.panic "late"))) ∧
          m.next = (m.before.emit (.completedAgain 0), [])) ∧
      ∃ m ∈ (after answeredTwice).past, ∃ l, m.call = some (.work (.leaving 0) l) ∧
        (m.before.boundary? 0 = some .registering ∨
          ∃ r, m.before.boundary? 0 = some (.ready r)) := by
  obtain ⟨hheld, hdelivered, -, hlater, hopen⟩ := single_resumption_and_delivery answeredTwice
  refine ⟨⟨by decide, hheld 0 (by decide)⟩, ⟨_, List.mem_cons_self, rfl,
    (hdelivered _ List.mem_cons_self _ _ _ rfl).1⟩, ?_, ?_⟩
  · exact ⟨_, .tail _ (.tail _ (.tail _ (.tail _ List.mem_cons_self))), rfl,
      hlater [_, _, _, _] _ _ _ _ rfl rfl (List.cons_ne_nil _ _)⟩
  · exact ⟨_, .tail _ (.tail _ (.tail _ List.mem_cons_self)), _, rfl,
      hopen _ (.tail _ (.tail _ (.tail _ List.mem_cons_self))) _ _ rfl⟩

end Session

end CancelableEffects
