import CancelableEffects.Proofs.Growth

/-!
# Permits — what a semaphore gives out and gets back

* `Semaphore.Request`, `Semaphore.serve`: what is asked of a semaphore, and the semaphore after some
  requests.
* `Semaphore.returned`, `Semaphore.wanted`, `Semaphore.taken`: the permits that were released, asked
  for with a wait, and taken without one.
* `Semaphore.Sound`: no permit is free while somebody waits, and who waits misses permits.
* **`Semaphore.balance_serve`**: no permit is lost.
* **`Activity.step_semaphores`**: a step makes at most one request.
* **`Session.serves`**: a semaphore is what the requests made of it.
* **`Session.permits_conserved`**: what holds of every semaphore, in every reachable state.
-/

namespace CancelableEffects

namespace Semaphore

variable {T : Type}

/-- What is asked of a semaphore. -/
inductive Request (T : Type) where
  /-- Permits, with a wait known by the ticket if they are not there. -/
  | acquire (n : Nat) (ticket : T)
  /-- Permits that are there. -/
  | tryAcquire (n : Nat)
  /-- To take permits back. -/
  | release (n : Nat)

/-- The semaphore after a request. -/
def grant (s : Semaphore T) : Request T → Semaphore T
  | .acquire n ticket => (s.acquire n ticket).1
  | .tryAcquire n => (s.tryAcquire n).1
  | .release n => (s.release n).1

/-- A semaphore that held `n` permits after some requests, the latest first. -/
def serve (n : Nat) : List (Request T) → Semaphore T
  | [] => { available := n }
  | r :: rs => (serve n rs).grant r

/-- The permits that were released. -/
def returned : List (Request T) → Nat
  | [] => 0
  | .release n :: rs => n + returned rs
  | _ :: rs => returned rs

/-- The permits that were asked for with a wait, granted or not. -/
def wanted : List (Request T) → Nat
  | [] => 0
  | .acquire n _ :: rs => n + wanted rs
  | _ :: rs => wanted rs

/-- The permits that were taken without a wait, from a semaphore that held `n` at first. -/
def taken (n : Nat) : List (Request T) → Nat
  | [] => 0
  | .tryAcquire k :: rs => (if ((serve n rs).tryAcquire k).2 then k else 0) + taken n rs
  | _ :: rs => taken n rs

/-- The tickets of those who asked for permits with a wait. -/
def tickets : List (Request T) → List T
  | [] => []
  | .acquire _ ticket :: rs => ticket :: tickets rs
  | _ :: rs => tickets rs

/-- No permit is free while somebody waits, and who waits misses permits, but not more than were
asked for. -/
structure Sound (rs : List (Request T)) (s : Semaphore T) : Prop where
  available : s.waiting ≠ [] → s.available = 0
  waiting : ∀ w ∈ s.waiting, 0 < w.missing ∧ ∃ n, .acquire n w.ticket ∈ rs ∧ w.missing ≤ n

/-! ## One request -/

section Grant

variable {s : Semaphore T} {rs : List (Request T)}

/-- Permits are had without a wait only while nobody waits and enough are free; asking for none is
always admitted. -/
theorem admits_eq_true {n : Nat} :
    s.admits n = true ↔ n = 0 ∨ s.waiting = [] ∧ n ≤ s.available := by
  simp [admits]

theorem not_admits_of_waiting {n : Nat} (hn : 0 < n) (hw : s.waiting ≠ []) :
    s.admits n = false := by
  rw [Bool.eq_false_iff, Ne, admits_eq_true]
  rintro (rfl | ⟨h, -⟩)
  · exact Nat.lt_irrefl 0 hn
  · exact hw h

/-- Permits that are admitted are there. -/
theorem le_of_admits {n : Nat} (hn : s.admits n = true) : n ≤ s.available := by
  obtain rfl | ⟨-, hle⟩ := admits_eq_true.1 hn
  · exact Nat.zero_le _
  · exact hle

/-- Who has to wait for permits asks for more than there are. -/
theorem Sound.lt_of_not_admits (h : s.Sound rs) {n : Nat} (hn : ¬s.admits n = true) :
    s.available < n := by
  rw [admits_eq_true, not_or, not_and] at hn
  obtain ⟨h0, hle⟩ := hn
  by_cases hw : s.waiting = []
  · exact Nat.lt_of_not_le (hle hw)
  · rw [h.available hw]
    exact Nat.pos_of_ne_zero h0

theorem Sound.cons (h : s.Sound rs) (r : Request T) : s.Sound (r :: rs) :=
  ⟨h.available, fun w hw => by
    obtain ⟨hpos, n, hn, hle⟩ := h.waiting w hw
    exact ⟨hpos, n, List.mem_cons_of_mem _ hn, hle⟩⟩

/-- What is left of a queue that was fed: those at its end, of whom the first may miss less. -/
theorem feed_waiting (n : Nat) (ws : List (Waiter T)) (hpos : ∀ w ∈ ws, 0 < w.missing) :
    ∀ w ∈ (feed n ws).2.1, 0 < w.missing ∧ ∃ w' ∈ ws, w'.ticket = w.ticket ∧ w.missing ≤ w'.missing := by
  induction ws generalizing n with
  | nil => simp [feed]
  | cons w₀ ws ih =>
    obtain ⟨hw₀, hws⟩ := List.forall_mem_cons.1 hpos
    intro w hw
    unfold feed at hw
    split at hw
    · exact ⟨hpos w hw, w, hw, rfl, Nat.le_refl _⟩
    · split at hw
      · rename_i hlt
        obtain rfl | hw := List.mem_cons.1 hw
        · exact ⟨Nat.sub_pos_of_lt hlt, w₀, List.mem_cons_self, rfl, Nat.sub_le _ _⟩
        · exact ⟨hws w hw, w, List.mem_cons_of_mem _ hw, rfl, Nat.le_refl _⟩
      · obtain ⟨hpos', w', hw', hle⟩ := ih (n - w₀.missing) hws w hw
        exact ⟨hpos', w', List.mem_cons_of_mem _ hw', hle⟩

/-- Permits are left over only if nobody is left in the queue. -/
theorem feed_left (n : Nat) (ws : List (Waiter T)) : (feed n ws).2.1 ≠ [] → (feed n ws).1 = 0 := by
  induction ws generalizing n with
  | nil => simp [feed]
  | cons w ws ih =>
    unfold feed
    split
    · exact fun _ => rfl
    · split
      · exact fun _ => rfl
      · exact ih _

theorem feed_left_le (n : Nat) (ws : List (Waiter T)) : (feed n ws).1 ≤ n := by
  induction ws generalizing n with
  | nil => exact Nat.le_refl n
  | cons w ws ih =>
    unfold feed
    split
    · exact Nat.zero_le n
    · split
      · exact Nat.zero_le n
      · exact Nat.le_trans (ih _) (Nat.sub_le _ _)

theorem Sound.release (h : s.Sound rs) (n : Nat) : (s.release n).1.Sound (.release n :: rs) := by
  have hpos : ∀ w ∈ s.waiting, 0 < w.missing := fun w hw => (h.waiting w hw).1
  refine ⟨fun hw => ?_, fun w hw => ?_⟩
  · have hleft := feed_left n s.waiting hw
    have hqueue : s.waiting ≠ [] := by
      intro hnil
      simp [Semaphore.release, hnil, feed] at hw
    change s.available + (feed n s.waiting).1 = 0
    rw [hleft, h.available hqueue]
  · obtain ⟨hmissing, w', hw', hticket, hle⟩ := feed_waiting n s.waiting hpos w hw
    obtain ⟨-, k, hk, hle'⟩ := h.waiting w' hw'
    exact ⟨hmissing, k, List.mem_cons_of_mem _ (hticket ▸ hk), Nat.le_trans hle hle'⟩

/-- Taking permits that are there leaves the queue as it is. -/
theorem Sound.take (h : s.Sound rs) (n : Nat) :
    Sound rs { s with available := s.available - n } := by
  refine ⟨fun hw => ?_, h.waiting⟩
  change s.available - n = 0
  rw [h.available hw, Nat.zero_sub]

theorem Sound.acquire (h : s.Sound rs) (n : Nat) (ticket : T) :
    (s.acquire n ticket).1.Sound (.acquire n ticket :: rs) := by
  unfold Semaphore.acquire
  split
  · exact (h.take n).cons _
  · rename_i hn
    refine ⟨fun _ => rfl, fun w hw => ?_⟩
    obtain hw | hw := List.mem_append.1 hw
    · exact (h.cons _).waiting w hw
    · have hlt := h.lt_of_not_admits hn
      rw [List.mem_singleton.1 hw]
      exact ⟨Nat.sub_pos_of_lt hlt, n, List.mem_cons_self, Nat.sub_le _ _⟩

theorem Sound.tryAcquire (h : s.Sound rs) (n : Nat) :
    (s.tryAcquire n).1.Sound (.tryAcquire n :: rs) := by
  unfold Semaphore.tryAcquire
  split
  · exact (h.take n).cons _
  · exact h.cons _

theorem missingOf_append (ws ws' : List (Waiter T)) :
    missingOf (ws ++ ws') = missingOf ws + missingOf ws' := by
  induction ws with
  | nil => exact (Nat.zero_add _).symm
  | cons w ws ih =>
    simp only [List.cons_append, missingOf, ih]
    omega

end Grant

/-! ## Many requests -/

section Serve

variable (n : Nat) (rs : List (Request T))

theorem sound_serve : (serve n rs).Sound rs := by
  induction rs with
  | nil => exact ⟨fun h => absurd rfl h, fun w hw => (List.not_mem_nil hw).elim⟩
  | cons r rs ih =>
    cases r with
    | acquire k ticket => exact ih.acquire k ticket
    | tryAcquire k => exact ih.tryAcquire k
    | release k => exact ih.release k

/-- **No permit is lost**: those that are free and those that were given out are those that were there
at first, those that came back, and those that are still missing. -/
theorem balance_serve : (serve n rs).available + wanted rs + taken n rs =
    n + returned rs + (serve n rs).missing := by
  induction rs with
  | nil => rfl
  | cons r rs ih =>
    cases r with
    | acquire k ticket =>
      simp only [serve, grant, Semaphore.acquire, wanted, taken, returned]
      split
      · have hle := le_of_admits ‹_›
        simp only [missing] at ih ⊢
        omega
      · have hlt := (sound_serve n rs).lt_of_not_admits ‹_›
        simp only [missing, missingOf_append, missingOf] at ih ⊢
        omega
    | tryAcquire k =>
      simp only [serve, grant, Semaphore.tryAcquire, wanted, taken, returned]
      split
      · have hle := le_of_admits ‹_›
        simp only [missing, if_true] at ih ⊢
        omega
      · simp only [Bool.false_eq_true, if_false]
        omega
    | release k =>
      have hfeed := feed_total k (serve n rs).waiting
      change (serve n rs).available + (feed k (serve n rs).waiting).1 + wanted rs + taken n rs =
        n + (k + returned rs) + missingOf (feed k (serve n rs).waiting).2.1
      simp only [missing] at ih
      omega

/-- Those who wait miss no more than was asked for. -/
theorem missing_serve_le : (serve n rs).missing ≤ wanted rs := by
  induction rs with
  | nil => exact Nat.le_refl 0
  | cons r rs ih =>
    simp only [missing] at ih
    cases r with
    | acquire k ticket =>
      simp only [serve, grant, Semaphore.acquire, wanted]
      split
      · exact Nat.le_add_left_of_le ih
      · simp only [missing, missingOf_append, missingOf]
        omega
    | tryAcquire k =>
      simp only [serve, grant, Semaphore.tryAcquire, wanted]
      split <;> exact ih
    | release k =>
      have hfeed := feed_total k (serve n rs).waiting
      have hleft := feed_left_le k (serve n rs).waiting
      change missingOf (feed k (serve n rs).waiting).2.1 ≤ wanted rs
      omega

/-- No more permits are free than were there at first and came back. -/
theorem available_serve_le : (serve n rs).available ≤ n + returned rs := by
  induction rs with
  | nil => exact Nat.le_refl n
  | cons r rs ih =>
    cases r with
    | acquire k ticket =>
      simp only [serve, grant, Semaphore.acquire, returned]
      split
      · exact Nat.le_trans (Nat.sub_le _ _) ih
      · exact Nat.zero_le _
    | tryAcquire k =>
      simp only [serve, grant, Semaphore.tryAcquire, returned]
      split
      · exact Nat.le_trans (Nat.sub_le _ _) ih
      · exact ih
    | release k =>
      have hleft := feed_left_le k (serve n rs).waiting
      change (serve n rs).available + (feed k (serve n rs).waiting).1 ≤ n + (k + returned rs)
      omega

/-- What a semaphore counts are its free permits less those that are missing, held in the signed
range. -/
theorem Sound.count_eq {s : Semaphore T} {rs : List (Request T)} (h : s.Sound rs) :
    s.count = max Integer.least (min Integer.greatest (s.available - s.missing)) := by
  unfold count
  split
  · rename_i hw
    rw [missing, List.isEmpty_iff.1 hw, missingOf]
    simp only [Integer.least, Integer.greatest, Integer.half]
    omega
  · rename_i hw
    rw [h.available (by simpa using hw)]
    split <;> simp only [Integer.least, Integer.greatest, Integer.half] at * <;> omega

/-- What a semaphore counts is what was there at first, and what came back, less what was given out or
is waited for. -/
theorem count_serve : (serve n rs).count = max Integer.least
    (min Integer.greatest ((n : Int) + returned rs - wanted rs - taken n rs)) := by
  have hbalance := balance_serve n rs
  have hequal : ((serve n rs).available : Int) - (serve n rs).missing =
      n + returned rs - wanted rs - taken n rs := by omega
  rw [(sound_serve n rs).count_eq, hequal]

end Serve

end Semaphore

/-! ## The requests of a session -/

/-- What a program asks of a semaphore in its next step, if it waits with the ticket. -/
def Prog.request (ticket : StepId) : Prog → Option (SemaphoreId × Semaphore.Request StepId)
  | .permits i n => some (i, .acquire n ticket)
  | .instant (.tryAcquire i n) => some (i, .tryAcquire n)
  | .instant (.release i n) => some (i, .release n)
  | _ => none

/-- What the step of a call asks of a semaphore. -/
def Activity.request (σ : Store) : Activity → Option (SemaphoreId × Semaphore.Request StepId)
  | .work (.looking (.program p)) l =>
    if σ.isCancelled l.link then none else p.request σ.boundaries.size
  | _ => none

/-- What was asked of the semaphore at this moment, if it was there. -/
def Moment.request (i : SemaphoreId) (m : Moment) : Option (Semaphore.Request StepId) :=
  if i < m.before.semaphores.size then
    (m.call.bind (·.request m.before)).bind fun x => if x.1 = i then some x.2 else none
  else none

/-- What was asked of the semaphore so far, the latest first. -/
def Session.requests (i : SemaphoreId) (S : Session) : List (Semaphore.Request StepId) :=
  S.past.filterMap (·.request i)

/-- The semaphores after a request. -/
def Store.granted (σ : Store) : Option (SemaphoreId × Semaphore.Request StepId) →
    Array (Semaphore StepId)
  | none => σ.semaphores
  | some (i, r) => σ.semaphores.modify i (·.grant r)

section Steps

variable {σ : Store}

theorem Store.size_granted (x : Option (SemaphoreId × Semaphore.Request StepId)) :
    (σ.granted x).size = σ.semaphores.size := by
  cases x with
  | none => rfl
  | some x => exact Array.size_modify

theorem Code.move_semaphores {α : Type} (c : Code Prog α) (σ : Store) :
    (c.move σ).1.1.semaphores = σ.semaphores := by
  cases c <;> rfl

theorem Code.advance_semaphores {α : Type} {again : Code Prog α → Activity}
    {done : Except String α → Store → Next} (hd : ∀ o σ, (done o σ).1.semaphores = σ.semaphores)
    (c : Code Prog α) (σ : Store) : (c.advance again done σ).1.semaphores = σ.semaphores := by
  cases c with
  | ret a => exact hd _ σ
  | panic m => exact hd _ σ
  | _ => rfl

theorem Prog.step_semaphores (p : Prog) (e : ExecutionId) (link : Link) (σ : Store) :
    (p.step e link σ).store.semaphores = σ.granted (p.request σ.boundaries.size) := by
  cases p with
  | joinEach fs => cases fs <;> rfl
  | instant a => cases a <;> rfl
  | outcome f =>
    simp only [Prog.step, Store.awaitOutcome, Store.wait]
    split <;> rfl
  | pop c =>
    simp only [Prog.step]
    generalize hx : σ.popToken c = x
    have hσ : x.1.semaphores = σ.semaphores := by rw [← hx]; rfl
    obtain ⟨σ', _ | t⟩ := x <;> exact hσ
  | stored i =>
    simp only [Prog.step]
    split <;> rfl
  | _ => rfl

theorem Token.begin_semaphores (t : Token) (link : Link) (σ : Store) :
    (t.begin link σ).store.semaphores = σ.semaphores := by
  cases t with
  | cleanup c =>
    cases c with
    | program i =>
      simp only [Token.begin, Cleanup.begin]
      split <;> rfl
    | _ => rfl
  | connection c =>
    simp only [Token.begin]
    generalize hx : σ.cancel c = x
    have hσ : x.1.semaphores = σ.semaphores := by rw [← hx]; rfl
    obtain ⟨σ', _ | ts⟩ := x <;> exact hσ
  | fiber f =>
    simp only [Token.begin]
    split <;> rfl
  | _ => rfl

theorem Frame.resume_semaphores (f : Frame) (r : Result) (link : Link) (σ : Store) :
    (f.resume r link σ).store.semaphores = σ.semaphores := by
  cases f with
  | sweep of t ts first => cases ts <;> rfl
  | _ =>
    unfold Frame.resume
    dsimp only
    repeat' split
    all_goals rfl

theorem Loop.step_semaphores (s : Stage) (l : Loop) (σ : Store) :
    (l.step s σ).1.semaphores = σ.granted ((Activity.work s l).request σ) := by
  cases s with
  | looking n =>
    cases hc : σ.isCancelled l.link with
    | true =>
      cases n <;> simp [Loop.step, Activity.request, hc, Store.granted]
    | false =>
      rw [l.step_of_not_cancelled hc]
      cases n with
      | program p =>
        simp only [Activity.request, hc]
        exact p.step_semaphores l.id l.link σ
      | token t => exact t.begin_semaphores l.link σ
      | sweep of ts => cases ts <;> rfl
      | release g v x =>
        simp only [Node.step]
        split <;> rfl
      | _ => rfl
  | handing r =>
    obtain ⟨e, link, _ | ⟨f, fs⟩, k⟩ := l
    · rfl
    · exact f.resume_semaphores r link σ
  | delaying c => exact c.move_semaphores σ
  | suspending c => exact c.move_semaphores σ
  | mapping c => exact c.move_semaphores σ
  | leaving b =>
    simp only [Loop.step, Store.leave]
    split <;> rfl

theorem Sink.receive_semaphores (k : Sink) (r : Result) (σ : Store) :
    (k.receive r σ).1.semaphores = σ.semaphores := by
  cases k <;> simp only [Sink.receive, Store.report, Store.endFiber, Store.endAcquire, Store.endSide]
    <;> repeat' split
  all_goals rfl

theorem Task.step_semaphores (t : Task) (σ : Store) : (t.step σ).1.semaphores = σ.semaphores := by
  cases t with
  | job j =>
    simp only [Task.step]
    split
    · rename_i x _
      cases x <;> simp only [Job.step, Store.dropFuture, Store.startFuture] <;> repeat' split
      all_goals rfl
    · rfl
  | _ => rfl

/-- **A step makes at most one request.** -/
theorem Activity.step_semaphores (a : Activity) (σ : Store) :
    (a.step σ).1.semaphores = σ.granted (a.request σ) := by
  cases a with
  | work s l => exact l.step_semaphores s σ
  | registering c b => exact Code.advance_semaphores (fun o _ => by cases o <;> rfl) c σ
  | registeringStep c s => exact Code.advance_semaphores (fun o _ => by cases o <;> rfl) c σ
  | calling c s => exact Code.advance_semaphores (fun o _ => by cases o <;> rfl) c σ
  | deliver e k r => exact k.receive_semaphores r σ
  | execute on t =>
    cases on with
    | immediate => exact t.step_semaphores σ
    | _ => rfl
  | fillSlot s c =>
    simp only [Activity.step, Store.fillSlot]
    split <;> rfl
  | complete c r =>
    cases c <;> simp only [Activity.step, Completer.complete, Store.completeBoundary,
      Store.completeCallback, Store.completeStep] <;> repeat' split
    all_goals rfl
  | notify f l o =>
    cases l with
    | step s => rfl
    | duel k x =>
      simp only [Activity.step, Store.endDuel]
      repeat' split
      all_goals rfl
  | polling j =>
    simp only [Activity.step, Store.poll]
    repeat' split
    all_goals rfl
  | _ => rfl

/-- An input creates at most a semaphore. -/
theorem Input.step_semaphores {i : SemaphoreId} (h : i < σ.semaphores.size) (x : Input) :
    (x.step σ).1.semaphores[i]? = σ.semaphores[i]? := by
  cases x with
  | move c => exact congrArg (·[i]?) (c.move_semaphores σ)
  | run p label cancelable => cases cancelable <;> rfl
  | semaphore n => exact Array.getElem?_push_lt h ▸ (Array.getElem?_eq_getElem h).symm
  | tick queue place =>
    simp only [Input.step]
    split <;> rfl
  | ready place =>
    simp only [Input.step]
    split <;> rfl
  | startFuture f =>
    simp only [Input.step, Store.startFuture]
    split <;> rfl
  | dropFuture f =>
    simp only [Input.step, Store.dropFuture]
    repeat' split
    all_goals rfl
  | _ => rfl

/-- Who waits for permits has a ticket of its own. -/
theorem Activity.lt_of_acquire {a : Activity} {i : SemaphoreId} {n : Nat} {ticket : StepId}
    (h : a.request σ = some (i, .acquire n ticket)) :
    ticket = σ.boundaries.size ∧ σ.boundaries.size < (a.step σ).1.boundaries.size := by
  cases a with
  | work s l =>
    cases s with
    | looking node =>
      cases node with
      | program p =>
        simp only [Activity.request] at h
        split at h
        · cases h
        · rename_i hc
          cases p with
          | permits i' n' =>
            obtain ⟨-, rfl⟩ : (i' = i ∧ n' = n) ∧ σ.boundaries.size = ticket := by
              simpa [Prog.request, and_assoc] using h
            refine ⟨rfl, ?_⟩
            simp only [Activity.step, l.step_of_not_cancelled (by simpa using hc)]
            change _ < (σ.boundaries.cells.push .registering).size
            rw [Array.size_push]
            exact Nat.lt_succ_self _
          | instant x => cases x <;> simp [Prog.request] at h
          | _ => cases h
      | _ => cases h
    | _ => cases h
  | _ => cases h

end Steps

/-! ## The semaphores of a session -/

namespace Session

open Semaphore

variable {S : Session} {i : SemaphoreId} {n : Nat} {call : Option Activity} {next : Next}
  {others : List Activity}

theorem requests_record : (S.record call next others).requests i =
    (Moment.request i ⟨call, S.store, next⟩).toList ++ S.requests i := by
  simp only [requests, record_past, List.filterMap_cons]
  split <;> rename_i h <;> simp [h]

/-- The semaphore is what the requests made of it, and each wait has a ticket of its own. -/
structure Serves (i : SemaphoreId) (n : Nat) (S : Session) : Prop where
  semaphore : S.store.semaphores[i]? = some (serve n (S.requests i))
  begun : ∀ ticket ∈ tickets (S.requests i), ticket < S.store.boundaries.size
  nodup : (tickets (S.requests i)).Nodup

theorem Serves.lt (h : S.Serves i n) : i < S.store.semaphores.size :=
  (Array.getElem?_eq_some_iff.1 h.semaphore).1

/-- A step without a request leaves the account as it is. -/
theorem Serves.rest (h : S.Serves i n) (hnone : Moment.request i ⟨call, S.store, next⟩ = none)
    (hsame : next.1.semaphores[i]? = S.store.semaphores[i]?)
    (hgrows : S.store.Grows next.1) : (S.record call next others).Serves i n := by
  have hrequests : (S.record call next others).requests i = S.requests i := by
    rw [requests_record, hnone, Option.toList_none, List.nil_append]
  refine ⟨?_, ?_, hrequests ▸ h.nodup⟩
  · rw [hrequests, record_store, hsame, h.semaphore]
  · rw [hrequests]
    exact fun ticket ht => Nat.lt_of_lt_of_le (h.begun ticket ht) hgrows.boundaries_le

/-- A request is entered into the account. -/
theorem Serves.request (h : S.Serves i n) {a : Activity} {r : Request StepId}
    (hr : a.request S.store = some (i, r)) :
    (S.record (some a) (a.step S.store) others).Serves i n := by
  have hrequests : (S.record (some a) (a.step S.store) others).requests i = r :: S.requests i := by
    rw [requests_record]
    simp [Moment.request, h.lt, hr]
  have hle := (a.step_grows S.store).boundaries_le
  have hbegun : ∀ ticket ∈ tickets (S.requests i), ticket < (a.step S.store).1.boundaries.size :=
    fun ticket ht => Nat.lt_of_lt_of_le (h.begun ticket ht) hle
  refine ⟨?_, ?_, ?_⟩
  · rw [hrequests, record_store, a.step_semaphores, hr]
    change (S.store.semaphores.modify i (·.grant r))[i]? = _
    rw [Array.getElem?_modify, if_pos rfl, h.semaphore]
    rfl
  · rw [hrequests]
    cases r with
    | acquire k ticket =>
      obtain ⟨rfl, hlt⟩ := Activity.lt_of_acquire hr
      exact List.forall_mem_cons.2 ⟨hlt, hbegun⟩
    | _ => exact hbegun
  · rw [hrequests]
    cases r with
    | acquire k ticket =>
      obtain ⟨rfl, -⟩ := Activity.lt_of_acquire hr
      exact List.nodup_cons.2 ⟨fun hmem => Nat.lt_irrefl _ (h.begun _ hmem), h.nodup⟩
    | _ => exact h.nodup

/-- A call keeps the account. -/
theorem Serves.step (h : S.Serves i n) (a : Activity) :
    (S.record (some a) (a.step S.store) others).Serves i n := by
  have hsemaphores := a.step_semaphores S.store
  cases hr : a.request S.store with
  | none =>
    refine h.rest (by simp [Moment.request, hr]) ?_ (a.step_grows _)
    rw [hsemaphores, hr]
    rfl
  | some x =>
    obtain ⟨j, r⟩ := x
    by_cases hj : j = i
    · subst hj
      exact h.request hr
    · refine h.rest (by simp [Moment.request, hr, hj]) ?_ (a.step_grows _)
      rw [hsemaphores, hr]
      exact (Array.getElem?_modify ..).trans (if_neg hj)

/-- Semaphores are never removed. -/
theorem semaphores_le (cs : List Choice) :
    ∀ m ∈ (after cs).past, m.before.semaphores.size ≤ (after cs).store.semaphores.size := by
  have hstep : ∀ {S : Session} {m₀ : Moment} {size : Nat}, S.store.semaphores.size ≤ size →
      (∀ m ∈ S.past, m.before.semaphores.size ≤ S.store.semaphores.size) →
      m₀.before = S.store → ∀ m ∈ m₀ :: S.past, m.before.semaphores.size ≤ size := by
    intro S m₀ size hle ih hm₀
    refine List.forall_mem_cons.2 ⟨hm₀ ▸ hle, fun m hm => Nat.le_trans (ih m hm) hle⟩
  refine invariant (P := fun S => ∀ m ∈ S.past, m.before.semaphores.size ≤ S.store.semaphores.size)
    (by simp) ?_ ?_ cs
  · intro cs x ih
    refine hstep (Nat.le_of_not_lt fun hlt => ?_) ih rfl
    have hsame := x.step_semaphores hlt
    rw [record_store, Array.getElem?_eq_none (Nat.le_refl _), eq_comm, Array.getElem?_eq_none_iff] at hsame
    exact absurd hlt (Nat.not_lt.2 hsame)
  · intro cs a xs ys _ ih
    refine hstep (Nat.le_of_eq ?_) ih rfl
    rw [record_store, a.step_semaphores, Store.size_granted]

/-- Nothing was asked of a semaphore before it is there. -/
theorem requests_eq_nil (cs : List Choice) :
    (after cs).requests (after cs).store.semaphores.size = [] := by
  refine List.filterMap_eq_nil_iff.2 fun m hm => ?_
  exact if_neg (Nat.not_lt.2 (semaphores_le cs m hm))

/-- **A semaphore is what the requests made of it.** -/
theorem serves (n : Nat) (cs₀ cs : List Choice) :
    (after (cs ++ .input (.semaphore n) :: cs₀)).Serves (after cs₀).store.semaphores.size n := by
  refine invariant_from (P := fun S => S.Serves (after cs₀).store.semaphores.size n) ?_ ?_ ?_ cs
  · have hrequests : (after (.input (.semaphore n) :: cs₀)).requests
        (after cs₀).store.semaphores.size = [] := by
      change ((after cs₀).record none _ _).requests _ = []
      rw [requests_record, requests_eq_nil]
      simp [Moment.request]
    refine ⟨?_, by simp [hrequests, tickets], by simp [hrequests, tickets]⟩
    rw [hrequests]
    exact Array.getElem?_push_size
  · intro cs x ih
    exact ih.rest (by simp [Moment.request]) (x.step_semaphores ih.lt) (x.step_grows _)
  · intro cs a xs ys _ ih
    exact ih.step a

/-- **Permits are conserved.** After `n` permits were put into a semaphore, and whatever happens,
with `rs` what was asked of it since:
no permit is free while somebody waits;
everybody who waits, known by a ticket of its own, misses at least one permit and no more than it
asked for;
while somebody waits, nobody who asks for permits gets them at once;
no more is ever subtracted than is there;
and what is counted are the `n` permits and those that were released, less those that were asked for
with a wait and those that were taken without one, held in the signed range.
No number gets above `n` with what was released, or above what was asked for. -/
theorem permits_conserved (n : Nat) (cs₀ cs : List Choice) :
    let i := (after cs₀).store.semaphores.size
    let S := after (cs ++ .input (.semaphore n) :: cs₀)
    let rs := S.requests i
    ∃ s, S.store.semaphores[i]? = some s ∧
      (s.waiting ≠ [] → s.available = 0) ∧
      (tickets rs).Nodup ∧
      (∀ w ∈ s.waiting, 1 ≤ w.missing ∧ ∃ k, .acquire k w.ticket ∈ rs ∧ w.missing ≤ k) ∧
      (s.waiting ≠ [] → ∀ k ticket, 0 < k →
        (s.acquire k ticket).2 = false ∧ (s.tryAcquire k).2 = false) ∧
      (∀ k, (s.admits k = true → k ≤ s.available) ∧ (s.admits k = false → s.available ≤ k)) ∧
      s.count = max Integer.least (min Integer.greatest
        ((n : Int) + returned rs - wanted rs - taken n rs)) ∧
      s.available ≤ n + returned rs ∧ s.missing ≤ wanted rs := by
  intro i S rs
  have hserves := serves n cs₀ cs
  have hsound := sound_serve n rs
  refine ⟨serve n rs, hserves.semaphore, hsound.available, hserves.nodup, hsound.waiting, ?_, ?_,
    count_serve n rs, available_serve_le n rs, missing_serve_le n rs⟩
  · intro hw k ticket hk
    have hnot := not_admits_of_waiting hk hw
    simp [Semaphore.acquire, Semaphore.tryAcquire, hnot]
  · exact fun k => ⟨le_of_admits, fun hk => Nat.le_of_lt (hsound.lt_of_not_admits (by simp [hk]))⟩

end Session

end CancelableEffects
