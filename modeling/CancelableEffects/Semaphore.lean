import CancelableEffects.Text.Integer

/-!
# Semaphores — counted permits, served in order

* `Semaphore`: the free permits and the queue of those who wait, oldest first.
* `Semaphore.release`: feeds the queue, the oldest first, even where it cannot satisfy it.
* `Semaphore.acquire`, `Semaphore.tryAcquire`: taking permits, with and without waiting.
* `Semaphore.count`: the free permits, or minus the permits that are still missing.
* `Semaphore.feed_total`: feeding a queue loses no permit.
-/

namespace CancelableEffects

/-- One who waits for permits, known by a ticket. -/
structure Waiter (Ticket : Type) where
  missing : Nat
  ticket : Ticket
  deriving DecidableEq, Repr

/-- A pool of permits. Whenever somebody waits, no permit is free. -/
structure Semaphore (Ticket : Type) where
  available : Nat := 0
  waiting : List (Waiter Ticket) := []
  deriving DecidableEq, Repr

namespace Semaphore

variable {T : Type}

/-- Feeds `n` permits to a queue: those left over, the queue that remains and the tickets served. -/
def feed : Nat → List (Waiter T) → Nat × List (Waiter T) × List T
  | n, [] => (n, [], [])
  | n, w :: ws =>
    if n = 0 then (0, w :: ws, [])
    else if n < w.missing then (0, { w with missing := w.missing - n } :: ws, [])
    else
      let (left, rest, served) := feed (n - w.missing) ws
      (left, rest, w.ticket :: served)

/-- Returns `n` permits; the tickets whose wait is over come back in the order of the queue. -/
def release (n : Nat) (s : Semaphore T) : Semaphore T × List T :=
  let (left, rest, served) := feed n s.waiting
  (⟨s.available + left, rest⟩, served)

/-- Whether `n` permits can be had without waiting. -/
def admits (n : Nat) (s : Semaphore T) : Bool := n == 0 || (s.waiting.isEmpty && n ≤ s.available)

/-- Takes `n` permits at once if that is possible, and says whether it did. -/
def tryAcquire (n : Nat) (s : Semaphore T) : Semaphore T × Bool :=
  if s.admits n then ({ s with available := s.available - n }, true) else (s, false)

/-- Takes `n` permits if that is possible at once, and says so. Otherwise takes what is free and
joins the queue for the rest. -/
def acquire (n : Nat) (ticket : T) (s : Semaphore T) : Semaphore T × Bool :=
  if s.admits n then ({ s with available := s.available - n }, true)
  else (⟨0, s.waiting ++ [⟨n - s.available, ticket⟩]⟩, false)

/-- The permits that a queue still misses. -/
def missingOf : List (Waiter T) → Nat
  | [] => 0
  | w :: ws => w.missing + missingOf ws

/-- The permits that those who wait still miss. -/
def missing (s : Semaphore T) : Nat := missingOf s.waiting

/-- The free permits, or minus the missing ones while somebody waits, held in the signed range. -/
def count (s : Semaphore T) : Int :=
  if s.waiting.isEmpty then min (s.available : Int) Integer.greatest
  else if (s.missing : Int) ≤ Integer.greatest then -(s.missing : Int) else Integer.least

/-- The debug form. -/
def debug (s : Semaphore T) : String :=
  "Semaphore \x7b available: " ++ toString s.available ++ ", waiting: " ++
    toString s.waiting.length ++ " \x7d"

/-- Feeding a queue spends exactly what the queue no longer misses. -/
theorem feed_total (n : Nat) (ws : List (Waiter T)) :
    (feed n ws).1 + missingOf ws = n + missingOf (feed n ws).2.1 := by
  induction ws generalizing n with
  | nil => simp [feed]
  | cons w ws ih =>
    by_cases h0 : n = 0
    · simp [feed, h0]
    by_cases h : n < w.missing
    · simp only [feed, if_neg h0, if_pos h, missingOf]
      omega
    · have hi := ih (n - w.missing)
      have hf : feed n (w :: ws) = ((feed (n - w.missing) ws).1, (feed (n - w.missing) ws).2.1,
          w.ticket :: (feed (n - w.missing) ws).2.2) := by
        simp only [feed, if_neg h0, if_neg h]
      rw [hf]
      simp only [missingOf]
      omega

end Semaphore

end CancelableEffects
