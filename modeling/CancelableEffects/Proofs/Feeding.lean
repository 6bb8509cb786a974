import CancelableEffects.Proofs.Permits

/-!
# Feeding — a release serves the front of the queue

* `Semaphore.Settled`: nobody waits while a permit is free, and who waits misses permits.
* `Semaphore.Front`: those at the front of a queue whom so many permits satisfy, and no more of them.
* `Semaphore.feed_append`, `Semaphore.feed_add`: a front is served in order, and permits may come in two
  parts.
* `Semaphore.Front.feed`: what feeding a queue does beyond its front.
* **`Semaphore.release_serves_front`**: a release serves the longest front that it can, and two releases
  do what one does.
-/

namespace CancelableEffects

namespace Semaphore

variable {T : Type}

/-- No permit is free while somebody waits, and who waits misses permits. -/
structure Settled (s : Semaphore T) : Prop where
  available : s.waiting ≠ [] → s.available = 0
  missing : ∀ w ∈ s.waiting, 0 < w.missing

/-- What the requests made of a semaphore is settled. -/
theorem Sound.settled {rs : List (Request T)} {s : Semaphore T} (h : s.Sound rs) : s.Settled :=
  ⟨h.available, fun w hw => (h.waiting w hw).1⟩

/-- Those at the front of the queue who together miss at most `n` permits, and as many as possible. -/
structure Front (n : Nat) (ws fed : List (Waiter T)) : Prop where
  front : fed <+: ws
  missing_le : missingOf fed ≤ n
  longest : ∀ longer, longer <+: ws → missingOf longer ≤ n → longer <+: fed

/-! ## Feeding a queue -/

section Feed

variable {n : Nat} {w : Waiter T} {ws fed rest : List (Waiter T)}

/-- Those who are satisfied are served in order, and the permits that are left go on to the others. -/
theorem feed_append (hpos : ∀ w ∈ fed, 0 < w.missing) (hle : missingOf fed ≤ n) (rest : List (Waiter T)) :
    feed n (fed ++ rest) = ((feed (n - missingOf fed) rest).1, (feed (n - missingOf fed) rest).2.1,
      fed.map Waiter.ticket ++ (feed (n - missingOf fed) rest).2.2) := by
  induction fed generalizing n with
  | nil => rfl
  | cons w fed ih =>
    obtain ⟨hw, hfed⟩ := List.forall_mem_cons.1 hpos
    simp only [missingOf] at hle ⊢
    have hn : n ≠ 0 := by omega
    have hlt : ¬n < w.missing := by omega
    rw [List.cons_append, feed, if_neg hn, if_neg hlt, ih hfed (by omega), Nat.sub_sub]
    rfl

/-- Who misses more permits than there are gets them all, and goes on waiting. -/
theorem feed_of_lt (h : n < w.missing) (ws : List (Waiter T)) :
    feed n (w :: ws) = (0, { w with missing := w.missing - n } :: ws, []) := by
  by_cases hn : n = 0
  · subst hn
    rfl
  · rw [feed, if_neg hn, if_pos h]

/-- **Permits may come in two parts**: a queue that is fed twice is left as if it were fed once, and the
same are served in the same order. -/
theorem feed_add (a b : Nat) (ws : List (Waiter T)) :
    feed (a + b) ws = ((feed a ws).1 + (feed b (feed a ws).2.1).1, (feed b (feed a ws).2.1).2.1,
      (feed a ws).2.2 ++ (feed b (feed a ws).2.1).2.2) := by
  induction ws generalizing a with
  | nil => rfl
  | cons w ws ih =>
    by_cases ha : a = 0
    · subst ha
      simp [feed]
    · by_cases hlt : a < w.missing
      · -- the first part ends within the first waiter
        have hn : a + b ≠ 0 := by omega
        rw [feed_of_lt hlt]
        by_cases hlt' : a + b < w.missing
        · rw [feed_of_lt hlt', feed_of_lt (w := { w with missing := w.missing - a }) (Nat.lt_sub_of_add_lt (by omega))]
          simp [Nat.sub_sub]
        · have hb : b ≠ 0 := by omega
          have hge : ¬b < w.missing - a := by omega
          have hleft : b - (w.missing - a) = a + b - w.missing := by omega
          simp [feed, hb, hlt', hge, hleft]
      · -- the first part satisfies the first waiter
        have hn : a + b ≠ 0 := by omega
        have hlt' : ¬a + b < w.missing := by omega
        have hleft : a + b - w.missing = a - w.missing + b := by omega
        simp only [feed, if_neg hn, if_neg ha, if_neg hlt, if_neg hlt', hleft, ih]
        rfl

/-- A queue has a front that so many permits satisfy, and who comes next misses more than is left. -/
theorem exists_front (n : Nat) (ws : List (Waiter T)) : ∃ fed rest, ws = fed ++ rest ∧ missingOf fed ≤ n ∧
    ∀ w ws', rest = w :: ws' → n - missingOf fed < w.missing := by
  induction ws generalizing n with
  | nil => exact ⟨[], [], rfl, Nat.zero_le n, nofun⟩
  | cons w ws ih =>
    by_cases hle : w.missing ≤ n
    · obtain ⟨fed, rest, rfl, hfed, hnext⟩ := ih (n - w.missing)
      refine ⟨w :: fed, rest, rfl, ?_, fun w' ws' hrest => ?_⟩
      · simp only [missingOf]
        omega
      · have hlt := hnext w' ws' hrest
        simp only [missingOf]
        omega
    · refine ⟨[], w :: ws, rfl, Nat.zero_le n, fun w' ws' hrest => ?_⟩
      cases hrest
      exact Nat.lt_of_not_le hle

/-- No more are satisfied when who comes next misses more than is left. -/
theorem Front.of_next (hle : missingOf fed ≤ n)
    (hnext : ∀ w ws', rest = w :: ws' → n - missingOf fed < w.missing) : Front n (fed ++ rest) fed where
  front := List.prefix_append fed rest
  missing_le := hle
  longest longer hlonger hmissing := by
    obtain hshort | ⟨more, rfl⟩ := List.prefix_or_prefix_of_prefix hlonger (List.prefix_append fed rest)
    · exact hshort
    · cases more with
      | nil => exact (List.append_nil fed).symm ▸ List.prefix_refl fed
      | cons w more =>
        obtain ⟨others, hrest⟩ := (List.prefix_append_right_inj fed).1 hlonger
        have hlt := hnext w _ hrest.symm
        rw [missingOf_append, missingOf] at hmissing
        omega

end Feed

/-! ## Releases -/

section Release

variable {s : Semaphore T}

/-- A release after which nobody waits any more. -/
theorem release_of_all {n : Nat} {fed : List (Waiter T)} (h : s.Settled) (hfed : s.waiting = fed)
    (hle : missingOf fed ≤ n) :
    s.release n = (⟨s.available + (n - missingOf fed), []⟩, fed.map Waiter.ticket) := by
  have hfeed := feed_append (hfed ▸ h.missing) hle []
  rw [List.append_nil] at hfeed
  rw [release, hfed, hfeed]
  simp [feed]

/-- A release after which the waiter `w`, who comes after the front, waits for less. -/
theorem release_of_next {n : Nat} {fed ws : List (Waiter T)} {w : Waiter T} (h : s.Settled)
    (hwaiting : s.waiting = fed ++ w :: ws) (hle : missingOf fed ≤ n) (hlt : n - missingOf fed < w.missing) :
    s.release n = (⟨s.available, { w with missing := w.missing - (n - missingOf fed) } :: ws⟩,
      fed.map Waiter.ticket) := by
  have hpos : ∀ w ∈ fed, 0 < w.missing := fun w' hw' =>
    h.missing w' (hwaiting ▸ List.mem_append_left _ hw')
  rw [release, hwaiting, feed_append hpos hle, feed_of_lt hlt]
  simp

theorem Settled.release (h : s.Settled) (n : Nat) : (s.release n).1.Settled := by
  refine ⟨fun hw => ?_, fun w hw => (feed_waiting n s.waiting h.missing w hw).1⟩
  have hqueue : s.waiting ≠ [] := by
    intro hnil
    simp [Semaphore.release, hnil, feed] at hw
  change s.available + (feed n s.waiting).1 = 0
  rw [feed_left n s.waiting hw, h.available hqueue]

/-- **Two releases do what one does** with the permits of both: they leave the same semaphore, and serve
the same waiters in the same order. -/
theorem release_add (a b : Nat) (s : Semaphore T) :
    s.release (a + b) = (((s.release a).1.release b).1, (s.release a).2 ++ ((s.release a).1.release b).2) := by
  simp only [release, feed_add a b s.waiting, Nat.add_assoc]

/-- **A release serves the front of the queue.** Of a semaphore that is settled, a release of `n` permits
serves the longest front of the queue whose missing permits are no more than `n`, in the order of the queue;
what is left becomes available if nobody else waits, and otherwise only the next one misses so much less;
the semaphore is settled again, and no permit is lost. Hence two releases do what one does with the permits
of both. -/
theorem release_serves_front (h : s.Settled) :
    (∀ n, ∃ fed rest, s.waiting = fed ++ rest ∧ Front n s.waiting fed ∧
      (s.release n).2 = fed.map Waiter.ticket ∧
      (rest = [] → (s.release n).1 = ⟨s.available + (n - missingOf fed), []⟩) ∧
      (∀ w ws, rest = w :: ws → n - missingOf fed < w.missing ∧
        (s.release n).1 = ⟨s.available, { w with missing := w.missing - (n - missingOf fed) } :: ws⟩) ∧
      (s.release n).1.Settled ∧
      (s.release n).1.available + s.missing = s.available + n + (s.release n).1.missing) ∧
    ∀ a b, s.release (a + b) =
      (((s.release a).1.release b).1, (s.release a).2 ++ ((s.release a).1.release b).2) := by
  refine ⟨fun n => ?_, fun a b => release_add a b s⟩
  obtain ⟨fed, rest, hwaiting, hle, hnext⟩ := exists_front n s.waiting
  have hfront : Front n s.waiting fed := hwaiting ▸ Front.of_next hle hnext
  have htotal : (s.release n).1.available + s.missing = s.available + n + (s.release n).1.missing := by
    have hfeed := feed_total n s.waiting
    change s.available + (feed n s.waiting).1 + missingOf s.waiting =
      s.available + n + missingOf (feed n s.waiting).2.1
    omega
  refine ⟨fed, rest, hwaiting, hfront, ?_, ?_, ?_, h.release n, htotal⟩
  · cases rest with
    | nil => rw [release_of_all h (hwaiting.trans (List.append_nil fed)) hle]
    | cons w ws => rw [release_of_next h hwaiting hle (hnext w ws rfl)]
  · rintro rfl
    rw [release_of_all h (hwaiting.trans (List.append_nil fed)) hle]
  · rintro w ws rfl
    have hlt := hnext w ws rfl
    exact ⟨hlt, by rw [release_of_next h hwaiting hle hlt]⟩

/-- Three wait, for two, three and four permits. -/
def threeWaiting : Semaphore Nat := ⟨0, [⟨2, 7⟩, ⟨3, 8⟩, ⟨4, 9⟩]⟩

/-- Of six permits the first two get theirs, and the third one gets what is left. Three permits and then
three more do the same, though the first part ends within the second waiter. -/
theorem threeWaiting_served : threeWaiting.Settled ∧
    threeWaiting.release 6 = (⟨0, [⟨3, 9⟩]⟩, [7, 8]) ∧
    (∃ fed, Front 6 threeWaiting.waiting fed ∧ (threeWaiting.release 6).2 = fed.map Waiter.ticket) ∧
    threeWaiting.release (3 + 3) = (((threeWaiting.release 3).1.release 3).1,
      (threeWaiting.release 3).2 ++ ((threeWaiting.release 3).1.release 3).2) := by
  have h : threeWaiting.Settled := ⟨fun _ => rfl, by decide⟩
  obtain ⟨hserves, hadds⟩ := release_serves_front h
  obtain ⟨fed, -, -, hfront, hserved, -⟩ := hserves 6
  exact ⟨h, rfl, ⟨fed, hfront, hserved⟩, hadds 3 3⟩

end Release

end Semaphore

namespace Session

/-- Every semaphore is settled, in every reachable state. -/
theorem semaphore_settled (n : Nat) (cs₀ cs : List Choice) :
    ∃ s, (after (cs ++ .input (.semaphore n) :: cs₀)).store.semaphores[(after cs₀).store.semaphores.size]? = some s ∧
      s.Settled :=
  ⟨_, (serves n cs₀ cs).semaphore, (Semaphore.sound_serve _ _).settled⟩

end Session

end CancelableEffects
