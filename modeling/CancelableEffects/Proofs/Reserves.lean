import Mathlib.Data.List.Perm.Subperm
import CancelableEffects.Proofs.Holders

/-!
# Reserves — a semaphore that is used only by brackets which hold one permit each

* `Reserved`: whoever asks for permits, or returns one, does so for such a bracket.
* `Semaphore.answered_length`: what is free and what was served, against what was there and came back.
* `Session.returned_nodup`: no bracket returns its permit twice.
* **`Session.holders_le`**: no more brackets hold a permit than there were permits, less those that are free.
* **`Session.all_returned`**: once all were returned, all permits are free and nobody waits.
-/

namespace CancelableEffects

/-! ## Requests -/

/-- The bracket for which a permit is asked for or returned at this moment. -/
def Moment.holder? (i : SemaphoreId) (m : Moment) : Option BracketId :=
  ((m.asksFor? i).map Prod.fst).or (m.returnsFor? i)

/-- Permits of the semaphore are asked for and returned only for brackets that were opened before to hold one
permit each. -/
def Reserved (i : SemaphoreId) : List Moment → Prop
  | [] => True
  | m :: ms => ((m.request i).isNone = true ∨
      ∃ g ∈ ms.filterMap (·.opensFor? i), m.holder? i = some g) ∧ Reserved i ms

instance Reserved.decidable (i : SemaphoreId) : ∀ ms : List Moment, Decidable (Reserved i ms)
  | [] => isTrue trivial
  | _ :: ms => @instDecidableAnd _ _ _ (Reserved.decidable i ms)

section Reserved

open Semaphore

variable {i : SemaphoreId} {m : Moment} {ms : List Moment} {n : Nat}

/-- What may happen with a semaphore at a moment. -/
inductive Moment.Serves (i : SemaphoreId) (held : List BracketId) (m : Moment) : Prop
  | nothing (hr : m.request i = none) (hasks : m.asksFor? i = none) (hreturns : m.returnsFor? i = none)
  | asks (g : BracketId) (t : StepId) (hg : g ∈ held) (hr : m.request i = some (.acquire 1 t))
    (hasks : m.asksFor? i = some (g, t)) (hreturns : m.returnsFor? i = none)
  | returns (g : BracketId) (hg : g ∈ held) (hr : m.request i = some (.release 1))
    (hasks : m.asksFor? i = none) (hreturns : m.returnsFor? i = some g)

theorem Reserved.head (h : Reserved i (m :: ms)) : m.Serves i (ms.filterMap (·.opensFor? i)) := by
  obtain hnone | ⟨g, hg, hholder⟩ := h.1
  · rw [Option.isNone_iff_eq_none] at hnone
    exact .nothing hnone (by simp [Moment.asksFor?, hnone]) (by simp [Moment.returnsFor?, hnone])
  cases hasks : m.asksFor? i with
  | some p =>
    have hr := (Moment.of_asksFor? hasks).1
    rw [Moment.holder?, hasks] at hholder
    cases hholder
    exact .asks p.1 p.2 hg hr hasks (by simp [Moment.returnsFor?, hr])
  | none =>
    rw [Moment.holder?, hasks] at hholder
    exact .returns g hg (Moment.of_returnsFor? hholder).1 hasks hholder

theorem Reserved.tickets_eq (h : Reserved i ms) :
    tickets (ms.filterMap (·.request i)) = (ms.filterMap (·.asksFor? i)).map Prod.snd := by
  induction ms with
  | nil => rfl
  | cons m ms ih => cases h.head <;> simp [*, tickets, ih h.2]

theorem Reserved.wanted_eq (h : Reserved i ms) :
    wanted (ms.filterMap (·.request i)) = (ms.filterMap (·.asksFor? i)).length := by
  induction ms with
  | nil => rfl
  | cons m ms ih => cases h.head <;> simp [*, wanted, ih h.2, Nat.add_comm]

theorem Reserved.returned_eq (h : Reserved i ms) :
    returned (ms.filterMap (·.request i)) = (ms.filterMap (·.returnsFor? i)).length := by
  induction ms with
  | nil => rfl
  | cons m ms ih => cases h.head <;> simp [*, returned, ih h.2, Nat.add_comm]

theorem Reserved.taken_eq (h : Reserved i ms) : taken n (ms.filterMap (·.request i)) = 0 := by
  induction ms with
  | nil => rfl
  | cons m ms ih => cases h.head <;> simp [*, taken, ih h.2]

/-- Permits are asked for one by one. -/
theorem Reserved.acquires_one (h : Reserved i ms) {k : Nat} {t : StepId}
    (hk : .acquire k t ∈ ms.filterMap (·.request i)) : k = 1 := by
  induction ms with
  | nil => cases hk
  | cons m ms ih =>
    cases h.head <;> simp only [List.filterMap_cons, *, List.mem_cons, Request.acquire.injEq,
      reduceCtorEq, false_or] at hk
    · exact ih h.2 hk
    · exact hk.elim (·.1) (ih h.2)
    · exact ih h.2 hk

theorem Moment.holder?_of_asks {g : BracketId} {t : StepId} (h : m.asksFor? i = some (g, t)) :
    m.holder? i = some g := by
  rw [holder?, h]
  rfl

theorem Moment.holder?_of_returns {g : BracketId} (h : m.returnsFor? i = some g) : m.holder? i = some g := by
  have hasks : m.asksFor? i = none := by simp [asksFor?, (of_returnsFor? h).1]
  rw [holder?, hasks]
  exact h

/-- A permit is asked for or returned only for a bracket that was opened to hold it. -/
theorem Reserved.opened (h : Reserved i ms) (hm : m ∈ ms) {g : BracketId} (hg : m.holder? i = some g) :
    g ∈ ms.filterMap (·.opensFor? i) := by
  induction ms with
  | nil => cases hm
  | cons m' ms ih =>
    have hsub := ((List.sublist_cons_self m' ms).filterMap (·.opensFor? i)).subset
    obtain rfl | hm := List.mem_cons.1 hm
    · cases h.head with
      | nothing _ hasks hreturns => simp [Moment.holder?, hasks, hreturns] at hg
      | asks g' t hg' _ hasks =>
        cases (Moment.holder?_of_asks hasks).symm.trans hg
        exact hsub hg'
      | returns g' hg' _ _ hreturns =>
        cases (Moment.holder?_of_returns hreturns).symm.trans hg
        exact hsub hg'
    · exact hsub (ih h.2 hm)

end Reserved

namespace Semaphore

variable {T : Type} (n : Nat) (rs : List (Request T))

/-- Who asked for permits was served, or waits. -/
theorem answered_length : (answered n rs).length + (serve n rs).waiting.length = (tickets rs).length := by
  rw [(answered_perm n rs).length_eq, (tickets_perm n rs).length_eq, queued_eq]
  simp only [List.length_append, List.length_map]
  omega

theorem missingOf_of_one {ws : List (Waiter T)} (h : ∀ w ∈ ws, w.missing = 1) : missingOf ws = ws.length := by
  induction ws with
  | nil => rfl
  | cons w ws ih =>
    rw [List.forall_mem_cons] at h
    rw [missingOf, h.1, ih h.2, List.length_cons, Nat.add_comm]

/-- Who waits was not served. -/
theorem not_answered (h : (tickets rs).Nodup) {w : Waiter T} (hw : w ∈ (serve n rs).waiting) :
    w.ticket ∈ tickets rs ∧ w.ticket ∉ answered n rs := by
  have hnodup := (tickets_perm n rs).nodup_iff.1 h
  have hwaits := List.mem_map_of_mem (f := Waiter.ticket) hw
  rw [queued_eq, List.append_assoc] at hnodup
  obtain ⟨-, hnodup, hgranted⟩ := List.nodup_append.1 hnodup
  refine ⟨(tickets_perm n rs).mem_iff.2 (List.mem_append_left _ ?_), fun hanswered => ?_⟩
  · rw [queued_eq]
    exact List.mem_append_right _ hwaits
  · obtain h | h := List.mem_append.1 ((answered_perm n rs).mem_iff.1 hanswered)
    · exact hgranted _ h _ (List.mem_append_left _ hwaits) rfl
    · exact (List.nodup_append.1 hnodup).2.2 _ hwaits _ h rfl

end Semaphore

namespace Session

open Semaphore

variable {cs : List Choice} {x : Choice} {m : Moment} {i : SemaphoreId} {g : BracketId} {t : StepId} {n : Nat}

/-! ## Brackets -/

theorem asked_opened (h : Reserved i (after cs).past) (hg : (g, t) ∈ (after cs).askedFor i) :
    g ∈ (after cs).openedFor i := by
  obtain ⟨m, hm, hasks⟩ := List.mem_filterMap.1 hg
  exact h.opened hm (Moment.holder?_of_asks hasks)

theorem returned_opened (h : Reserved i (after cs).past) (hg : g ∈ (after cs).returnedFor i) :
    g ∈ (after cs).openedFor i := by
  obtain ⟨m, hm, hreturns⟩ := List.mem_filterMap.1 hg
  exact h.opened hm (Moment.holder?_of_returns hreturns)

theorem acquired_of_returned (hopened : g ∈ (after cs).openedFor i) (h : g ∈ (after cs).returnedFor i) :
    0 < (after cs).deals g (.acquires true) :=
  Nat.lt_of_lt_of_le (released_of_returned hopened h) (releases_le g cs).1

/-- **No bracket returns its permit twice.** -/
theorem returned_nodup (h : Reserved i (after cs).past) : ((after cs).returnedFor i).Nodup := by
  induction cs with
  | nil => exact .nil
  | cons x cs ih =>
    obtain hsame | ⟨m, hm⟩ := made_or cs x
    · rw [hsame] at h ⊢
      exact ih h
    rw [hm.past] at h
    rw [returnedFor, hm.past, List.filterMap_cons]
    split
    · exact ih h.2
    · rename_i g hreturns
      refine List.nodup_cons.2 ⟨?_, ih h.2⟩
      obtain ⟨place, e, below, k, -, hcall⟩ := hm.of_returnsFor? hreturns
      have hopened : g ∈ (after cs).openedFor i := by
        cases h.head with
        | returns g' hg' _ _ hreturns' =>
          cases hreturns.symm.trans hreturns'
          exact hg'
        | nothing _ _ hnone => cases hnone.symm.trans hreturns
        | asks _ _ _ _ _ hnone => cases hnone.symm.trans hreturns
      cases returning cs _ _ (.inl (List.mem_of_getElem? hcall)) hopened (.tail _ (.head _)) with
      | runs s l below hlink hstack hs hnot => exact hnot
      | opens s l below r hstack hs => obtain hs | hs := hs <;> cases hs

/-- The tickets of brackets that were acquired were served. -/
theorem answered_of_acquired (hwakes : (after cs).Wakes i n) (hreserved : Reserved i (after cs).past)
    (hopened : g ∈ (after cs).openedFor i) (h : 0 < (after cs).deals g (.acquires true)) :
    ∃ t, (g, t) ∈ (after cs).askedFor i ∧ t ∈ answered n ((after cs).requests i) := by
  obtain ⟨t, hasked, l, hl⟩ := got_of_acquired hopened h
  have hticket : t ∈ tickets ((after cs).requests i) :=
    hreserved.tickets_eq ▸ List.mem_map_of_mem (f := Prod.snd) hasked
  obtain ⟨st, hs, hsource⟩ := hwakes.step t hticket
  exact ⟨t, hasked, hwakes.account.mem_iff.1 (List.mem_append_right _ (woken_of_resumed hs hsource hl))⟩

/-- No more brackets were acquired than tickets were served. -/
theorem acquired_le (hserves : (after cs).Serves i n) (hwakes : (after cs).Wakes i n)
    (hreserved : Reserved i (after cs).past) {gs : List BracketId} (hgs : gs.Nodup)
    (h : ∀ g ∈ gs, g ∈ (after cs).openedFor i ∧ 0 < (after cs).deals g (.acquires true)) :
    gs.length ≤ (answered n ((after cs).requests i)).length := by
  -- the brackets that have asked with the tickets that were served
  let served := ((after cs).askedFor i).filter (·.2 ∈ answered n ((after cs).requests i))
  have hbrackets : gs ⊆ served.map Prod.fst := fun g hg => by
    obtain ⟨t, hasked, ht⟩ := answered_of_acquired hwakes hreserved (h g hg).1 (h g hg).2
    exact List.mem_map.2 ⟨(g, t), List.mem_filter.2 ⟨hasked, by simpa using ht⟩, rfl⟩
  have htickets : served.map Prod.snd ⊆ answered n ((after cs).requests i) := fun t ht => by
    obtain ⟨p, hp, rfl⟩ := List.mem_map.1 ht
    simpa using (List.mem_filter.1 hp).2
  have hnodup : (served.map Prod.snd).Nodup := by
    refine List.Nodup.sublist (List.filter_sublist.map _) ?_
    exact hreserved.tickets_eq ▸ hserves.nodup
  calc gs.length
    _ ≤ (served.map Prod.fst).length := (List.subperm_of_subset hgs hbrackets).length_le
    _ = (served.map Prod.snd).length := by rw [List.length_map, List.length_map]
    _ ≤ (answered n ((after cs).requests i)).length := (List.subperm_of_subset hnodup htickets).length_le

/-- What is free, what was asked for, what came back, and who waits. -/
theorem reserved_balance (hreserved : Reserved i (after cs).past) :
    let s := serve n ((after cs).requests i)
    s.available + ((after cs).askedFor i).length = n + ((after cs).returnedFor i).length + s.waiting.length := by
  intro s
  have hbalance := balance_serve n ((after cs).requests i)
  have hwanted := hreserved.wanted_eq
  have hreturned := hreserved.returned_eq
  have htaken := hreserved.taken_eq (n := n)
  have hmissing : s.missing = s.waiting.length := missingOf_of_one fun w hw => by
    obtain ⟨hpos, k, hk, hle⟩ := (sound_serve n ((after cs).requests i)).waiting w hw
    have hone := hreserved.acquires_one hk
    omega
  simp only [requests] at hbalance
  rw [hwanted, hreturned, htaken] at hbalance
  change s.available + _ + 0 = n + _ + s.missing at hbalance
  rw [hmissing] at hbalance
  exact hbalance

/-- **No more brackets hold a permit than there were permits**, less those that are free. -/
theorem holders_le (hserves : (after cs).Serves i n) (hwakes : (after cs).Wakes i n)
    (hreserved : Reserved i (after cs).past) {gs : List BracketId} (hgs : gs.Nodup)
    (h : ∀ g ∈ gs, g ∈ (after cs).openedFor i ∧ 0 < (after cs).deals g (.acquires true) ∧
      g ∉ (after cs).returnedFor i) :
    gs.length + (serve n ((after cs).requests i)).available ≤ n := by
  have hall : (gs ++ (after cs).returnedFor i).Nodup :=
    List.nodup_append.2 ⟨hgs, returned_nodup hreserved, fun g hg g' hg' heq => (h g hg).2.2 (heq ▸ hg')⟩
  have hle := acquired_le hserves hwakes hreserved hall fun g hg => by
    obtain hg | hg := List.mem_append.1 hg
    · exact ⟨(h g hg).1, (h g hg).2.1⟩
    · have hopened := returned_opened hreserved hg
      exact ⟨hopened, acquired_of_returned hopened hg⟩
  have hlength := answered_length n ((after cs).requests i)
  have hbalance := reserved_balance (n := n) hreserved
  have hasked : (tickets ((after cs).requests i)).length = ((after cs).askedFor i).length := by
    rw [requests, hreserved.tickets_eq, List.length_map]
    rfl
  rw [List.length_append] at hle
  dsimp only at hbalance
  omega

/-- **Once all brackets have returned their permits, all permits are free and nobody waits.** -/
theorem all_returned (hserves : (after cs).Serves i n) (hwakes : (after cs).Wakes i n)
    (hreserved : Reserved i (after cs).past)
    (h : ∀ g ∈ (after cs).openedFor i, g ∈ (after cs).returnedFor i) :
    (after cs).store.semaphores[i]? = some ⟨n, []⟩ := by
  have hwaiting : (serve n ((after cs).requests i)).waiting = [] := by
    refine List.eq_nil_iff_forall_not_mem.2 fun w hw => ?_
    obtain ⟨hticket, hnot⟩ := not_answered n _ hserves.nodup hw
    rw [requests, hreserved.tickets_eq] at hticket
    obtain ⟨⟨g, t⟩, hasked, ht⟩ := List.mem_map.1 hticket
    have hopened := asked_opened hreserved hasked
    obtain ⟨t', hasked', hanswered⟩ :=
      answered_of_acquired hwakes hreserved hopened (acquired_of_returned hopened (h g hopened))
    cases ticket_unique hopened hasked hasked'
    exact hnot (ht ▸ hanswered)
  have hle := holders_le hserves hwakes hreserved .nil (by simp)
  have hbalance := reserved_balance (n := n) hreserved
  have hasked : ((after cs).askedFor i).length ≤ ((after cs).returnedFor i).length := by
    have hnodup : (((after cs).askedFor i).map Prod.fst).Nodup := by
      have htickets : (((after cs).askedFor i).map Prod.snd).Nodup := hreserved.tickets_eq ▸ hserves.nodup
      refine List.Nodup.map_on (fun p hp p' hp' heq => ?_) htickets.of_map
      obtain ⟨g, t⟩ := p
      obtain ⟨g', t'⟩ := p'
      cases heq
      rw [ticket_unique (asked_opened hreserved hp) hp' hp]
    rw [← List.length_map Prod.fst]
    refine (List.subperm_of_subset hnodup fun g hg => ?_).length_le
    obtain ⟨⟨g, t⟩, hp, rfl⟩ := List.mem_map.1 hg
    exact h _ (asked_opened hreserved hp)
  rw [hserves.semaphore]
  dsimp only at hbalance
  rw [hwaiting] at hbalance
  rw [List.length_nil] at hle hbalance
  generalize serve n ((after cs).requests i) = s at hwaiting hle hbalance ⊢
  obtain ⟨available, waiting⟩ := s
  dsimp only at hwaiting hle hbalance
  subst hwaiting
  have heq : available = n := by omega
  rw [heq]

end Session

end CancelableEffects
