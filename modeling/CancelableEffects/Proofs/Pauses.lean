import CancelableEffects.Proofs.Claims
import CancelableEffects.Proofs.Runs

/-!
# Pauses — executions that are cancelled while they wait

* `CancelsWaiting`: a connection is cancelled only while no loop is at work under it.
* **`Session.halts`**: then a loop under a cancelled connection waits, or is about to be stopped, and is not about
  to run a release or tokens that it took.
* `Session.drops_eq_zero`: no release is lost.
* **`Session.all_served`**: a cancellation that is no longer at work has ended what it took.
-/

namespace CancelableEffects

/-- The connection under which a loop is at work. -/
def Activity.worksUnder : Activity → Link
  | .work _ l => l.link
  | _ => none

/-- No connection is cancelled while a loop is at work under it: an execution is cancelled by others, and only
while it waits. -/
def CancelsWaiting : List Choice → Prop
  | [] => True
  | x :: cs => (∀ a ∈ (Session.after cs).calls, (Session.after cs).store.isCancelled a.worksUnder = false →
      (Session.after (x :: cs)).store.isCancelled a.worksUnder = false) ∧ CancelsWaiting cs

instance CancelsWaiting.decidable : ∀ cs : List Choice, Decidable (CancelsWaiting cs)
  | [] => isTrue trivial
  | _ :: cs => @instDecidableAnd _ _ _ (CancelsWaiting.decidable cs)

theorem CancelsWaiting.of_append {cs cs₀ : List Choice} (h : CancelsWaiting (cs ++ cs₀)) : CancelsWaiting cs₀ := by
  induction cs with
  | nil => exact h
  | cons x cs ih => exact ih h.2

/-- A loop at the stage waits, or looks at something of which nothing is lost when it is stopped. -/
def Stage.Halts : Stage → Prop
  | .leaving _ => True
  | .looking n => n.Plain
  | _ => False

/-- A turn leaves a loop its connection, or disables cancellation, or brings it to the end of a region. -/
theorem Loop.Takes.link_cases {l : Loop} {σ : Store} {s : Stage} {t : Turn} {fs : List Frame}
    (h : l.Takes σ s t fs) : t.link = l.link ∨ t.link = none ∨ ∃ r, t.stage = .looking (.result r) := by
  cases h with
  | looking n hc => exact (n.step_link l.id l.link σ).imp_right .inl
  | handing r f fs hl =>
    rw [f.resume_link]
    cases f with
    | restore enclosing => exact .inr (.inr ⟨r, rfl⟩)
    | _ => exact .inl rfl
  | _ => exact .inl rfl

namespace Session

variable {cs : List Choice} {s : Stage} {l : Loop} {place : Nat} {g : BracketId}

/-- **Under a cancelled connection a loop waits, or looks at something of which nothing is lost.** -/
theorem halts (h : CancelsWaiting cs) (hl : (after cs).Has s l)
    (hc : (after cs).store.isCancelled l.link = true) : s.Halts := by
  rw [← List.append_nil cs] at h hl hc
  refine always_from (H := fun cs => CancelsWaiting (cs ++ []))
    (P := fun S s l => S.store.isCancelled l.link = true → s.Halts)
    (fun x cs (h : CancelsWaiting (x :: (cs ++ []))) => h.2) (by simp [Has, after, Store.boundary?])
    ?_ ?_ ?_ ?_ cs h s l hl hc
  · intro x cs s l hx hold hnew ih hc
    obtain hcall | ⟨b, rfl, -⟩ := hold
    · cases hbefore : (after (cs ++ [])).store.isCancelled l.link with
      | true => exact ih hbefore
      | false => cases (hx.1 _ hcall hbefore).symm.trans hc
    · trivial
  · intro cs place n link k _ hcall hc
    obtain hplain | ⟨hlink, -⟩ := opening _ _ (List.mem_of_getElem? hcall)
    · exact hplain
    · change Store.isCancelled link _ = true at hc
      rw [hlink] at hc
      cases hc
  · intro cs place s l t fs hx hcall ih ht hc
    change Store.isCancelled t.link _ = true at hc
    -- the loop was at work, so its connection is as it was
    have hwork : (after (cs ++ [])).store.isCancelled l.link = false := by
      cases hbefore : (after (cs ++ [])).store.isCancelled l.link with
      | false => rfl
      | true =>
        have hhalts := ih hbefore
        cases ht with
        | looking n hn => exact hbefore.symm.trans hn
        | _ => exact hhalts.elim
    obtain hlink | hlink | ⟨r, hr⟩ := ht.link_cases
    · rw [hlink] at hc
      cases (hx.1 _ (List.mem_of_getElem? hcall) hwork).symm.trans hc
    · rw [hlink] at hc
      cases hc
    · rw [hr]
      trivial
  · intro x cs b l r _ _ _ _ _ _
    trivial

/-- No loop is stopped that is about to run a release. -/
theorem drops_eq_zero (h : CancelsWaiting cs) : (after cs).deals g .drops = 0 := by
  by_contra hne
  obtain ⟨cs₂, place, a, cs₁, rfl, ha, hd⟩ := exists_of_deal (d := .drops) (by decide) (Nat.pos_of_ne_zero hne)
  obtain ⟨v, x, l, rfl, hc⟩ := Activity.of_deal_drops hd
  rw [List.append_cons] at h
  exact halts h.of_append (.inl (List.mem_of_getElem? ha)) hc

/-- Who was stopped at a node has lost nothing of it. -/
theorem plain_of_stopped (h : CancelsWaiting cs) {m : Moment} (hm : m ∈ (after cs).past) {n : Node}
    (hcall : m.call = some (.work (.looking n) l)) (hc : m.before.isCancelled l.link = true) : n.Plain := by
  obtain ⟨later, earlier, hpast⟩ := List.append_of_mem hm
  obtain ⟨cs₂, x, cs₁, rfl, -, hmade⟩ := exists_made hpast
  obtain ⟨i, -, hnone, -⟩ | ⟨place, a, -, ha, hsome, -⟩ := hmade.how
  · cases hnone.symm.trans hcall
  cases hsome.symm.trans hcall
  rw [List.append_cons] at h
  exact halts h.of_append (.inl (List.mem_of_getElem? ha)) (hmade.before ▸ hc)

/-- **A cancellation that is no longer at work has ended all brackets whose tokens it took.** -/
theorem all_served {cs₀ : List Choice} {c : ConnectionId} {ts : List Token} {s₀ : Stage} {l₀ : Loop}
    (hcall : (after cs₀).calls[place]? = some (.work s₀ l₀)) (hcancels : l₀.Cancels (after cs₀).store c ts s₀)
    (h : CancelsWaiting (cs ++ .call place :: cs₀))
    (hnone : ∀ s l, (after (cs ++ .call place :: cs₀)).Has s l → ¬l.Sweeps c s) :
    (after (cs ++ .call place :: cs₀)).AllServed ts := by
  obtain hserved | ⟨s, l, hl, hid⟩ | ⟨σ, hc, hm⟩ := cancelling_stays hcall hcancels cs
  · exact hserved
  · cases cancelling hcall hcancels cs s l hl hid with
    | takes => exact absurd (.inl ⟨_, rfl, rfl⟩) (hnone _ _ hl)
    | runs s l above done rest t first enclosing hts hstack =>
      have hmem : .sweep (some c) t rest first ∈ l.stack := hstack ▸ List.mem_append_right _ (.head _)
      exact absurd (.inr ⟨_, hmem, rfl⟩) (hnone _ _ hl)
    | ends s l hserved => exact hserved
  · cases (plain_of_stopped h hm rfl hc).1

end Session

end CancelableEffects
