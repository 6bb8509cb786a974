import CancelableEffects.Proofs.Deals
import CancelableEffects.Proofs.Executions

/-!
# Resources — each one that was acquired is accounted for

* `Session.deals`: how often a deal was made about a bracket.
* **`Session.acquisitions`**: a bracket is acquired once, or its acquisition is under way.
* **`Session.offered_le`**: its boundary is completed at most once, after the acquisition.
* **`Session.resources`**: a resource that was acquired is held, or its release is pending, or it was
  run, or the loop that was about to run it was stopped.
-/

namespace CancelableEffects

/-- What happened at this moment about the bracket. -/
def Moment.deal (g : BracketId) (m : Moment) : Deal :=
  (m.call.map (Activity.deal g m.before)).getD .nothing

namespace Session

/-- How often the deal was made about the bracket. -/
def deals (g : BracketId) (d : Deal) (S : Session) : Nat := S.past.countP fun m => m.deal g = d

variable {S : Session} {g : BracketId} {d : Deal} {next : Next} {others : List Activity}

theorem deals_call (a : Activity) : (S.record (some a) next others).deals g d =
    S.deals g d + if a.deal g S.store = d then 1 else 0 := by
  simp only [deals, record_past, List.countP_cons]
  by_cases h : a.deal g S.store = d <;> simp [Moment.deal, h]

theorem deals_input (hd : d ≠ .nothing) :
    (S.record none next others).deals g d = S.deals g d := by
  simp only [deals, record_past, List.countP_cons]
  simp [Moment.deal, Ne.symm hd]

/-- A pending call changes the dues of a bracket as its deal says. -/
theorem dues_call {cs : List Choice} {x : Activity} {xs ys : List Activity} (a k o n : Nat)
    (hS : (after cs).calls = xs ++ x :: ys)
    (hg : (x.step (after cs).store).1.KeptOtherwise g → o = 0) :
    Weight.Settles g a k o n (after cs).store ((Weight.dues g a k o n).session (after cs))
      ((Weight.dues g a k o n).session
        ((after cs).record (some x) (x.step (after cs).store) (xs ++ ys)))
      (x.deal g (after cs).store) := by
  have hsession := (Weight.dues g a k o n).session_call (x.step (after cs).store) hS
  have hsettles := Weight.next_settles (a := a) (k := k) (o := o) (n := n) hg fun b l hx =>
    leaving_open (l := l) (by rw [hS, hx]; simp)
  revert hsettles hsession
  cases x.deal g (after cs).store <;> simp only [Weight.Settles] <;> omega

theorem dues_input {cs : List Choice} {i : Input} (a k o n : Nat)
    (hg : (i.step (after cs).store).1.KeptOtherwise g → o = 0) :
    (Weight.dues g a k o n).session
        ((after cs).record none (i.step (after cs).store) (after cs).calls) =
      (Weight.dues g a k o n).session (after cs) := by
  have hsession := (Weight.dues g a k o n).session_input (S := after cs) (i.step (after cs).store)
  have hnext := Weight.next_of_plain (Weight.dues_light (g := g) (a := a) (k := k) (o := o) (n := n))
    (i.step_plain (after cs).store) (i.step_aside _) (by simpa using hg)
  omega

/-- **A bracket is acquired once, or its acquisition is under way.** -/
theorem acquisitions (g : BracketId) (cs : List Choice) :
    (Weight.dues g 1 0 0 0).session (after cs) + (after cs).deals g (.acquires true) +
        (after cs).deals g (.acquires false) =
      if ((after cs).store.terms g).isSome then 1 else 0 := by
  refine invariant (P := fun S => (Weight.dues g 1 0 0 0).session S + S.deals g (.acquires true) +
    S.deals g (.acquires false) = if (S.store.terms g).isSome then 1 else 0) rfl ?_ ?_ cs
  · intro cs i h
    rw [dues_input _ _ _ _ fun _ => rfl, deals_input (by simp), deals_input (by simp), record_store,
      i.step_terms, h]
  · intro cs x xs ys hS h
    have hdues := dues_call (g := g) 1 0 0 0 hS fun _ => rfl
    have hturns := x.step_turns (σ := (after cs).store) g
    rw [deals_call, deals_call, record_store]
    revert hdues hturns
    cases x.deal g (after cs).store with
    | opens =>
      rintro hdues ⟨hnone, br, hbr, -⟩
      simp only [Weight.Settles, hnone, hbr, Option.isSome_none, Option.isSome_some, reduceCtorEq,
        if_true, if_false] at hdues h ⊢
      omega
    | acquires ok =>
      intro hdues hturns
      have hleft : Weight.leftBy g ok 0 0 0 (after cs).store = 0 := Weight.leftBy_zero
      simp only [Weight.Settles, hleft] at hdues
      have hopen : ((after cs).store.terms g).isSome := by
        split at h
        · assumption
        · omega
      obtain ⟨br, hbr⟩ := Option.isSome_iff_exists.1 hopen
      cases ok with
      | true =>
        obtain ⟨v, hv⟩ := hturns br hbr
        simp only [hbr, hv, Option.isSome_some, reduceCtorEq, Deal.acquires.injEq, if_true,
          if_false] at h ⊢
        omega
      | false =>
        simp only [Deal.Turns] at hturns
        simp only [hturns, hbr, Option.isSome_some, Deal.acquires.injEq, Bool.false_eq_true, if_true,
          if_false] at h ⊢
        omega
    | asks token =>
      intro hdues hturns
      simp only [Weight.Settles, ite_self, Nat.add_zero] at hdues
      simp only [Deal.Turns] at hturns
      simp only [hturns, Option.isSome_map, reduceCtorEq, if_false]
      omega
    | _ =>
      intro hdues hturns
      simp only [Weight.Settles, ite_self, Nat.add_zero] at hdues
      simp only [Deal.Turns] at hturns
      simp only [hturns, reduceCtorEq, if_false]
      omega

/-- While the acquisition is under way, the bracket is there and was not acquired before. -/
theorem acquiring {cs : List Choice} {x : Activity} {xs ys : List Activity} {ok : Bool}
    (hS : (after cs).calls = xs ++ x :: ys) (hd : x.deal g (after cs).store = .acquires ok) :
    (after cs).deals g (.acquires true) = 0 ∧ (after cs).deals g (.acquires false) = 0 ∧
      ∃ br, (after cs).store.terms g = some br := by
  have h := acquisitions g cs
  have hdues := dues_call (g := g) 1 0 0 0 hS fun _ => rfl
  rw [hd] at hdues
  simp only [Weight.Settles, Weight.leftBy_zero] at hdues
  split at h
  · exact ⟨by omega, by omega, Option.isSome_iff_exists.1 ‹_›⟩
  · omega

/-- **The boundary of a bracket is completed at most once**, after the acquisition. -/
theorem offered_le (g : BracketId) (cs : List Choice)
    (hg : ¬(after cs).store.KeptOtherwise g) :
    (Weight.dues g 0 1 1 0).session (after cs) + (after cs).deals g .offers ≤
      (after cs).deals g (.acquires true) + (after cs).deals g (.acquires false) := by
  revert hg
  refine invariant (P := fun S => ¬S.store.KeptOtherwise g →
    (Weight.dues g 0 1 1 0).session S + S.deals g .offers ≤
      S.deals g (.acquires true) + S.deals g (.acquires false)) (fun _ => Nat.le_refl 0) ?_ ?_ cs
  · intro cs i ih hg
    have h := ih fun hk => hg ((i.step_grows _).kept g hk)
    rw [dues_input _ _ _ _ fun hk => absurd hk hg, deals_input (by simp), deals_input (by simp),
      deals_input (by simp)]
    exact h
  · intro cs x xs ys hS ih hg
    have h := ih fun hk => hg ((x.step_grows _).kept g hk)
    have hdues := dues_call (g := g) 0 1 1 0 hS fun hk => absurd hk hg
    rw [deals_call, deals_call, deals_call]
    revert hdues
    cases x.deal g (after cs).store with
    | acquires ok =>
      have hleft : Weight.leftBy g ok 1 1 0 (after cs).store ≤ 1 := by
        unfold Weight.leftBy
        split
        · omega
        · split <;> omega
      simp only [Weight.Settles]
      cases ok <;> simp <;> omega
    | endsLate =>
      simp only [Weight.Settles, reduceCtorEq, if_false]
      split <;> omega
    | _ =>
      simp only [Weight.Settles, reduceCtorEq, if_true, if_false, ite_self]
      omega

/-- **A resource that was acquired is held, or its release is pending, or it was run, or the loop
that was about to run it was stopped.** -/
theorem resources (g : BracketId) (cs : List Choice) :
    (after cs).deals g (.acquires true) =
      (if ((after cs).store.held? g).isSome then 1 else 0) +
        (Weight.dues g 0 0 0 1).session (after cs) +
        (after cs).deals g .releases + (after cs).deals g .drops := by
  refine invariant (P := fun S => S.deals g (.acquires true) =
    (if (S.store.held? g).isSome then 1 else 0) + (Weight.dues g 0 0 0 1).session S +
      S.deals g .releases + S.deals g .drops) rfl ?_ ?_ cs
  · intro cs i h
    rw [dues_input _ _ _ _ fun _ => rfl, deals_input (by simp), deals_input (by simp),
      deals_input (by simp), record_store, Store.held?_of_terms_eq (i.step_terms g)]
    exact h
  · intro cs x xs ys hS h
    have hdues := dues_call (g := g) 0 0 0 1 hS fun _ => rfl
    have hturns := x.step_turns (σ := (after cs).store) g
    have hacquiring : ∀ ok, x.deal g (after cs).store = .acquires ok → _ := fun ok => acquiring hS
    rw [deals_call, deals_call, deals_call, record_store]
    revert hdues hturns hacquiring
    cases x.deal g (after cs).store with
    | opens =>
      rintro hdues ⟨hnone, br, hbr, hres⟩ -
      have hbefore : (after cs).store.held? g = none := by rw [Store.held?_eq_terms, hnone]; rfl
      have hafter : (x.step (after cs).store).1.held? g = none := by
        rw [Store.held?_eq_terms, hbr]
        simp [hres]
      simp only [Weight.Settles, hbefore, hafter, Option.isSome_none, Bool.false_eq_true, if_false,
        reduceCtorEq] at hdues h ⊢
      omega
    | acquires ok =>
      intro hdues hturns hacquiring
      obtain ⟨hnever, -, br, hbr⟩ := hacquiring ok rfl
      cases ok with
      | true =>
        obtain ⟨v, hv⟩ := hturns br hbr
        have hafter : ((x.step (after cs).store).1.held? g).isSome =
            !(after cs).store.isCancelled br.link := by
          rw [Store.held?_eq_terms, hv]
          cases (after cs).store.isCancelled br.link <;> rfl
        simp only [Weight.Settles, Weight.leftBy_of_some hbr] at hdues
        rw [hafter]
        revert hdues
        cases (after cs).store.isCancelled br.link <;> simp <;> omega
      | false =>
        simp only [Deal.Turns] at hturns
        simp only [Weight.Settles, Weight.leftBy_of_some hbr] at hdues
        rw [Store.held?_of_terms_eq hturns]
        simp at hdues ⊢
        omega
    | asks token =>
      intro hdues hturns _
      simp only [Weight.Settles] at hdues
      rw [Store.held?_of_terms_take hturns]
      simp
      omega
    | _ =>
      intro hdues hturns _
      simp only [Deal.Turns] at hturns
      simp only [Weight.Settles, ite_self] at hdues
      rw [Store.held?_of_terms_eq hturns]
      simp only [reduceCtorEq, if_true, if_false]
      omega

/-! ## Consequences -/

/-- **A release is run at most once**, and only of a resource that was acquired. -/
theorem releases_le (g : BracketId) (cs : List Choice) :
    (after cs).deals g .releases ≤ (after cs).deals g (.acquires true) ∧
      (after cs).deals g (.acquires true) ≤ 1 := by
  have h := resources g cs
  have h' := acquisitions g cs
  split at h' <;> exact ⟨by omega, by omega⟩

end Session

end CancelableEffects
