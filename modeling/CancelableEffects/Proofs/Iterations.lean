import CancelableEffects.Proofs.Segments

/-!
# Iterations — a program that runs its step again and again

* `Rounds`: with these acts the step has been run so many times, each time with a left value.
* **`Rounds.comes`**: a round begins with the same frames on the stack as the one before it.
* `Iterating`, **`Iterating.does`**: where a program is that iterates, and where it is after one turn.
* **`Strand.comes_iterate`**: so it is always about to begin, in a round, or past the end.
* **`Prog.ends_iterate_iff`**: it ends as the first step does that ends otherwise than with a left value.
* `Prog.iterate_same`: one round, and then the rest.
* **`Prog.iterate_is_loop`**: all this, in any world and in every execution that is not cancelled.
-/

namespace CancelableEffects

/-- What a loop makes of the result of its step: the next seed, or a result of its own. -/
def Result.iterated : Result → Value ⊕ Result
  | .ok (.left v) => .inl v
  | .ok (.right v) => .inr (.ok v)
  | r => .inr r

theorem Result.eq_of_iterated {r : Result} {s : Value} (h : r.iterated = .inl s) : r = .ok (.left s) := by
  cases r with
  | error e => cases h
  | ok v =>
    cases v with
    | left v =>
      cases h
      rfl
    | _ => cases h

/-- With these acts the step has been run `n` times since the seed, each time with a left value, of which `s` is
the last one. -/
inductive Rounds (step : Value → Code Prog Prog) (link : Link) (seed : Value) : Nat → List Act → Value → Prop
  | start : Rounds step link seed 0 [] seed
  | again {n : Nat} {as bs : List Act} {s s' : Value} (h : Rounds step link seed n as s)
    (h' : (Prog.suspend (step s)).Ends link bs (.ok (.left s'))) : Rounds step link seed (n + 1) (as ++ bs) s'

/-- Where a program is, with these acts, that iterates a step above the frames `fs`. -/
inductive Iterating (step : Value → Code Prog Prog) (link : Link) (seed : Value) (fs : List Frame) :
    List Act → Strand → Prop
  /-- It is about to begin. -/
  | begins : Iterating step link seed fs [] ⟨.looking (.program (.iterate seed step)), link, fs⟩
  /-- In some round the step is at work. -/
  | works {n : Nat} {as bs : List Act} {s : Value} {s' : Stage} {link' : Link} {above : List Frame}
    (h : Rounds step link seed n as s)
    (hcomes : (Strand.mk (.suspending (step s)) link []).Comes bs ⟨s', link', above⟩) :
    Iterating step link seed fs (as ++ bs) ⟨s', link', above ++ .iterate step :: fs⟩
  /-- The step has ended otherwise than with a left value, and the frames below receive the result. -/
  | ends {n : Nat} {as bs cs : List Act} {s : Value} {r r' : Result} {z : Strand}
    (h : Rounds step link seed n as s) (hends : (Prog.suspend (step s)).Ends link bs r)
    (hr : r.iterated = .inr r') (hz : (Strand.mk (.handing r') link fs).Meets cs z) :
    Iterating step link seed fs (as ++ bs ++ cs) z

open Strand

variable {step : Value → Code Prog Prog} {link : Link} {seed s : Value} {n : Nat} {as bs : List Act}
  {r r' : Result} {fs : List Frame} {x y z : Strand}

/-! ## Rounds -/

theorem ends_step_iff {c : Code Prog Prog} :
    (Prog.suspend c).Ends link as r ↔ (Strand.mk (.suspending c) link []).Ends as r :=
  ends_iff_of_silent (looks rfl)

/-- The frame of the loop makes a next round of a left value. -/
theorem comes_again (s' : Value) : (Strand.mk (.handing (.ok (.left s'))) link (.iterate step :: fs)).Comes []
    ⟨.suspending (step s'), link, .iterate step :: fs⟩ := hands rfl _

/-- The frame of the loop hands on any other result, without its alternative. -/
theorem comes_last (hr : r.iterated = .inr r') :
    (Strand.mk (.handing r) link (.iterate step :: fs)).Comes [] ⟨.handing r', link, fs⟩ := by
  cases r with
  | error e =>
    cases hr
    exact hands rfl _
  | ok v =>
    cases v with
    | left v => cases hr
    | right v =>
      cases hr
      exact (hands rfl _).silently (looks rfl)
    | _ =>
      cases hr
      exact hands rfl _

/-- **A round begins with the same frames on the stack as every other one.** -/
theorem Rounds.comes (h : Rounds step link seed n as s) (fs : List Frame) :
    (Strand.mk (.looking (.program (.iterate seed step))) link fs).Comes as
      ⟨.suspending (step s), link, .iterate step :: fs⟩ := by
  induction h with
  | start => exact looks rfl
  | @again n as bs s s' _ hends ih =>
    have hround := ((ends_step_iff.1 hends).onto (.iterate step :: fs)).trans (comes_again s')
    rw [List.append_nil] at hround
    exact ih.trans hround

/-! ## Where the loop is -/

/-- The step begins a next round. -/
theorem Rounds.iterating (h : Rounds step link seed n as s) (fs : List Frame) :
    Iterating step link seed fs as ⟨.suspending (step s), link, .iterate step :: fs⟩ :=
  List.append_nil as ▸ .works h .here

/-- **A program that iterates is in a round, or past the end, after each turn.** -/
theorem Iterating.does (h : Iterating step link seed fs as x) (hx : x.Does bs y) :
    Iterating step link seed fs (as ++ bs) y := by
  cases h with
  | begins =>
    cases hx with
    | turns ht => cases ht with
      | looking n hc => exact Rounds.start.iterating fs
    | gets hb => cases hb
  | @works n as cs s s' link' above h hcomes =>
    by_cases hne : ∀ r, s' = .handing r → above ≠ []
    · obtain ⟨s'', link'', above', rfl, halone⟩ := @does_above _ _ _ _ [] _ _ hne hx
      rw [List.append_nil, List.append_nil] at halone
      rw [List.append_assoc]
      exact .works h (hcomes.trans halone)
    · -- the step has ended, and the frame of the loop receives its result
      obtain ⟨r, rfl, rfl⟩ : ∃ r, s' = .handing r ∧ above = [] := by simpa using hne
      obtain rfl : link' = link := hcomes.under
      have hends : (Prog.suspend (step s)).Ends link' cs r := ends_step_iff.2 ⟨link', hcomes⟩
      cases hr : r.iterated with
      | inl s' =>
        obtain rfl : r = .ok (.left s') := r.eq_of_iterated hr
        cases hx with
        | turns ht => cases ht with
          | handing r f fs hstack =>
            cases hstack
            exact (List.append_nil (as ++ cs)).symm ▸ (h.again hends).iterating fs
        | gets hb => cases hb
      | inr r' =>
        have hmeets : (Strand.mk (.handing r') link' fs).Meets [] ⟨.handing r, link', .iterate step :: fs⟩ :=
          .inr ⟨rfl, comes_last hr⟩
        exact .ends h hends hr (hmeets.does hx)
  | ends h hends hr hz =>
    rw [List.append_assoc]
    exact .ends h hends hr (hz.does hx)

/-- **So it always is.** -/
theorem Iterating.comes (h : Iterating step link seed fs bs x) (hcomes : x.Comes as z) :
    Iterating step link seed fs (bs ++ as) z := by
  induction hcomes generalizing bs with
  | here => rwa [List.append_nil]
  | goesOn hdoes _ ih => exact List.append_assoc .. ▸ ih (h.does hdoes)

namespace Prog

/-- **A program that iterates ends as the first step does that does not end with a left value.** -/
theorem ends_iterate_iff : (iterate seed step).Ends link as r ↔ ∃ n bs s cs r', Rounds step link seed n bs s ∧
    as = bs ++ cs ∧ (suspend (step s)).Ends link cs r' ∧ r'.iterated = .inr r := by
  constructor
  · rintro ⟨link', h⟩
    generalize hz : Strand.mk (.handing r) link' [] = z at h
    cases Iterating.begins.comes h with
    | begins => cases hz
    | works h hcomes =>
      injection hz with hs hlink hstack
      cases (List.append_eq_nil_iff.1 hstack.symm).2
    | @ends n bs cs ds s r₁ r₂ _ hrounds hends hr hmeets =>
      subst hz
      obtain ⟨rfl, rfl⟩ : ds = [] ∧ r = r₂ := by
        obtain hcomes | ⟨rfl, hcomes⟩ := hmeets
        · exact ends_handing_nil_iff.1 ⟨link', hcomes⟩
        · cases hcomes.of_ended
          exact ⟨rfl, rfl⟩
      exact ⟨n, bs, s, cs, r₁, hrounds, List.append_nil _, hends, hr⟩
  · rintro ⟨n, bs, s, cs, r', h, rfl, hends, hr⟩
    have hround := (ends_step_iff.1 hends).onto [.iterate step]
    have hlast : (Strand.mk (.handing r') link [.iterate step]).Comes [] ⟨.handing r, link, []⟩ := comes_last hr
    exact ⟨link, List.append_nil cs ▸ (h.comes []).trans (hround.trans hlast)⟩

/-- With a value it ends if a step ends with that as a right value, or with one that is no alternative at all. -/
theorem ends_iterate_ok_iff {v : Value} : (iterate seed step).Ends link as (.ok v) ↔
    ∃ n bs s cs, Rounds step link seed n bs s ∧ as = bs ++ cs ∧
      ((suspend (step s)).Ends link cs (.ok (.right v)) ∨
        (∀ w, v ≠ .left w ∧ v ≠ .right w) ∧ (suspend (step s)).Ends link cs (.ok v)) := by
  refine ends_iterate_iff.trans ⟨?_, ?_⟩
  · rintro ⟨n, bs, s, cs, r, h, has, hends, hr⟩
    refine ⟨n, bs, s, cs, h, has, ?_⟩
    cases r with
    | error e => cases hr
    | ok w =>
      cases w with
      | left w => cases hr
      | right w =>
        cases hr
        exact .inl hends
      | _ =>
        cases hr
        exact .inr ⟨fun _ => ⟨nofun, nofun⟩, hends⟩
  · rintro ⟨n, bs, s, cs, h, has, hends | ⟨hv, hends⟩⟩
    · exact ⟨n, bs, s, cs, _, h, has, hends, rfl⟩
    · refine ⟨n, bs, s, cs, _, h, has, hends, ?_⟩
      cases v with
      | left w => exact absurd rfl (hv w).1
      | right w => exact absurd rfl (hv w).2
      | _ => rfl

/-- With an error it ends if a step does. -/
theorem ends_iterate_error_iff {e : Error} : (iterate seed step).Ends link as (.error e) ↔
    ∃ n bs s cs, Rounds step link seed n bs s ∧ as = bs ++ cs ∧ (suspend (step s)).Ends link cs (.error e) := by
  refine ends_iterate_iff.trans ⟨?_, fun ⟨n, bs, s, cs, h, has, hends⟩ => ⟨n, bs, s, cs, _, h, has, hends, rfl⟩⟩
  rintro ⟨n, bs, s, cs, r, h, has, hends, hr⟩
  refine ⟨n, bs, s, cs, h, has, ?_⟩
  cases r with
  | error e' =>
    cases hr
    exact hends
  | ok v => cases v <;> cases hr

/-! ## One round and the rest -/

/-- The program after a round that ended with the value. -/
def onward (step : Value → Code Prog Prog) : Value → Code Prog Prog
  | .left v => .ret (iterate v step)
  | .right v => .ret (pure v)
  | v => .ret (pure v)

theorem onward_same (step : Value → Code Prog Prog) (fs : List Frame) :
    Frame.Same (.iterate step :: fs) (.bind (onward step) :: fs) := by
  intro r link
  have hbind : ∀ v, (Strand.mk (.handing (.ok v)) link (.bind (onward step) :: fs)).Comes []
      ⟨.suspending (onward step v), link, fs⟩ := fun v => hands rfl (.ok v)
  cases r with
  | error e => exact .of_meet (hands rfl _) (hands rfl _)
  | ok v =>
    cases v with
    | left v => exact .of_meet (hands rfl _) ((hbind _).silently ((comes_ret _).silently (looks rfl)))
    | right v => exact .of_meet ((hands rfl _).silently (looks rfl)) ((hbind _).silently (comes_pure v))
    | _ => exact .of_meet (hands rfl _) ((hbind _).silently (comes_pure _))

/-- **The program runs its step, and then goes on from a left value and ends with a right one.** -/
theorem iterate_same (seed : Value) (step : Value → Code Prog Prog) :
    (iterate seed step).Same (suspend ((step seed).bind fun p => .ret (bind p (onward step)))) := by
  intro link fs
  have hcloses : (Strand.mk (.suspending (step seed)) link (.iterate step :: fs)).Same
      ⟨.suspending ((step seed).bind fun p => .ret (bind p (onward step))), link, fs⟩ := by
    refine .closures Stage.suspending_calling Stage.suspending_calling (fun p => ?_) (fun m => ?_) (step seed)
    · exact (Strand.Same.above (onward_same step fs) (.looking (.program p)) link []).of_rest (comes_ret p)
        ((comes_ret _).silently (looks rfl))
    · exact .of_meet ((comes_panic m).silently (hands rfl _)) (comes_panic m)
  exact hcloses.of_rest (looks rfl) (looks rfl)

/-! ## All of it -/

/-- **A program that iterates is a loop.** For every seed and every step, whose programs may have any effects,
fail, panic or wait, in any world: it ends with a value if and only if after finitely many left values the step
ends with that as a right value (or with a value that is neither, which it then ends with as it is), after the
acts of all rounds in order; it ends with an error if and only if after finitely many left values the step is
the first to end with one, and a closure that panics ends it with the panic as an error. Above any frames it is
always about to begin, in a round above its own frame, or past the end, and every round begins with its own frame
on top of the others. And so it does in every execution until that is cancelled. -/
theorem iterate_is_loop (seed : Value) (step : Value → Code Prog Prog) :
    (∀ link as v, (iterate seed step).Ends link as (.ok v) ↔
      ∃ n bs s cs, Rounds step link seed n bs s ∧ as = bs ++ cs ∧
        ((suspend (step s)).Ends link cs (.ok (.right v)) ∨
          (∀ w, v ≠ .left w ∧ v ≠ .right w) ∧ (suspend (step s)).Ends link cs (.ok v))) ∧
      (∀ link as e, (iterate seed step).Ends link as (.error e) ↔
        ∃ n bs s cs, Rounds step link seed n bs s ∧ as = bs ++ cs ∧ (suspend (step s)).Ends link cs (.error e)) ∧
      (∀ s link as r, (suspend (step s)).Ends link as r ↔
        (∃ q as₁ as₂, as = as₁ ++ as₂ ∧ (step s).Performs as₁ (.ok q) ∧ q.Ends link as₂ r) ∨
          ∃ m, (step s).Performs as (.error m) ∧ r = .error (.panic m)) ∧
      (∀ link fs as z, (Strand.mk (.looking (.program (iterate seed step))) link fs).Comes as z →
        Iterating step link seed fs as z) ∧
      (∀ link n as s, Rounds step link seed n as s → ∀ fs,
        (Strand.mk (.looking (.program (iterate seed step))) link fs).Comes as
          ⟨.suspending (step s), link, .iterate step :: fs⟩) ∧
      ∀ cs₀ l, (Session.after cs₀).Has (.looking (.program (iterate seed step))) l → ∀ cs,
        (Session.after (cs ++ cs₀)).store.isCancelled (l.link.under l.stack) = false → ∃ later,
          (Session.after (cs ++ cs₀)).past = later ++ (Session.after cs₀).past ∧
            (∀ s l', (Session.after (cs ++ cs₀)).Has s l' → l'.id = l.id →
              Iterating step l.link seed l.stack (Session.deeds l.id later) ⟨s, l'.link, l'.stack⟩) ∧
            ∀ r ∈ (Session.after (cs ++ cs₀)).returned l.id, ∃ r₁ as₁ as₂, Session.deeds l.id later = as₁ ++ as₂ ∧
              (iterate seed step).Ends l.link as₁ r₁ ∧ (Strand.mk (.handing r₁) l.link l.stack).Ends as₂ r := by
  refine ⟨fun _ _ _ => ends_iterate_ok_iff, fun _ _ _ => ends_iterate_error_iff, fun _ _ _ _ => ends_suspend_iff,
    fun _ _ _ _ => Iterating.begins.comes, fun _ _ _ _ h fs => h.comes fs, fun cs₀ l hl cs hactive => ?_⟩
  obtain ⟨later, hpast, hcomes, hreturned⟩ := Session.carried hl cs hactive
  exact ⟨later, hpast, fun s l' hl' hid => Iterating.begins.comes (hcomes s l' hl' hid), hreturned⟩

/-- A loop of two rounds, the second of which begins with the stack of the first one. -/
theorem iterate_twice : ∃ step, Rounds step none .unit 1 [] (.bool true) ∧
    (iterate .unit step).Ends none [] (.ok (.int 7)) ∧
      (Strand.mk (.looking (.program (iterate .unit step))) none [.attempts]).Comes []
        ⟨.suspending (step (.bool true)), none, [.iterate step, .attempts]⟩ := by
  let step : Value → Code Prog Prog
    | .unit => .ret (pure (.left (.bool true)))
    | _ => .ret (pure (.right (.int 7)))
  have hround : Rounds step none .unit 1 [] (.bool true) :=
    .again .start ⟨none, (looks rfl).silently (comes_pure _)⟩
  obtain ⟨hvalue, -, -, -, hheight, -⟩ := iterate_is_loop .unit step
  have hends : (iterate .unit step).Ends none [] (.ok (.int 7)) :=
    (hvalue none [] _).2 ⟨1, [], _, [], hround, rfl, .inl ⟨none, (looks rfl).silently (comes_pure _)⟩⟩
  exact ⟨step, hround, hends, hheight none 1 [] _ hround [.attempts]⟩

end Prog

end CancelableEffects
