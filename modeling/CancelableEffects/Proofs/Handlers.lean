import CancelableEffects.Proofs.Segments

/-!
# Handlers — the ways to go on after an error agree

* `Result.handled`: how a program goes on with a result.
* `Prog.fold_same`: both handlers at once are an attempt, and then the one or the other.
* `Prog.recover_same`: a handler of errors goes on with every value as it is.
* `Prog.ends_attempt_iff`, `Prog.comes_attempt`: an attempt never fails.
* `Prog.comes_fold`, `Prog.comes_recover`: a handler is on the stack only while its source is at work.
* **`Prog.error_handlers_agree`**: all this, on every stack.
-/

namespace CancelableEffects

/-- How a program goes on with a result: with a value as `f` tells, and with an error as `h` does. -/
def Result.handled (h : Error → Code Prog Prog) (f : Value → Code Prog Prog) : Result → Code Prog Prog
  | .ok v => f v
  | .error e => h e

namespace Prog

open Strand

variable {link : Link} {below : List Frame} {m : Prog} {h : Error → Code Prog Prog}
  {f : Value → Code Prog Prog} {as : List Act} {r : Result} {z : Strand}

/-! ## One handler for another -/

theorem fold_begins (m : Prog) (h : Error → Code Prog Prog) (f : Value → Code Prog Prog) :
    (fold m h f).Begins m [.fold h f] := fun _ _ => looks rfl

theorem recover_begins (m : Prog) (h : Error → Code Prog Prog) : (recover m h).Begins m [.recover h] :=
  fun _ _ => looks rfl

theorem attempt_begins (m : Prog) : (attempt m).Begins m [.attempts] := fun _ _ => looks rfl

/-- An attempt hands on every result as a value. -/
theorem comes_attempts (link : Link) (below : List Frame) (r : Result) :
    (Strand.mk (.handing r) link (.attempts :: below)).Comes [] ⟨.handing (.ok r.toValue), link, below⟩ :=
  Strand.comes_attempts (Store.isCancelled_empty link) r

/-- Both handlers at once are an attempt, and then the one or the other. -/
theorem fold_same (m : Prog) (h : Error → Code Prog Prog) (f : Value → Code Prog Prog) :
    (fold m h f).Same (bind (attempt m) fun v => v.toResult.handled h f) := by
  refine .of_frames [.fold h f] [.attempts, .bind fun v => v.toResult.handled h f]
    (fold_begins m h f) (fun _ _ => (looks rfl).silently (looks rfl)) fun below r link => ?_
  have hthen : (Strand.mk (.handing (.ok r.toValue)) link
      (.bind (fun v => v.toResult.handled h f) :: below)).Comes [] ⟨.suspending (r.handled h f), link, below⟩ := by
    simpa [Frame.resume, next] using
      @hands link below (.bind fun v => v.toResult.handled h f) rfl (.ok r.toValue)
  have hfold : (Strand.mk (.handing r) link (.fold h f :: below)).Comes []
      ⟨.suspending (r.handled h f), link, below⟩ := by
    cases r with
    | ok v => exact hands rfl (.ok v)
    | error e => exact hands rfl (.error e)
  exact .of_meet hfold ((comes_attempts link _ r).silently hthen)

/-- A handler of errors goes on with every value as it is. -/
theorem recover_same (m : Prog) (h : Error → Code Prog Prog) :
    (recover m h).Same (fold m h fun v => .ret (pure v)) := by
  refine .of_frames [.recover h] [.fold h fun v => .ret (pure v)] (recover_begins m h) (fold_begins m h _)
    fun below r link => ?_
  cases r with
  | ok v => exact .of_meet (hands rfl (.ok v)) ((hands rfl (.ok v)).silently (comes_pure v))
  | error e => exact .of_meet (hands rfl (.error e)) (hands rfl (.error e))

/-! ## Attempts -/

/-- **An attempt ends as its source does, with the result as a value.** -/
theorem ends_attempt_iff : (attempt m).Ends link as r ↔ ∃ r₁, r = .ok r₁.toValue ∧ m.Ends link as r₁ := by
  rw [(attempt_begins m).ends_iff]
  constructor
  · rintro ⟨r₁, as₁, as₂, rfl, hends, hrest⟩
    obtain ⟨rfl, rfl⟩ := ends_handing_nil_iff.1 ((ends_iff_of_silent (comes_attempts link [] r₁)).1 hrest)
    exact ⟨r₁, rfl, by rwa [List.append_nil]⟩
  · rintro ⟨r₁, rfl, hends⟩
    exact ⟨r₁, as, [], (List.append_nil as).symm, hends, link, comes_attempts link [] r₁⟩

/-- What lies below an attempt receives a value. -/
theorem comes_attempt (hz : (Strand.mk (.looking (.program (attempt m))) link below).Comes as z) :
    z.Above below ∨ ∃ r as₁ as₂, as = as₁ ++ as₂ ∧ m.Ends link as₁ r ∧
      (Strand.mk (.handing (.ok r.toValue)) link below).Comes as₂ z := by
  obtain habove | ⟨r, as₁, as₂, rfl, hends, hrest⟩ := hz.above_or
  · exact .inl habove
  · obtain ⟨r₁, rfl, hsource⟩ := ends_attempt_iff.1 hends
    exact .inr ⟨r₁, as₁, as₂, rfl, hsource, hrest⟩

/-! ## Handlers on the stack -/

/-- The handlers are on the stack only until one of them receives the result of the source. -/
theorem comes_fold (hz : (Strand.mk (.looking (.program (fold m h f))) link below).Comes as z) :
    (as = [] ∧ z.Comes [] ⟨.looking (.program m), link, .fold h f :: below⟩) ∨ z.Above (.fold h f :: below) ∨
      ∃ r as₁ as₂, as = as₁ ++ as₂ ∧ m.Ends link as₁ r ∧
        (Strand.mk (.suspending (r.handled h f)) link below).Meets as₂ z := by
  obtain hbegins | habove | ⟨r, as₁, as₂, has, hends, hrest⟩ := (fold_begins m h f).phases rfl hz
  · exact .inl hbegins
  · exact .inr (.inl habove)
  · refine .inr (.inr ⟨r, as₁, as₂, has, hends, ?_⟩)
    cases r <;> exact hrest

/-- So is a handler of errors; a value passes it. -/
theorem comes_recover (hz : (Strand.mk (.looking (.program (recover m h))) link below).Comes as z) :
    (as = [] ∧ z.Comes [] ⟨.looking (.program m), link, .recover h :: below⟩) ∨ z.Above (.recover h :: below) ∨
      ∃ r as₁ as₂, as = as₁ ++ as₂ ∧ m.Ends link as₁ r ∧
        ((∃ e, r = .error e ∧ (Strand.mk (.suspending (h e)) link below).Meets as₂ z) ∨
          ∃ v, r = .ok v ∧ (Strand.mk (.handing (.ok v)) link below).Meets as₂ z) := by
  obtain hbegins | habove | ⟨r, as₁, as₂, has, hends, hrest⟩ := (recover_begins m h).phases rfl hz
  · exact .inl hbegins
  · exact .inr (.inl habove)
  · refine .inr (.inr ⟨r, as₁, as₂, has, hends, ?_⟩)
    cases r with
    | ok v => exact .inr ⟨v, rfl, hrest⟩
    | error e => exact .inl ⟨e, rfl, hrest⟩

/-! ## All of them -/

/-- **The ways to go on after an error agree.** For every source and all handlers, whatever their effects are and
whether they fail, panic or wait, on every stack: two handlers at once are an attempt, and then the one or the
other; every other handler is such a pair; an attempt hands a value to what lies below, never an error; and once
the source has ended, with an error or not, the handlers are no longer on the stack, so that what the one that
goes on raises or panics with comes to what lies below, and to neither of them. -/
theorem error_handlers_agree (m : Prog) (h : Error → Code Prog Prog) (f : Value → Code Prog Prog)
    (h₁ : Error → Code Prog Value) (f₁ : Value → Code Prog Value) (h₂ : Error → Code Prog Error) :
    (fold m h f).Alike (bind (attempt m) fun v => v.toResult.handled h f) ∧
      (recover m h).Alike (fold m h fun v => .ret (pure v)) ∧
      (handle m h₁).Alike (fold m (fun e => (h₁ e).bind fun v => .ret (pure v)) fun v => .ret (pure v)) ∧
      (mapError m h₂).Alike (fold m (fun e => (h₂ e).bind fun e' => .ret (raise e')) fun v => .ret (pure v)) ∧
      (redeem m h₁ f₁).Alike (fold m (fun e => (h₁ e).bind fun v => .ret (pure v)) fun v =>
        (f₁ v).bind fun w => .ret (pure w)) ∧
      (∀ link below as z, (Strand.mk (.looking (.program (attempt m))) link below).Comes as z →
        z.Above below ∨ ∃ r as₁ as₂, as = as₁ ++ as₂ ∧ m.Ends link as₁ r ∧
          (Strand.mk (.handing (.ok r.toValue)) link below).Comes as₂ z) ∧
      (∀ link below as z, (Strand.mk (.looking (.program (fold m h f))) link below).Comes as z →
        (as = [] ∧ z.Comes [] ⟨.looking (.program m), link, .fold h f :: below⟩) ∨ z.Above (.fold h f :: below) ∨
          ∃ r as₁ as₂, as = as₁ ++ as₂ ∧ m.Ends link as₁ r ∧
            (Strand.mk (.suspending (r.handled h f)) link below).Meets as₂ z) ∧
      ∀ link below as z, (Strand.mk (.looking (.program (recover m h))) link below).Comes as z →
        (as = [] ∧ z.Comes [] ⟨.looking (.program m), link, .recover h :: below⟩) ∨
          z.Above (.recover h :: below) ∨ ∃ r as₁ as₂, as = as₁ ++ as₂ ∧ m.Ends link as₁ r ∧
            ((∃ e, r = .error e ∧ (Strand.mk (.suspending (h e)) link below).Meets as₂ z) ∨
              ∃ v, r = .ok v ∧ (Strand.mk (.handing (.ok v)) link below).Meets as₂ z) :=
  ⟨(fold_same m h f).alike, (recover_same m h).alike, (recover_same m _).alike, (recover_same m _).alike,
    Same.alike (p := redeem m h₁ f₁) fun _ _ => Strand.Same.refl _, fun _ _ _ _ => comes_attempt,
    fun _ _ _ _ => comes_fold, fun _ _ _ _ => comes_recover⟩

/-- A failing source under a handler that fails too: that failure is what the program ends with, and the handler
has been called for the failure of the source only. -/
theorem failing_handler_is_gone :
    (Strand.mk (.looking (.program (fold (raise (.msg "source")) (fun _ => .ret (raise (.msg "handler")))
        fun v => .ret (pure v)))) none []).Comes [] ⟨.handing (.error (.msg "handler")), none, []⟩ ∧
      ∃ r as₁ as₂, [] = as₁ ++ as₂ ∧ (raise (.msg "source")).Ends none as₁ r ∧
        (Strand.mk (.suspending (r.handled (fun _ => .ret (raise (.msg "handler"))) fun v => .ret (pure v)))
          none []).Meets as₂ ⟨.handing (.error (.msg "handler")), none, []⟩ := by
  have hcomes : (Strand.mk (.looking (.program (fold (raise (.msg "source"))
      (fun _ => .ret (raise (.msg "handler"))) fun v => .ret (pure v)))) none []).Comes []
        ⟨.handing (.error (.msg "handler")), none, []⟩ :=
    (looks rfl).silently ((looks rfl).silently ((hands rfl _).silently ((comes_ret _).silently (looks rfl))))
  obtain ⟨-, -, -, -, -, -, hfold, -⟩ := error_handlers_agree (raise (.msg "source"))
    (fun _ => .ret (raise (.msg "handler"))) (fun v => .ret (pure v)) (fun _ => .ret .unit) .ret .ret
  obtain ⟨-, hbegins⟩ | ⟨s, link, above, hz, -⟩ | hgone := hfold none [] [] _ hcomes
  · cases hbegins.of_ended
  · cases above <;> cases hz
  · exact ⟨hcomes, hgone⟩

end Prog

end CancelableEffects
