import CancelableEffects.Proofs.Behaviours

/-!
# Laws — programs in sequence

* `Frame.Same`: what comes above some frames can as well come above others.
* `Prog.bind_pure_left`, `Prog.bind_pure_right`, `Prog.bind_assoc`: the laws of a monad.
* `Prog.map_same`: a transformation is a next program that gives the transformed value, also when it is
  fused with others.
* **`Prog.monad_laws`**: both sides of each law behave alike, on every stack.
-/

namespace CancelableEffects

/-- The frames treat every result alike. -/
def Frame.Same (fs gs : List Frame) : Prop :=
  ∀ r link, (Strand.mk (.handing r) link fs).Same ⟨.handing r, link, gs⟩

section Silent

variable {link : Link} {fs : List Frame}

/-- No connection is cancelled in the empty store. -/
theorem Store.isCancelled_empty (link : Link) : Store.isCancelled link {} = false := by cases link <;> rfl

namespace Strand

theorem looks {n : Node} (hn : n.core = true) :
    (Strand.mk (.looking n) link fs).Comes [] (next (n.step 0 link {}) fs) :=
  comes_looking hn (Store.isCancelled_empty link)

theorem hands {f : Frame} (hf : f.acts = false) (r : Result) :
    (Strand.mk (.handing r) link (f :: fs)).Comes [] (next (f.resume r link {}) fs) := comes_handing hf r {}

/-- A closure that computes the next program panics. -/
theorem comes_panic (m : String) :
    (Strand.mk (.suspending (.panic m)) link fs).Comes [] ⟨.handing (.error (.panic m)), link, fs⟩ :=
  have hends : (Strand.mk (.suspending (.panic m)) link fs).Comes []
      ⟨.looking (.result (.error (.panic m))), link, fs⟩ :=
    comes_idly (y := ⟨.suspending (.panic m), link, fs⟩) (e := 0) (σ := {}) (.suspending (.panic m)) rfl
  hends.silently (looks rfl)

/-- A closure that transforms a value ends. -/
theorem comes_mapped (v : Value) :
    (Strand.mk (.mapping (.ret v)) link fs).Comes [] ⟨.handing (.ok v), link, fs⟩ :=
  comes_idly (y := ⟨.mapping (.ret v), link, fs⟩) (e := 0) (σ := {}) (.mapping (.ret v)) rfl

theorem comes_unmapped (m : String) :
    (Strand.mk (.mapping (.panic m)) link fs).Comes [] ⟨.handing (.error (.panic m)), link, fs⟩ :=
  comes_idly (y := ⟨.mapping (.panic m), link, fs⟩) (e := 0) (σ := {}) (.mapping (.panic m)) rfl

/-- A closure gives the program that only gives a value. -/
theorem comes_pure (v : Value) :
    (Strand.mk (.suspending (.ret (.pure v))) link fs).Comes [] ⟨.handing (.ok v), link, fs⟩ :=
  (comes_ret (.pure v)).silently (looks rfl)

end Strand

end Silent

section Laws

open Strand

variable {link : Link} {fs : List Frame}

/-! ## Frames -/

theorem Frame.bind_pure_same (fs : List Frame) : Frame.Same (.bind (fun v => .ret (.pure v)) :: fs) fs := by
  intro r link
  refine .of_silent ?_
  cases r with
  | ok v => exact (hands rfl (.ok v)).silently (comes_pure v)
  | error e => exact hands rfl (.error e)

/-- A frame that goes on with a next program, and the one below, are one frame. -/
theorem Frame.bind_bind_same (f g : Value → Code Prog Prog) (fs : List Frame) :
    Frame.Same (.bind f :: .bind g :: fs) (.bind (fun v => (f v).bind fun p => .ret (.bind p g)) :: fs) := by
  intro r link
  cases r with
  | error e => exact .of_meet ((hands rfl (.error e)).silently (hands rfl (.error e))) (hands rfl (.error e))
  | ok v =>
    have hcloses : (Strand.mk (.suspending (f v)) link (.bind g :: fs)).Same
        ⟨.suspending ((f v).bind fun p => .ret (.bind p g)), link, fs⟩ := by
      refine .closures Stage.suspending_calling Stage.suspending_calling (fun p => ?_) (fun m => ?_) (f v)
      · exact .of_meet (comes_ret p) ((comes_ret (.bind p g)).silently (looks rfl))
      · exact .of_meet ((comes_panic m).silently (hands rfl _)) (comes_panic m)
    exact hcloses.of_rest (hands rfl (.ok v)) (hands rfl (.ok v))

/-- The transformation of a value is a next program that gives the transformed value. -/
theorem Frame.map_same (h : Value → Code Prog Value) (fs : List Frame) :
    Frame.Same (.map h :: fs) (.bind (fun v => (h v).bind fun w => .ret (.pure w)) :: fs) := by
  intro r link
  cases r with
  | error e => exact .of_meet (hands rfl (.error e)) (hands rfl (.error e))
  | ok v =>
    have hcloses : (Strand.mk (.mapping (h v)) link fs).Same
        ⟨.suspending ((h v).bind fun w => .ret (.pure w)), link, fs⟩ :=
      .closures Stage.mapping_calling Stage.suspending_calling
        (fun w => .of_meet (comes_mapped w) (comes_pure w))
        (fun m => .of_meet (comes_unmapped m) (comes_panic m)) (h v)
    exact hcloses.of_rest (hands rfl (.ok v)) (hands rfl (.ok v))

/-- Two transformations are one. -/
theorem Frame.map_map_same (g h : Value → Code Prog Value) (fs : List Frame) :
    Frame.Same (.map (fun v => (g v).bind h) :: fs) (.map g :: .map h :: fs) := by
  intro r link
  cases r with
  | error e => exact .of_meet (hands rfl (.error e)) ((hands rfl (.error e)).silently (hands rfl (.error e)))
  | ok v =>
    have hcloses : (Strand.mk (.mapping (g v)) link (.map h :: fs)).Same
        ⟨.mapping ((g v).bind h), link, fs⟩ := by
      refine .closures Stage.mapping_calling Stage.mapping_calling (fun w => ?_) (fun m => ?_) (g v)
      · exact .of_silent ((comes_mapped w).silently (hands rfl (.ok w)))
      · exact .of_meet ((comes_unmapped m).silently (hands rfl _)) (comes_unmapped m)
    exact hcloses.symm.of_rest (hands rfl (.ok v)) (hands rfl (.ok v))

theorem Frame.Same.trans {fs gs hs : List Frame} (h : Frame.Same fs gs) (h' : Frame.Same gs hs) :
    Frame.Same fs hs := fun r link => (h r link).trans (h' r link)

/-! ## Programs -/

namespace Prog

/-- Programs that begin with the same one, above frames that treat every result alike, behave alike. -/
theorem Same.of_frames {p q source : Prog} (fs gs : List Frame)
    (hp : ∀ link below, (Strand.mk (.looking (.program p)) link below).Comes []
      ⟨.looking (.program source), link, fs ++ below⟩)
    (hq : ∀ link below, (Strand.mk (.looking (.program q)) link below).Comes []
      ⟨.looking (.program source), link, gs ++ below⟩)
    (h : ∀ below, Frame.Same (fs ++ below) (gs ++ below)) : p.Same q := fun link below =>
  (Strand.Same.above (h below) (.looking (.program source)) link []).of_rest (hp link below) (hq link below)

theorem bind_pure_left (a : Value) (f : Value → Code Prog Prog) : (bind (pure a) f).Same (suspend (f a)) :=
  fun _ _ => .of_meet ((looks rfl).silently ((looks rfl).silently (hands rfl (.ok a)))) (looks rfl)

theorem bind_pure_right (m : Prog) : (bind m fun v => .ret (pure v)).Same m :=
  .of_frames [.bind fun v => .ret (pure v)] [] (fun _ _ => looks rfl) (fun _ _ => .here)
    Frame.bind_pure_same

theorem bind_assoc (m : Prog) (f g : Value → Code Prog Prog) :
    (bind (bind m f) g).Same (bind m fun v => (f v).bind fun p => .ret (bind p g)) :=
  .of_frames [.bind f, .bind g] [.bind fun v => (f v).bind fun p => .ret (bind p g)]
    (fun _ _ => (looks rfl).silently (looks rfl)) (fun _ _ => looks rfl) (Frame.bind_bind_same f g)

theorem mapped_same (m : Prog) (h : Value → Code Prog Value) (fused : Nat) :
    (mapped m h fused).Same (bind m fun v => (h v).bind fun w => .ret (pure w)) :=
  .of_frames [.map h] [.bind fun v => (h v).bind fun w => .ret (pure w)]
    (fun _ _ => looks rfl) (fun _ _ => looks rfl) (Frame.map_same h)

/-- Also where it is fused with the transformations before. -/
theorem map_same (m : Prog) (h : Value → Code Prog Value) :
    (m.map h).Same (bind m fun v => (h v).bind fun w => .ret (pure w)) := by
  cases m with
  | mapped source g fused =>
    simp only [map]
    split
    · have hframes : ∀ below, Frame.Same (.map (fun v => (g v).bind h) :: below)
          (.map g :: .bind (fun v => (h v).bind fun w => .ret (pure w)) :: below) := fun below =>
        (Frame.map_map_same g h below).trans fun r link =>
          Strand.Same.above (Frame.map_same h below) (.handing r) link [.map g]
      exact .of_frames [.map fun v => (g v).bind h]
        [.map g, .bind fun v => (h v).bind fun w => .ret (pure w)] (fun _ _ => looks rfl)
        (fun _ _ => (looks rfl).silently (looks rfl)) hframes
    · exact mapped_same _ h 0
  | _ => exact mapped_same _ h 0

/-- **The laws of a monad, with effects.** For all programs, whatever their effects are, whether they fail,
panic or wait, and wherever closures panic: in any world, above any frames and in every execution in which
cancellation is disabled, both sides do the same, in the same order, and end with the same result. -/
theorem monad_laws (a : Value) (m : Prog) (f g : Value → Code Prog Prog) (h : Value → Code Prog Value) :
    (bind (pure a) f).Alike (suspend (f a)) ∧ (bind m fun v => .ret (pure v)).Alike m ∧
      (bind (bind m f) g).Alike (bind m fun v => (f v).bind fun p => .ret (bind p g)) ∧
        (m.map h).Alike (bind m fun v => (h v).bind fun w => .ret (pure w)) :=
  ⟨(bind_pure_left a f).alike, (bind_pure_right m).alike, (bind_assoc m f g).alike, (map_same m h).alike⟩

end Prog

end Laws

end CancelableEffects
