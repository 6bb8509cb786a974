import CancelableEffects.Proofs.Claims
import CancelableEffects.Proofs.Evaluation.Rules

/-!
# Strands — what a program does in a world that it shares

A program runs among others, so what it does depends on the stores that it finds and on the results that
come to its boundaries. A strand is a loop cut off from what lies below it on the stack; it runs by the turns
of loops.

* `Act`: what a program does to the world, or gets from it.
* `Stage.acts`: the next turn does something, or depends on the world.
* **`Loop.Takes.idle`**: any other turn leaves the world alone, and depends on nothing in it.
* `Strand.Comes`: with these acts the strand comes to another one.
* **`Strand.Comes.unique`**: and to no other.
* **`Strand.comes_above`**: a turn of a loop is a turn of the frames above any others.
* **`Loop.Takes.spares`**: who has nothing to do with a bracket, and does not run its token, keeps off it.
-/

namespace CancelableEffects

/-! ## Acts -/

/-- What a program does to the world, or gets from it. -/
inductive Act where
  /-- A turn finds the store `σ`, leaves `σ'`, and makes these calls. -/
  | did (σ σ' : Store) (calls : List Activity)
  /-- The boundary is completed with the result. -/
  | got (b : BoundaryId) (r : Result)

/-- The frame looks at the world, or changes it, when it receives a result. -/
def Frame.acts : Frame → Bool
  | .restore _ | .attempt | .use _ _ => false
  | f => !f.core

/-- The next turn from this stage, with these frames, looks at the world or changes it. -/
def Stage.acts (fs : List Frame) : Stage → Bool
  | .looking n => !n.core
  | .handing _ => match fs with
    | f :: _ => f.acts
    | [] => false
  | .leaving _ => false
  | s => s.effect?.isSome

/-- The acts of a turn from this stage: one, or none. -/
def Stage.deed (fs : List Frame) (σ : Store) (t : Turn) (s : Stage) : List Act :=
  if s.acts fs then [.did σ t.store t.calls] else []

section Acts

variable {l : Loop} {σ : Store} {s : Stage} {t : Turn} {fs above below : List Frame}

theorem Stage.acts_append (h : ∀ r, s = .handing r → above ≠ []) (fs : List Frame) :
    s.acts (above ++ fs) = s.acts above := by
  cases s with
  | handing r => cases above with
    | nil => exact absurd rfl (h r rfl)
    | cons f above => rfl
  | _ => rfl

theorem Code.move_of_effect? {α : Type} {c : Code Prog α} (h : c.effect? = none) :
    ∃ o, ∀ σ, c.move σ = ((σ, []), .inl o) := by
  cases c with
  | ret a => exact ⟨_, fun σ => rfl⟩
  | panic m => exact ⟨_, fun σ => rfl⟩
  | _ => cases h

theorem Code.turn_of_effect? {α : Type} {again : Code Prog α → Stage} {done : Except String α → Stage}
    {c : Code Prog α} (h : c.effect? = none) (link : Link) (σ σ' : Store) :
    c.turn again done link σ' = { c.turn again done link σ with store := σ' } ∧
      (c.turn again done link σ).store = σ ∧ (c.turn again done link σ).calls = [] := by
  obtain ⟨o, ho⟩ := Code.move_of_effect? h
  simp only [Code.turn, ho, and_self]

theorem Prog.step_of_core {p : Prog} (h : p.core = true) (e : ExecutionId) (link : Link) (σ σ' : Store) :
    p.step e link σ' = { p.step e link σ with store := σ' } ∧ (p.step e link σ).store = σ ∧
      (p.step e link σ).calls = [] := by
  cases p <;> first | exact ⟨rfl, rfl, rfl⟩ | cases h

theorem Node.step_of_core {n : Node} (h : n.core = true) (e : ExecutionId) (link : Link) (σ σ' : Store) :
    n.step e link σ' = { n.step e link σ with store := σ' } ∧ (n.step e link σ).store = σ ∧
      (n.step e link σ).calls = [] := by
  cases n with
  | program p => exact Prog.step_of_core h e link σ σ'
  | result r => exact ⟨rfl, rfl, rfl⟩
  | _ => cases h

theorem Frame.resume_of_idle {f : Frame} (h : f.acts = false) (r : Result) (link : Link) (σ σ' : Store) :
    f.resume r link σ' = { f.resume r link σ with store := σ' } ∧ (f.resume r link σ).store = σ ∧
      (f.resume r link σ).calls = [] := by
  cases f with
  | map f => cases r <;> exact ⟨rfl, rfl, rfl⟩
  | bind f => cases r <;> exact ⟨rfl, rfl, rfl⟩
  | recover handler => cases r <;> exact ⟨rfl, rfl, rfl⟩
  | fold onError onValue => cases r <;> exact ⟨rfl, rfl, rfl⟩
  | use g f => cases r <;> exact ⟨rfl, rfl, rfl⟩
  | iterate f =>
    simp only [Frame.resume]
    split <;> exact ⟨rfl, rfl, rfl⟩
  | restore enclosing => exact ⟨rfl, rfl, rfl⟩
  | attempt => exact ⟨rfl, rfl, rfl⟩
  | _ => cases h

/-- **A turn without an act leaves the world alone, and depends on nothing in it.** -/
theorem Loop.Takes.idle (ht : l.Takes σ s t fs) (h : s.acts l.stack = false) :
    t.store = σ ∧ t.calls = [] ∧ ∀ σ' : Store, σ'.isCancelled l.link = false →
      l.Takes σ' s { t with store := σ' } fs := by
  cases ht with
  | looking n hc =>
    have hcore : n.core = true := by simpa [Stage.acts] using h
    refine ⟨(n.step_of_core hcore l.id l.link σ σ).2.1, (n.step_of_core hcore l.id l.link σ σ).2.2,
      fun σ' hc' => ?_⟩
    rw [← (n.step_of_core hcore l.id l.link σ σ').1]
    exact .looking n hc'
  | handing r f fs hstack =>
    have hf : f.acts = false := by simpa [Stage.acts, hstack] using h
    refine ⟨(f.resume_of_idle hf r l.link σ σ).2.1, (f.resume_of_idle hf r l.link σ σ).2.2,
      fun σ' hc' => ?_⟩
    rw [← (f.resume_of_idle hf r l.link σ σ').1]
    exact .handing r f fs hstack
  | delaying c =>
    have hc : c.effect? = none := by simpa [Stage.acts, Stage.effect?] using h
    refine ⟨(c.turn_of_effect? hc l.link σ σ).2.1, (c.turn_of_effect? hc l.link σ σ).2.2, fun σ' _ => ?_⟩
    rw [← (c.turn_of_effect? hc l.link σ σ').1]
    exact .delaying c
  | suspending c =>
    have hc : c.effect? = none := by simpa [Stage.acts, Stage.effect?] using h
    refine ⟨(c.turn_of_effect? hc l.link σ σ).2.1, (c.turn_of_effect? hc l.link σ σ).2.2, fun σ' _ => ?_⟩
    rw [← (c.turn_of_effect? hc l.link σ σ').1]
    exact .suspending c
  | mapping c =>
    have hc : c.effect? = none := by simpa [Stage.acts, Stage.effect?] using h
    refine ⟨(c.turn_of_effect? hc l.link σ σ).2.1, (c.turn_of_effect? hc l.link σ σ).2.2, fun σ' _ => ?_⟩
    rw [← (c.turn_of_effect? hc l.link σ σ').1]
    exact .mapping c

end Acts

/-! ## Strands -/

/-- A loop at a stage, without what lies below on its stack, its execution and its sink. -/
structure Strand where
  stage : Stage
  link : Link
  stack : List Frame

namespace Strand

/-- The strand as a loop of the execution `e`. -/
def loop (e : ExecutionId) (x : Strand) : Loop := ⟨e, x.link, x.stack, .discard⟩

/-- The strand after a turn above the frames `fs`. -/
def next (t : Turn) (fs : List Frame) : Strand := ⟨t.stage, t.link, t.frames ++ fs⟩

/-- The strand takes a turn, or gets a result at a boundary, and is the other one then. A turn may find any
store, as others change the store meanwhile, and a boundary may be completed with any result. -/
inductive Does (x : Strand) : List Act → Strand → Prop
  | turns {e : ExecutionId} {σ : Store} {t : Turn} {fs : List Frame} (ht : (x.loop e).Takes σ x.stage t fs) :
    Does x (x.stage.deed x.stack σ t) (next t fs)
  | gets {b : BoundaryId} (hb : x.stage = .leaving b) (r : Result) :
    Does x [.got b r] ⟨.looking (.result r), x.link, x.stack⟩

/-- With these acts the strand comes to another one. -/
inductive Comes : Strand → List Act → Strand → Prop
  | here {x : Strand} : Comes x [] x
  | goesOn {x y z : Strand} {as bs : List Act} (h : x.Does as y) (h' : Comes y bs z) : Comes x (as ++ bs) z

section Comes

variable {x y z : Strand} {as bs : List Act} {e e' : ExecutionId} {σ : Store} {s : Stage} {link : Link}
  {t t' : Turn} {fs fs' : List Frame}

theorem Does.comes (h : x.Does as y) : x.Comes as y := List.append_nil as ▸ .goesOn h .here

theorem Comes.trans (h : x.Comes as y) (h' : y.Comes bs z) : x.Comes (as ++ bs) z := by
  induction h with
  | here => exact h'
  | goesOn hx _ ih => exact List.append_assoc .. ▸ .goesOn hx (ih h')

/-- The strand has come to the next one without an act. -/
theorem Comes.silently (h : x.Comes [] y) (h' : y.Comes as z) : x.Comes as z := h.trans h'

/-! ### Acts determine what a strand comes to -/

/-- Which execution takes the turn does not matter to the strand. -/
theorem next_unique (ht : (x.loop e).Takes σ s t fs) (ht' : (x.loop e').Takes σ s t' fs') :
    next t fs = next t' fs' := by
  cases ht with
  | looking n =>
    cases ht' with
    | looking =>
      cases n with
      | program p => cases p with
        | joinEach fs => cases fs <;> rfl
        | _ => rfl
      | _ => rfl
  | handing r f fs hstack =>
    cases ht' with
    | handing _ f' fs' hstack' =>
      obtain ⟨rfl, rfl⟩ := List.cons_eq_cons.1 (hstack.symm.trans hstack')
      rfl
  | delaying c => cases ht'; rfl
  | suspending c => cases ht'; rfl
  | mapping c => cases ht'; rfl

theorem Does.length_eq (h : x.Does as y) (h' : x.Does bs z) : as.length = bs.length := by
  cases h with
  | turns ht =>
    cases h' with
    | turns ht' => simp only [Stage.deed]; split <;> rfl
    | gets hb r =>
      rw [hb] at ht
      cases ht
  | gets hb r =>
    cases h' with
    | turns ht' =>
      rw [hb] at ht'
      cases ht'
    | gets hb' r' => rfl

theorem Does.unique (h : x.Does as y) (h' : x.Does as z) : y = z := by
  generalize has : as = bs at h'
  cases h with
  | turns ht =>
    cases h' with
    | turns ht' =>
      by_cases hacts : x.stage.acts x.stack = true
      · simp only [Stage.deed, hacts, if_true, List.cons.injEq, Act.did.injEq, and_true] at has
        obtain ⟨rfl, -⟩ := has
        exact next_unique ht ht'
      · -- a turn without an act could have found any store
        have hidle := Bool.eq_false_iff.2 hacts
        have hactive : Store.isCancelled x.link {} = false := by cases x.link <;> rfl
        have hnext := next_unique ((ht.idle hidle).2.2 {} hactive) ((ht'.idle hidle).2.2 {} hactive)
        exact hnext
    | gets hb r =>
      rw [hb] at ht
      cases ht
  | gets hb r =>
    cases h' with
    | turns ht' =>
      rw [hb] at ht'
      cases ht'
    | gets hb' r' =>
      cases has
      rfl

/-- **With the same acts a strand comes to the same**, but for turns without an act. -/
theorem Comes.unique (h : x.Comes as y) (h' : x.Comes as z) : y.Comes [] z ∨ z.Comes [] y := by
  induction h with
  | here => exact .inl h'
  | goesOn hx hy ih =>
    rename_i x y₁ y as bs
    generalize has : as ++ bs = cs at h'
    cases h' with
    | here => exact .inr (has ▸ .goesOn hx hy)
    | goesOn hx' hy' =>
      obtain ⟨rfl, rfl⟩ := List.append_inj has (hx.length_eq hx')
      cases hx.unique hx'
      exact ih hy'

/-- Who has come to its end goes nowhere. -/
theorem Comes.of_ended {r : Result} (h : (Strand.mk (.handing r) link []).Comes as z) :
    z = ⟨.handing r, link, []⟩ := by
  cases h with
  | here => rfl
  | goesOn hx =>
    cases hx with
    | turns ht => cases ht with
      | handing r f fs hstack => cases hstack
    | gets hb => cases hb

/-! ### Turns without an act -/

theorem comes_idly (ht : (y.loop e).Takes σ y.stage t fs) (h : y.stage.acts y.stack = false) :
    y.Comes [] (next t fs) := by
  have hcomes := (Does.turns ht).comes
  rwa [Stage.deed, if_neg (by simp [h])] at hcomes

theorem comes_looking {n : Node} (hn : n.core = true) (hc : σ.isCancelled link = false) :
    (Strand.mk (.looking n) link fs).Comes [] (next (n.step 0 link σ) fs) :=
  comes_idly (y := ⟨.looking n, link, fs⟩) (e := 0) (.looking n hc) (by simp [Stage.acts, hn])

theorem comes_handing {f : Frame} (hf : f.acts = false) (r : Result) (σ : Store) :
    (Strand.mk (.handing r) link (f :: fs)).Comes [] (next (f.resume r link σ) fs) :=
  comes_idly (y := ⟨.handing r, link, f :: fs⟩) (e := 0) (.handing r f fs rfl) hf

theorem comes_ret (p : Prog) :
    (Strand.mk (.suspending (.ret p)) link fs).Comes [] ⟨.looking (.program p), link, fs⟩ :=
  comes_idly (y := ⟨.suspending (.ret p), link, fs⟩) (e := 0) (σ := {}) (.suspending (.ret p)) rfl

end Comes

end Strand

section Above

variable {l : Loop} {σ : Store} {s : Stage} {t : Turn} {fs above below : List Frame}

/-- **A turn of a loop is a turn of the frames above any others**, unless these receive the result. -/
theorem Strand.comes_above (ht : l.Takes σ s t fs) (hstack : l.stack = above ++ below)
    (hne : ∀ r, s = .handing r → above ≠ []) :
    ∃ above', fs = above' ++ below ∧ above' <:+ above ∧
      t.link.under (t.frames ++ above') = l.link.under above ∧ ∀ below', (Strand.mk s l.link (above ++ below')).Comes
        (s.deed l.stack σ t) ⟨t.stage, t.link, t.frames ++ above' ++ below'⟩ := by
  have hturn : ∃ above', fs = above' ++ below ∧ above' <:+ above ∧ ∀ below',
      ((Strand.mk s l.link (above ++ below')).loop l.id).Takes σ s t (above' ++ below') := by
    cases ht with
    | looking n hc => exact ⟨above, hstack, List.suffix_refl _, fun below' => .looking n hc⟩
    | handing r f fs hf =>
      cases above with
      | nil => exact absurd rfl (hne r rfl)
      | cons f' above =>
        obtain ⟨rfl, rfl⟩ := List.cons_eq_cons.1 (hf.symm.trans hstack)
        exact ⟨above, rfl, List.suffix_cons _ _, fun below' => .handing r f (above ++ below') rfl⟩
    | delaying c => exact ⟨above, hstack, List.suffix_refl _, fun below' => .delaying c⟩
    | suspending c => exact ⟨above, hstack, List.suffix_refl _, fun below' => .suspending c⟩
    | mapping c => exact ⟨above, hstack, List.suffix_refl _, fun below' => .mapping c⟩
  obtain ⟨above', hfs, hsuffix, htakes⟩ := hturn
  refine ⟨above', hfs, hsuffix, ?_, fun below' => ?_⟩
  · have hunder := (htakes []).under
    simpa [Strand.loop, Turn.loop] using hunder
  · have hcomes := (Does.turns (htakes below')).comes
    rw [Stage.deed, Stage.acts_append hne] at hcomes
    rw [Stage.deed, hstack, Stage.acts_append hne]
    simpa [Strand.next, List.append_assoc] using hcomes

end Above

/-! ## Keeping off a bracket -/

/-- The frame has nothing to do with the bracket. -/
def Frame.Spares (g : BracketId) (f : Frame) : Prop := f.bracket? ≠ some g ∧ f ≠ .openGate g

/-- A loop at the stage neither comes to the boundary of the bracket nor is about to run its release. -/
def Stage.Spares (g : BracketId) (s : Stage) : Prop :=
  s ≠ .leaving g ∧ ∀ v x, s ≠ .looking (.release g v x)

section Spares

variable {l : Loop} {σ : Store} {s : Stage} {t : Turn} {fs : List Frame} {g : BracketId}

theorem Frame.Plain.ne_openGate {f : Frame} (h : f.Plain) : f ≠ .openGate g := by
  rintro rfl
  exact h

theorem Stage.Plain.ne_release {σ : Store} {s : Stage} (h : s.Plain σ) (v : Value) (x : ExitCase) :
    s ≠ .looking (.release g v x) := by
  rintro rfl
  exact h

/-- Only the token of the bracket, or its release, leads to its release and its gate. -/
theorem Node.step_spares (n : Node) (e : ExecutionId) (link : Link) (hrelease : ∀ v x, n ≠ .release g v x)
    (htoken : n ≠ .token (.bracket g)) :
    (∀ v x, (n.step e link σ).stage ≠ .looking (.release g v x)) ∧
      ∀ f ∈ (n.step e link σ).frames, f ≠ .openGate g := by
  by_cases hn : n.Ordinary
  · exact ⟨(n.step_plain hn e σ).stage.ne_release, fun f hf => ((n.step_plain hn e σ).frames f hf).ne_openGate⟩
  cases n with
  | program p =>
    cases p with
    | bracket acquire use release => simp [Node.step, Prog.step]
    | pop c => simp only [Node.step, Prog.step]; split <;> simp
    | _ => exact absurd trivial hn
  | token t =>
    cases t with
    | bracket g' =>
      have hne : g' ≠ g := fun h => htoken (h ▸ rfl)
      simp only [Node.step, Token.begin, Store.takeRelease]
      split <;> simp [hne]
    | connection c => simp only [Node.step, Token.begin]; split <;> simp
    | _ => exact absurd ⟨rfl, by simp⟩ hn
  | sweep of ts => cases ts <;> simp [Node.step, Store.sweep]
  | release g' v x =>
    have hne : g' ≠ g := fun h => hrelease v x (h ▸ rfl)
    simp only [Node.step]
    split <;> simp [hne]
  | _ => exact absurd trivial hn

theorem Frame.openGate_notMem_resume (f : Frame) (r : Result) (link : Link) :
    .openGate g ∉ (f.resume r link σ).frames := by
  rw [Frame.frames_eq]
  cases f <;> simp [Frame.frames]

/-- Only the end of the use of the bracket leads to its release, and no frame to its gate. -/
theorem Frame.resume_spares (f : Frame) (r : Result) (link : Link) (hf : f.Spares g) :
    (∀ v x, (f.resume r link σ).stage ≠ .looking (.release g v x)) ∧
      ∀ f' ∈ (f.resume r link σ).frames, f'.Spares g := by
  refine ⟨?_, fun f' hf' => ⟨?_, ?_⟩⟩
  · by_cases hordinary : f.Ordinary
    · exact (Frame.resume_plain hordinary r σ).stage.ne_release
    cases f with
    | release g' =>
      have hne : g' ≠ g := fun h => hf.1 (h ▸ rfl)
      simp only [Frame.resume, Store.takeRelease]
      split <;> simp [hne]
    | use g' u => cases r <;> simp [Frame.resume]
    | openGate g' => cases r <;> simp [Frame.resume]
    | endBracket g' used => cases r <;> simp [Frame.resume]
    | sweep of t ts first => cases ts <;> simp [Frame.resume, Store.sweep]
    | _ => exact absurd trivial hordinary
  · obtain hframes | ⟨g', u, v, rfl, rfl, hframes⟩ | ⟨g', rfl, hframes⟩ := f.resume_frames r link σ
    · rw [hframes f' hf']
      rintro ⟨⟩
    · rw [hframes, List.mem_singleton] at hf'
      subst hf'
      exact hf.1
    · rw [hframes, List.mem_cons, List.mem_singleton] at hf'
      obtain rfl | rfl := hf'
      · rintro ⟨⟩
      · exact hf.1
  · rintro rfl
    exact f.openGate_notMem_resume r link hf'

/-- Only who runs the release of a bracket is going to open its gate. -/
theorem Loop.Takes.of_openGate (ht : l.Takes σ s t fs) (h : .openGate g ∈ t.frames) :
    ∃ v x, s = .looking (.release g v x) ∧ σ.isCancelled l.link = false := by
  cases ht with
  | looking n hc =>
    by_cases hrelease : ∃ v x, n = .release g v x
    · obtain ⟨v, x, rfl⟩ := hrelease
      exact ⟨v, x, rfl, hc⟩
    refine absurd rfl ((n.step_spares l.id l.link (fun v x hx => hrelease ⟨v, x, hx⟩) ?_).2 _ h)
    rintro rfl
    exact List.not_mem_nil h
  | handing r f fs hstack => exact absurd h (f.openGate_notMem_resume r l.link)
  | _ => exact absurd h List.not_mem_nil

/-- **Who has nothing to do with a bracket, and does not run its token, keeps off it.** -/
theorem Loop.Takes.spares (ht : l.Takes σ s t fs) (hg : g < σ.boundaries.size) (hs : s.Spares g)
    (hf : ∀ r f, s = .handing r → l.stack.head? = some f → f.Spares g)
    (htoken : (Activity.work s l).deal g σ ≠ .asks true) :
    t.stage.Spares g ∧ ∀ f ∈ t.frames, f.Spares g := by
  have hleaving : t.stage ≠ .leaving g := by
    intro hstage
    obtain ⟨-, hne⟩ | ⟨-, hsize⟩ := ht.opens.cells
    · exact hne g hstage
    · cases hsize.symm.trans hstage
      exact Nat.lt_irrefl _ hg
  cases ht with
  | looking n hc =>
    have hn : n ≠ .token (.bracket g) := by
      rintro rfl
      exact htoken (by simp [Activity.deal, Node.deal, hc])
    obtain ⟨hstage, hgate⟩ := n.step_spares (σ := σ) l.id l.link (fun v x hx => hs.2 v x (hx ▸ rfl)) hn
    refine ⟨⟨hleaving, hstage⟩, fun f hf' => ⟨?_, hgate f hf'⟩⟩
    obtain hframes | ⟨acquire, use, release, rfl⟩ := n.step_frames l.id l.link σ
    · rw [hframes f hf']
      rintro ⟨⟩
    · have huse : f = .use σ.boundaries.size use := List.mem_singleton.1 hf'
      subst huse
      exact fun h => Nat.ne_of_gt hg (Option.some.inj h)
  | handing r f fs hstack =>
    obtain ⟨hstage, hframes⟩ := f.resume_spares (σ := σ) r l.link (hf r f rfl (by rw [hstack]; rfl))
    exact ⟨⟨hleaving, hstage⟩, hframes⟩
  | delaying c =>
    exact ⟨⟨hleaving, (c.delaying_plain σ).stage.ne_release⟩, fun _ h => (List.not_mem_nil h).elim⟩
  | suspending c =>
    exact ⟨⟨hleaving, (c.suspending_plain σ).stage.ne_release⟩, fun _ h => (List.not_mem_nil h).elim⟩
  | mapping c =>
    exact ⟨⟨hleaving, (c.mapping_plain σ).stage.ne_release⟩, fun _ h => (List.not_mem_nil h).elim⟩

end Spares

end CancelableEffects
