import CancelableEffects.Proofs.Laws

/-!
# Segments — what a strand does above some frames, and what these do with its result

* `Strand.Ends`, `Strand.Stops`: with these acts the strand comes to its end, with this result, or to where
  it looks at a connection and is stopped if that is cancelled. **`Strand.Ends.unique`**: the acts tell the result.
* `Strand.Meets`: a strand comes to another one, but for turns without an act.
* `Strand.Above`: a strand is above some frames, which have not received its result.
* **`Strand.Comes.onto`**, **`Strand.Comes.split`**: a strand does above any frames what it does alone, and
  nothing else, until it has come to its end alone and they receive its result.
* `Strand.ends_append_iff`, `Strand.stops_append_iff`: so it ends as they do with its result.
* `Code.Performs`, **`Stage.Calling.ends_iff`**: what a closure does when it is called, and how a strand goes on
  with what it returns.
* `Prog.Ends`: with these acts a program ends with this result, under a connection.
* **`Strand.comes_program_iff`**: what a program does above any frames.
* **`Session.comes_of_active`**, **`Session.carried`**: so does an execution that is not cancelled.
* `Prog.Interchangeable`, **`Prog.Same.interchangeable`**: programs behave alike under any connection, whenever
  that is cancelled.
* `Prog.Begins`, **`Prog.Begins.ends_iff`**, **`Prog.Begins.phases`**: a program that is another one above some
  frames, how it ends, and how far it has come.
-/

namespace CancelableEffects

namespace Strand

variable {x y z : Strand} {as : List Act} {s : Stage} {link : Link} {r : Result} {fs gs above : List Frame}

/-! ## Ends -/

/-- What holds of a strand and is kept by whatever it does holds of all that it comes to. -/
theorem Comes.invariant {P : Strand → Prop} (step : ∀ {x y as}, P x → x.Does as y → P y) (hx : P x)
    (h : x.Comes as z) : P z := by
  induction h with
  | here => exact hx
  | goesOn hdoes _ ih => exact ih (step hx hdoes)

/-- With these acts the strand comes to its end, with this result. -/
def Ends (x : Strand) (as : List Act) (r : Result) : Prop := ∃ link, x.Comes as ⟨.handing r, link, []⟩

/-- With these acts the strand comes to where it looks at the connection. -/
def Stops (x : Strand) (as : List Act) (c : ConnectionId) : Prop := ∃ n fs, x.Comes as ⟨.looking n, some c, fs⟩

/-- With these acts the strand comes to the other one, or that is on its way to it without an act. -/
def Meets (x : Strand) (as : List Act) (y : Strand) : Prop := x.Comes as y ∨ as = [] ∧ y.Comes [] x

/-- The strand is above the frames, and these have not received its result. -/
def Above (fs : List Frame) (x : Strand) : Prop :=
  ∃ s link above, x = ⟨s, link, above ++ fs⟩ ∧ ∀ r, s = .handing r → above ≠ []

/-- Whatever a strand does, at the bottom of its stack it has the connection that it had. -/
theorem Does.under (h : x.Does as y) : y.link.under y.stack = x.link.under x.stack := by
  cases h with
  | turns ht => exact ht.under
  | gets hb r => rfl

theorem Comes.under (h : x.Comes as y) : y.link.under y.stack = x.link.under x.stack := by
  induction h with
  | here => rfl
  | goesOn hx _ ih => exact ih.trans hx.under

theorem Meets.does {bs : List Act} (h : x.Meets as y) (hy : y.Does bs z) : x.Meets (as ++ bs) z := by
  obtain h | ⟨rfl, h⟩ := h
  · exact .inl (h.trans hy.comes)
  · exact h.rest rfl hy.comes

theorem Ends.comes (h : x.Ends as r) : x.Comes as ⟨.handing r, x.link.under x.stack, []⟩ := by
  obtain ⟨link, h⟩ := h
  rwa [← h.under]

theorem ends_iff_of_silent (h : x.Comes [] y) : x.Ends as r ↔ y.Ends as r := by
  refine ⟨fun ⟨link, hx⟩ => ?_, fun ⟨link, hy⟩ => ⟨link, h.silently hy⟩⟩
  obtain ⟨z, hz, hend⟩ := (Same.of_silent h).1 _ _ hx
  exact ⟨link, hend ⟨r, link, rfl⟩ ▸ hz⟩

theorem Same.ends_iff (h : x.Same y) : x.Ends as r ↔ y.Ends as r := by
  constructor <;> rintro ⟨link, hx⟩
  · obtain ⟨z, hz, hend⟩ := h.1 _ _ hx
    exact ⟨link, hend ⟨r, link, rfl⟩ ▸ hz⟩
  · obtain ⟨z, hz, hend⟩ := h.2 _ _ hx
    exact ⟨link, hend ⟨r, link, rfl⟩ ▸ hz⟩

/-- A strand that has come to its end has ended with its result. -/
theorem ends_handing_nil_iff {r' : Result} :
    (Strand.mk (.handing r) link []).Ends as r' ↔ as = [] ∧ r' = r := by
  constructor
  · rintro ⟨link', h⟩
    cases h with
    | here => exact ⟨rfl, rfl⟩
    | goesOn hx =>
      cases hx with
      | turns ht => cases ht with
        | handing r f fs hstack => cases hstack
      | gets hb => cases hb
  · rintro ⟨rfl, rfl⟩
    exact ⟨link, .here⟩

/-- **With the same acts a strand ends with the same result.** -/
theorem Ends.unique {r' : Result} (h : x.Ends as r) (h' : x.Ends as r') : r = r' := by
  obtain ⟨link, h⟩ := h
  obtain ⟨link', h'⟩ := h'
  obtain hends | hends := h.unique h'
  · cases hends.of_ended
    rfl
  · cases hends.of_ended
    rfl

/-! ## Frames below -/

/-- What a strand does alone it does above any frames. -/
theorem Comes.onto {link' : Link} {s' : Stage} {above' : List Frame}
    (h : (Strand.mk s link above).Comes as ⟨s', link', above'⟩) (fs : List Frame) :
    (Strand.mk s link (above ++ fs)).Comes as ⟨s', link', above' ++ fs⟩ := by
  generalize hx : Strand.mk s link above = x at h
  generalize hz : Strand.mk s' link' above' = z at h
  induction h generalizing s link above with
  | here =>
    subst hx
    cases hz
    exact .here
  | @goesOn x y z as bs hdoes _ ih =>
    subst hx
    by_cases hne : ∀ r, s = .handing r → above ≠ []
    · have hdoes' : (Strand.mk s link (above ++ [])).Does as y := (List.append_nil above).symm ▸ hdoes
      obtain ⟨s₁, link₁, above₁, rfl, hcomes⟩ := @does_above _ _ _ _ fs _ _ hne hdoes'
      exact hcomes.trans (ih (by rw [List.append_nil]) hz)
    · obtain ⟨r, rfl, rfl⟩ : ∃ r, s = .handing r ∧ above = [] := by simpa using hne
      cases hdoes with
      | turns ht => cases ht with
        | handing r f fs hstack => cases hstack
      | gets hb => cases hb

/-- **Above some frames a strand does what it does alone, until it has come to its end** and they receive its
result. -/
theorem Comes.split (h : (Strand.mk s link (above ++ fs)).Comes as z) :
    (∃ s' link' above', z = ⟨s', link', above' ++ fs⟩ ∧ (∀ r, s' = .handing r → above' ≠ []) ∧
        (Strand.mk s link above).Comes as ⟨s', link', above'⟩) ∨
      ∃ r as₁ as₂, as = as₁ ++ as₂ ∧ (Strand.mk s link above).Ends as₁ r ∧
        (Strand.mk (.handing r) (link.under above) fs).Comes as₂ z := by
  generalize hx : Strand.mk s link (above ++ fs) = x at h
  induction h generalizing s link above with
  | @here x =>
    subst hx
    by_cases hne : ∀ r, s = .handing r → above ≠ []
    · exact .inl ⟨s, link, above, rfl, hne, .here⟩
    · obtain ⟨r, rfl, rfl⟩ : ∃ r, s = .handing r ∧ above = [] := by simpa using hne
      exact .inr ⟨r, [], [], rfl, ⟨link, .here⟩, .here⟩
  | @goesOn x y z as bs hdoes hcomes ih =>
    subst hx
    by_cases hne : ∀ r, s = .handing r → above ≠ []
    · obtain ⟨s₁, link₁, above₁, rfl, halone⟩ := @does_above _ _ _ _ [] _ _ hne hdoes
      rw [List.append_nil, List.append_nil] at halone
      obtain ⟨s', link', above', rfl, hgoing, hrest⟩ | ⟨r, as₁, as₂, rfl, ⟨link', hends⟩, hrest⟩ := ih rfl
      · exact .inl ⟨s', link', above', rfl, hgoing, halone.trans hrest⟩
      · have hunder : link₁.under above₁ = link.under above := halone.under
        refine .inr ⟨r, as ++ as₁, as₂, by rw [List.append_assoc], ⟨link', halone.trans hends⟩, hunder ▸ hrest⟩
    · obtain ⟨r, rfl, rfl⟩ : ∃ r, s = .handing r ∧ above = [] := by simpa using hne
      exact .inr ⟨r, [], as ++ bs, rfl, ⟨link, .here⟩, .goesOn hdoes hcomes⟩

/-- The frames below receive the result with which a strand has ended. -/
theorem Ends.onto (h : (Strand.mk s link above).Ends as r) (fs : List Frame) :
    (Strand.mk s link (above ++ fs)).Comes as ⟨.handing r, link.under above, fs⟩ := h.comes.onto fs

/-- **A strand above some frames ends as they do** with the result with which it ends alone. -/
theorem ends_append_iff : (Strand.mk s link (above ++ fs)).Ends as r ↔ ∃ r₁ as₁ as₂, as = as₁ ++ as₂ ∧
    (Strand.mk s link above).Ends as₁ r₁ ∧ (Strand.mk (.handing r₁) (link.under above) fs).Ends as₂ r := by
  constructor
  · rintro ⟨link', h⟩
    obtain ⟨s', link'', above', hz, hne, -⟩ | ⟨r₁, as₁, as₂, has, hends, hrest⟩ := h.split
    · injection hz with hs hlink hstack
      exact absurd (List.append_eq_nil_iff.1 hstack.symm).1 (hne r hs.symm)
    · exact ⟨r₁, as₁, as₂, has, hends, link', hrest⟩
  · rintro ⟨r₁, as₁, as₂, rfl, hends, link', hrest⟩
    exact ⟨link', (hends.onto fs).trans hrest⟩

/-- A strand above some frames is stopped where it is alone, or where they are with its result. -/
theorem stops_append_iff {c : ConnectionId} : (Strand.mk s link (above ++ fs)).Stops as c ↔
    (Strand.mk s link above).Stops as c ∨ ∃ r as₁ as₂, as = as₁ ++ as₂ ∧ (Strand.mk s link above).Ends as₁ r ∧
      (Strand.mk (.handing r) (link.under above) fs).Stops as₂ c := by
  constructor
  · rintro ⟨n, gs, h⟩
    obtain ⟨s', link', above', hz, -, halone⟩ | ⟨r, as₁, as₂, has, hends, hrest⟩ := h.split
    · injection hz with hs hlink hstack
      subst hs hlink
      exact .inl ⟨n, above', halone⟩
    · exact .inr ⟨r, as₁, as₂, has, hends, n, gs, hrest⟩
  · rintro (⟨n, gs, h⟩ | ⟨r, as₁, as₂, rfl, hends, n, gs, hrest⟩)
    · exact ⟨n, gs ++ fs, h.onto fs⟩
    · exact ⟨n, gs, (hends.onto fs).trans hrest⟩

end Strand

/-! ## Closures -/

/-- With these acts the closure returns or panics, whatever stores its moves find. -/
inductive Code.Performs {α : Type} : Code Prog α → List Act → Except String α → Prop
  | returns (a : α) : Performs (.ret a) [] (.ok a)
  | panics (m : String) : Performs (.panic m) [] (.error m)
  | moves {c c' : Code Prog α} {σ : Store} {next : Next} {as : List Act} {o : Except String α}
    (h : c.move σ = (next, .inr c')) (h' : Performs c' as o) : Performs c (.did σ next.1 next.2 :: as) o

section Closures

variable {α : Type} {again : Code Prog α → Stage} {done : Except String α → Stage} {link : Link}
  {fs : List Frame} {c : Code Prog α} {as : List Act} {o : Except String α} {r : Result}

/-- A loop calls a closure, without an act, that has nothing left to do. -/
theorem Stage.Calling.does_idly (hcalls : Stage.Calling again done) (h : c.effect? = none) :
    ∃ o, c.Performs [] o ∧ (Strand.mk (again c) link fs).Does [] ⟨done o, link, fs⟩ := by
  have hdoes := Strand.Does.turns (x := ⟨again c, link, fs⟩)
    (hcalls.takes (Strand.loop 0 ⟨again c, link, fs⟩) {} c)
  rw [Stage.deed, hcalls.acts, if_neg (by simp [h])] at hdoes
  cases c with
  | ret a => exact ⟨_, .returns a, hdoes⟩
  | panic m => exact ⟨_, .panics m, hdoes⟩
  | _ => cases h

/-- What a closure does a loop does that calls it. -/
theorem Stage.Calling.comes (hcalls : Stage.Calling again done) (h : c.Performs as o) :
    (Strand.mk (again c) link fs).Comes as ⟨done o, link, fs⟩ := by
  induction h with
  | returns a =>
    obtain ⟨o, ho, hdoes⟩ := hcalls.does_idly (c := .ret a) rfl
    cases ho
    exact hdoes.comes
  | panics m =>
    obtain ⟨o, ho, hdoes⟩ := hcalls.does_idly (c := .panic m) rfl
    cases ho
    exact hdoes.comes
  | @moves c c' σ next as o hmove _ ih =>
    have hmoves : c.effect?.isSome := by
      cases c with
      | ret a => cases hmove
      | panic m => cases hmove
      | _ => rfl
    exact .goesOn ((hcalls.does hmoves).2 ⟨σ, next, c', hmove, rfl, rfl⟩) ih

/-- **A strand that calls a closure does what that does, and goes on with what it returns**, or with its panic. -/
theorem Stage.Calling.ends_iff (hcalls : Stage.Calling again done) : (Strand.mk (again c) link fs).Ends as r ↔
    ∃ o as₁ as₂, as = as₁ ++ as₂ ∧ c.Performs as₁ o ∧ (Strand.mk (done o) link fs).Ends as₂ r := by
  constructor
  · rintro ⟨link', h⟩
    generalize hx : Strand.mk (again c) link fs = x at h
    generalize hz : Strand.mk (.handing r) link' [] = z at h
    induction h generalizing c with
    | here =>
      injection hx.trans hz.symm with hs
      exact absurd hs ((hcalls.going c).1 r)
    | @goesOn x y z as bs hdoes hcomes ih =>
      subst hx
      by_cases hmoves : c.effect?.isSome
      · obtain ⟨σ, next, c', hmove, rfl, rfl⟩ := (hcalls.does hmoves).1 hdoes
        obtain ⟨o, as₁, as₂, rfl, hperforms, hends⟩ := ih rfl hz
        exact ⟨o, _, as₂, rfl, .moves hmove hperforms, hends⟩
      · obtain ⟨o, hperforms, hidle⟩ := hcalls.does_idly (Option.not_isSome_iff_eq_none.1 hmoves)
        obtain rfl := List.length_eq_zero_iff.1 (hdoes.length_eq hidle)
        obtain rfl := hdoes.unique hidle
        exact ⟨o, [], bs, rfl, hperforms, link', hz ▸ hcomes⟩
  · rintro ⟨o, as₁, as₂, rfl, hperforms, link', hends⟩
    exact ⟨link', (hcalls.comes hperforms).trans hends⟩

end Closures

/-! ## Programs -/

/-- With these acts the program ends with this result, under the connection. -/
def Prog.Ends (link : Link) (p : Prog) (as : List Act) (r : Result) : Prop :=
  (Strand.mk (.looking (.program p)) link []).Ends as r

/-- With these acts the program comes to where it looks at the connection `c`. -/
def Prog.Stops (link : Link) (p : Prog) (as : List Act) (c : ConnectionId) : Prop :=
  (Strand.mk (.looking (.program p)) link []).Stops as c

/-- The program is the source above these frames. -/
def Prog.Begins (p source : Prog) (fs : List Frame) : Prop :=
  ∀ link below, (Strand.mk (.looking (.program p)) link below).Comes []
    ⟨.looking (.program source), link, fs ++ below⟩

section Programs

variable {p q source : Prog} {link : Link} {as : List Act} {r : Result} {fs : List Frame} {z : Strand}

/-- **What a program does above any frames**: what it does alone, and then what they do with its result. -/
theorem Strand.comes_program_iff : (Strand.mk (.looking (.program p)) link fs).Comes as z ↔
    (∃ s' link' above, z = ⟨s', link', above ++ fs⟩ ∧ (∀ r, s' = .handing r → above ≠ []) ∧
        (Strand.mk (.looking (.program p)) link []).Comes as ⟨s', link', above⟩) ∨
      ∃ r as₁ as₂, as = as₁ ++ as₂ ∧ p.Ends link as₁ r ∧ (Strand.mk (.handing r) link fs).Comes as₂ z := by
  refine ⟨fun h => @Strand.Comes.split _ _ _ _ _ [] h, ?_⟩
  rintro (⟨s', link', above, rfl, -, h⟩ | ⟨r, as₁, as₂, rfl, hends, hrest⟩)
  · exact h.onto fs
  · exact (hends.onto fs).trans hrest

/-- Where a program is stopped above any frames: where it is alone, or where they are with its result. -/
theorem Strand.stops_program_iff {c : ConnectionId} : (Strand.mk (.looking (.program p)) link fs).Stops as c ↔
    p.Stops link as c ∨ ∃ r as₁ as₂, as = as₁ ++ as₂ ∧ p.Ends link as₁ r ∧
      (Strand.mk (.handing r) link fs).Stops as₂ c :=
  @Strand.stops_append_iff _ _ _ _ [] _

/-- A program is above the frames below, or these have received its result. -/
theorem Strand.Comes.above_or (h : (Strand.mk (.looking (.program p)) link fs).Comes as z) :
    z.Above fs ∨ ∃ r as₁ as₂, as = as₁ ++ as₂ ∧ p.Ends link as₁ r ∧
      (Strand.mk (.handing r) link fs).Comes as₂ z :=
  (Strand.comes_program_iff.1 h).imp_left fun ⟨s', link', above, hz, hne, _⟩ => ⟨s', link', above, hz, hne⟩

theorem Prog.Same.ends_iff (h : p.Same q) : p.Ends link as r ↔ q.Ends link as r := (h link []).ends_iff

/-- **A program that a closure computes**: it ends as that program does, or with the panic of the closure. -/
theorem Prog.ends_suspend_iff {c : Code Prog Prog} : (suspend c).Ends link as r ↔
    (∃ q as₁ as₂, as = as₁ ++ as₂ ∧ c.Performs as₁ (.ok q) ∧ q.Ends link as₂ r) ∨
      ∃ m, c.Performs as (.error m) ∧ r = .error (.panic m) := by
  have hpanics : ∀ as m, (Strand.mk (Stage.suspended (.error m)) link []).Ends as r ↔
      as = [] ∧ r = .error (.panic m) := fun as m =>
    (Strand.ends_iff_of_silent (Strand.looks rfl)).trans Strand.ends_handing_nil_iff
  refine (Strand.ends_iff_of_silent (Strand.looks rfl)).trans (Stage.suspending_calling.ends_iff.trans ⟨?_, ?_⟩)
  · rintro ⟨o, as₁, as₂, rfl, hperforms, hends⟩
    cases o with
    | ok q => exact .inl ⟨q, as₁, as₂, rfl, hperforms, hends⟩
    | error m =>
      obtain ⟨rfl, rfl⟩ := (hpanics _ m).1 hends
      exact .inr ⟨m, by rwa [List.append_nil], rfl⟩
  · rintro (⟨q, as₁, as₂, rfl, hperforms, hends⟩ | ⟨m, hperforms, rfl⟩)
    · exact ⟨.ok q, as₁, as₂, rfl, hperforms, hends⟩
    · exact ⟨.error m, as, [], (List.append_nil as).symm, hperforms, (hpanics _ m).2 ⟨rfl, rfl⟩⟩

/-- **A program ends as its frames do** with the result of its source. -/
theorem Prog.Begins.ends_iff (h : p.Begins source fs) : p.Ends link as r ↔ ∃ r₁ as₁ as₂, as = as₁ ++ as₂ ∧
    source.Ends link as₁ r₁ ∧ (Strand.mk (.handing r₁) link fs).Ends as₂ r := by
  have hbegins := h link []
  rw [List.append_nil] at hbegins
  rw [Prog.Ends, Strand.ends_iff_of_silent hbegins]
  exact @Strand.ends_append_iff _ _ _ _ _ []

/-- **A program with one frame above its source has three phases**: it is about to begin, or its source is at
work above the frame, or the frame has received the result of the source and is gone. -/
theorem Prog.Begins.phases {f : Frame} (hp : p.Begins source [f]) (hf : f.acts = false)
    (h : (Strand.mk (.looking (.program p)) link fs).Comes as z) :
    (as = [] ∧ z.Comes [] ⟨.looking (.program source), link, f :: fs⟩) ∨ z.Above (f :: fs) ∨
      ∃ r as₁ as₂, as = as₁ ++ as₂ ∧ source.Ends link as₁ r ∧
        (Strand.next (f.resume r link {}) fs).Meets as₂ z := by
  obtain hsource | hbefore := (hp link fs).rest rfl h
  · obtain habove | ⟨r, as₁, as₂, has, hends, hrest⟩ := hsource.above_or
    · exact .inr (.inl habove)
    · exact .inr (.inr ⟨r, as₁, as₂, has, hends, (Strand.hands hf r).rest rfl hrest⟩)
  · exact .inl hbefore

end Programs

/-! ## Executions -/

/-- **An execution that is not cancelled is where its strand is**, or has come to its end with that. -/
theorem Session.comes_of_active {s : Stage} {cs₀ cs : List Choice} {l : Loop} {later : List Moment}
    (hl : (after cs₀).Has s l) (hpast : (after (cs ++ cs₀)).past = later ++ (after cs₀).past)
    (hactive : (after (cs ++ cs₀)).store.isCancelled (l.link.under l.stack) = false) :
    ∃ z, (Strand.mk s l.link l.stack).Comes (deeds l.id later) z ∧
      (∀ s' l', (after (cs ++ cs₀)).Has s' l' → l'.id = l.id → z = ⟨s', l'.link, l'.stack⟩) ∧
        ∀ r ∈ (after (cs ++ cs₀)).returned l.id, z = ⟨.handing r, l.link.under l.stack, []⟩ := by
  obtain ⟨later', hpast', hcarries⟩ := carries hl cs
  obtain rfl : later = later' := List.append_cancel_right (hpast.symm.trans hpast')
  cases hcarries with
  | works s' l' hl' hid hunder hcomes =>
    refine ⟨_, hcomes, fun s'' l'' hl'' hid' => ?_, fun r hr => ?_⟩
    · obtain ⟨rfl, rfl⟩ := has_unique hl' hl'' (hid'.trans hid.symm)
      rfl
    · rw [← hid, returned_of_has hl'] at hr
      cases hr
  | ended r hr hcomes =>
    refine ⟨_, hcomes, fun s'' l'' hl'' hid => ?_, fun r' hr' => ?_⟩
    · have hnil := returned_of_has hl''
      rw [hid, hr] at hnil
      cases hnil
    · obtain rfl : r' = r := by simpa [hr] using hr'
      rfl
  | stopped n fs hr hcancelled hcomes => cases hactive.symm.trans hcancelled

/-- **An execution that is not cancelled does what its program does**, and then what the frames do that are below.
It has returned only if they have come to their end, with the same result. -/
theorem Session.carried {p : Prog} {cs₀ : List Choice} {l : Loop} (hl : (after cs₀).Has (.looking (.program p)) l)
    (cs : List Choice) (hactive : (after (cs ++ cs₀)).store.isCancelled (l.link.under l.stack) = false) :
    ∃ later, (after (cs ++ cs₀)).past = later ++ (after cs₀).past ∧
      (∀ s l', (after (cs ++ cs₀)).Has s l' → l'.id = l.id →
        (Strand.mk (.looking (.program p)) l.link l.stack).Comes (deeds l.id later) ⟨s, l'.link, l'.stack⟩) ∧
      ∀ r ∈ (after (cs ++ cs₀)).returned l.id, ∃ r₁ as₁ as₂, deeds l.id later = as₁ ++ as₂ ∧
        p.Ends l.link as₁ r₁ ∧ (Strand.mk (.handing r₁) l.link l.stack).Ends as₂ r := by
  obtain ⟨later, hpast⟩ := past_suffix cs₀ cs
  obtain ⟨z, hcomes, hhas, hreturned⟩ := comes_of_active hl hpast.symm hactive
  refine ⟨later, hpast.symm, fun s l' hl' hid => hhas s l' hl' hid ▸ hcomes, fun r hr => ?_⟩
  exact (@Strand.ends_append_iff _ _ _ _ _ []).1 ⟨_, hreturned r hr ▸ hcomes⟩

/-! ## Under any connection -/

/-- Whenever an execution is about to run the first program, under any connection, the second one in its place
does what the execution does from then on. When that has returned, the second program has come to its end with
the same result, or to where it is stopped like the execution, as the connection is cancelled. -/
def Prog.Replaces (q p : Prog) : Prop :=
  ∀ (cs₀ : List Choice) (l : Loop), (Session.after cs₀).Has (.looking (.program p)) l → ∀ cs, ∃ later z,
    (Session.after (cs ++ cs₀)).past = later ++ (Session.after cs₀).past ∧
      (Strand.mk (.looking (.program q)) l.link l.stack).Comes (Session.deeds l.id later) z ∧
        ∀ r ∈ (Session.after (cs ++ cs₀)).returned l.id, z = ⟨.handing r, l.link.under l.stack, []⟩ ∨
          r = .error .cancelled ∧ ∃ n c fs, z = ⟨.looking n, some c, fs⟩ ∧
            (Session.after (cs ++ cs₀)).store.isCancelled (some c) = true

/-- The programs behave alike under any connection, and whenever that is cancelled: in any world and on every
stack they do the same, in the same order, end with the same result, and are stopped after the same acts; and
each can stand for the other in every execution. -/
structure Prog.Interchangeable (p q : Prog) : Prop where
  same : p.Same q
  stops : ∀ link fs as c, (Strand.mk (.looking (.program p)) link fs).Stops as c ↔
    (Strand.mk (.looking (.program q)) link fs).Stops as c
  left : q.Replaces p
  right : p.Replaces q

section Interchangeable

variable {p q : Prog}

theorem Prog.replaces_of_stops (h : p.Same q) (hstops : ∀ link fs as c,
    (Strand.mk (.looking (.program p)) link fs).Stops as c →
      (Strand.mk (.looking (.program q)) link fs).Stops as c) : q.Replaces p := fun cs₀ l hl cs => by
  obtain ⟨later, hpast, hcarries⟩ := Session.carries hl cs
  cases hcarries with
  | works s l' hl' hid hunder hcomes =>
    obtain ⟨z, hz, -⟩ := (h l.link l.stack).1 _ _ hcomes
    refine ⟨later, z, hpast, hz, fun r hr => ?_⟩
    rw [← hid, Session.returned_of_has hl'] at hr
    cases hr
  | ended r hr hcomes =>
    obtain ⟨z, hz, hend⟩ := (h l.link l.stack).1 _ _ hcomes
    refine ⟨later, z, hpast, hz, fun r' hr' => .inl ?_⟩
    obtain rfl : r' = r := by simpa [hr] using hr'
    exact hend ⟨_, _, rfl⟩
  | stopped n fs hr hcancelled hcomes =>
    cases hlink : l.link.under l.stack with
    | none =>
      rw [hlink] at hcancelled
      cases hcancelled
    | some c =>
      rw [hlink] at hcancelled hcomes
      obtain ⟨n', fs', hz⟩ := hstops _ _ _ c ⟨n, fs, hcomes⟩
      refine ⟨later, _, hpast, hz, fun r' hr' => .inr ⟨?_, n', c, fs', rfl, hcancelled⟩⟩
      simpa [hr] using hr'

/-- **Programs that do the same, and are stopped after the same acts, are interchangeable.** -/
theorem Prog.Same.interchangeable (h : p.Same q) (hstops : ∀ link as c, p.Stops link as c ↔ q.Stops link as c) :
    p.Interchangeable q := by
  have habove : ∀ link fs as c, (Strand.mk (.looking (.program p)) link fs).Stops as c ↔
      (Strand.mk (.looking (.program q)) link fs).Stops as c := fun link fs as c => by
    rw [Strand.stops_program_iff, Strand.stops_program_iff]
    exact or_congr (hstops link as c) (exists_congr fun r => exists_congr fun as₁ => exists_congr fun as₂ =>
      and_congr_right fun _ => and_congr_left fun _ => h.ends_iff)
  exact ⟨h, habove, replaces_of_stops h fun _ _ _ _ => (habove _ _ _ _).1,
    replaces_of_stops h.symm fun _ _ _ _ => (habove _ _ _ _).2⟩

end Interchangeable

end CancelableEffects
