import CancelableEffects.Proofs.Acts

/-!
# Behaviours — when programs do the same in any world

Two strands behave alike if, whatever the stores that they find and the results that come to their
boundaries, they do the same to the world, in the same order, and end with the same result.

* `Strand.Refines`, `Strand.Same`: what one strand does the other one does; two strands behave alike.
* **`Strand.Same.of_candidate`**: strands behave alike if they are related, and stay so act by act.
* `Strand.Same.of_silent`, **`Strand.Same.above`**, **`Strand.Same.closures`**: turns without an act do not
  matter, frames below that treat every result alike can be exchanged, and so can two ways to go on after a
  closure.
* `Prog.Same`: programs behave alike, on every stack.
* **`Session.proceeds`**: at each moment an execution does what its strand does, or returns.
* `Session.Enacts`, **`Session.enacts`**: an execution in which cancellation is disabled acts as its strand does, and
  is where that is.
* `Session.Carries`, **`Session.carries`**: so does one that can be cancelled, until it is stopped.
-/

namespace CancelableEffects

/-! ## Strands that behave alike -/

namespace Strand

variable {x y z : Strand} {as bs : List Act} {link : Link} {fs gs : List Frame}

/-- The strand has come to its end. -/
def Ended (x : Strand) : Prop := ∃ r link, x = ⟨.handing r, link, []⟩

/-- Whatever the first strand does, the second one does, and when the first one has ended the second one
has too, with the same result. -/
def Refines (x y : Strand) : Prop := ∀ as z, x.Comes as z → ∃ z', y.Comes as z' ∧ (z.Ended → z' = z)

/-- Both strands do the same, and end with the same result. -/
def Same (x y : Strand) : Prop := x.Refines y ∧ y.Refines x

theorem Refines.trans (h : x.Refines y) (h' : y.Refines z) : x.Refines z := fun as u hu => by
  obtain ⟨v, hv, hend⟩ := h as u hu
  obtain ⟨w, hw, hend'⟩ := h' as v hv
  refine ⟨w, hw, fun hu => ?_⟩
  rw [hend' (hend hu ▸ hu), hend hu]

theorem Refines.refl (x : Strand) : x.Refines x := fun _ u hu => ⟨u, hu, fun _ => rfl⟩

theorem Same.refl (x : Strand) : x.Same x := ⟨.refl x, .refl x⟩

theorem Same.symm (h : x.Same y) : y.Same x := ⟨h.2, h.1⟩

theorem Same.trans (h : x.Same y) (h' : y.Same z) : x.Same z := ⟨h.1.trans h'.1, h'.2.trans h.2⟩

/-! ### Turns without an act -/

theorem Refines.of_comes (h : x.Comes [] y) : y.Refines x := fun _ u hu => ⟨u, h.silently hu, fun _ => rfl⟩

/-- Who goes on from a strand goes on from where that comes without an act, or is on the way there. -/
theorem Comes.rest (h : x.Comes as y) (has : as = []) (h' : x.Comes bs z) :
    y.Comes bs z ∨ bs = [] ∧ z.Comes [] y := by
  induction h with
  | here => exact .inl h'
  | goesOn hx hy ih =>
    obtain ⟨rfl, rfl⟩ := List.append_eq_nil_iff.1 has
    cases h' with
    | here => exact .inr ⟨rfl, .goesOn hx hy⟩
    | goesOn hx' hz =>
      obtain rfl := List.length_eq_zero_iff.1 (hx.length_eq hx').symm
      cases hx.unique hx'
      exact ih rfl hz

/-- **A strand behaves as what it comes to without an act.** -/
theorem Same.of_silent (h : x.Comes [] y) : x.Same y := by
  refine ⟨fun bs z hz => ?_, .of_comes h⟩
  obtain hy | ⟨rfl, hz'⟩ := h.rest rfl hz
  · exact ⟨z, hy, fun _ => rfl⟩
  · refine ⟨y, .here, ?_⟩
    rintro ⟨r, link, rfl⟩
    exact hz'.of_ended

/-- Strands that come to the same without an act behave alike. -/
theorem Same.of_meet (h : x.Comes [] z) (h' : y.Comes [] z) : x.Same y :=
  (of_silent h).trans (of_silent h').symm

/-- Strands behave alike if what they come to without an act does. -/
theorem Same.of_rest {x' y' : Strand} (h : x'.Same y') (hx : x.Comes [] x') (hy : y.Comes [] y') : x.Same y :=
  (of_silent hx).trans (h.trans (of_silent hy).symm)

/-! ### Candidates -/

theorem Refines.of_candidate {R : Strand → Strand → Prop}
    (h : ∀ x y, R x y → x.Refines y ∨
      ¬x.Ended ∧ ∀ as x', x.Does as x' → ∃ y', y.Comes as y' ∧ R x' y') (hxy : R x y) : x.Refines y := by
  intro as z hz
  induction hz generalizing y with
  | @here x =>
    obtain hrefines | ⟨hgoing, -⟩ := h x y hxy
    · exact hrefines _ _ .here
    · exact ⟨y, .here, fun hend => absurd hend hgoing⟩
  | @goesOn x x' z as bs hx hz ih =>
    obtain hrefines | ⟨-, hdoes⟩ := h x y hxy
    · exact hrefines _ _ (.goesOn hx hz)
    · obtain ⟨y', hy', hrelated⟩ := hdoes as x' hx
      obtain ⟨z', hz', hend⟩ := ih hrelated
      exact ⟨z', hy'.trans hz', hend⟩

/-- **Related strands behave alike if whatever the one does the other one does, and they are related again
then**, or are known to behave alike. -/
theorem Same.of_candidate {R : Strand → Strand → Prop} (h : ∀ x y, R x y → x.Same y ∨
      (¬x.Ended ∧ ∀ as x', x.Does as x' → ∃ y', y.Comes as y' ∧ R x' y') ∧
        ¬y.Ended ∧ ∀ as y', y.Does as y' → ∃ x', x.Comes as x' ∧ R x' y') (hxy : R x y) : x.Same y :=
  ⟨.of_candidate (fun x y hxy => (h x y hxy).imp And.left And.left) hxy,
    .of_candidate (R := fun y x => R x y) (fun y x hxy => (h x y hxy).imp And.right And.right) hxy⟩

theorem does_of_takes {l : Loop} {σ : Store} {s : Stage} {t : Turn} (ht : l.Takes σ s t fs) :
    (Strand.mk s l.link l.stack).Does (s.deed l.stack σ t) (next t fs) := by
  refine .turns (e := l.id) ?_
  cases ht with
  | looking n hc => exact .looking n hc
  | handing r f fs hstack => exact .handing r f fs hstack
  | delaying c => exact .delaying c
  | suspending c => exact .suspending c
  | mapping c => exact .mapping c

/-! ### Frames below -/

/-- What a strand does above some frames it does above any others. -/
theorem does_above {s : Stage} {above : List Frame} (hne : ∀ r, s = .handing r → above ≠ [])
    (h : (Strand.mk s link (above ++ fs)).Does as x) :
    ∃ s' link' above', x = ⟨s', link', above' ++ fs⟩ ∧
      (Strand.mk s link (above ++ gs)).Comes as ⟨s', link', above' ++ gs⟩ := by
  cases h with
  | turns ht =>
    obtain ⟨above', rfl, -, -, hcomes⟩ := comes_above ht rfl hne
    exact ⟨_, _, _, by rw [next, List.append_assoc], hcomes gs⟩
  | gets hb r =>
    cases hb
    exact ⟨_, _, above, rfl, (Does.gets rfl r).comes⟩

theorem not_ended_above {s : Stage} {above : List Frame} (hne : ∀ r, s = .handing r → above ≠ []) :
    ¬(Strand.mk s link (above ++ fs)).Ended := by
  rintro ⟨r, link', h⟩
  injection h with hs hlink hstack
  exact hne r hs (List.append_eq_nil_iff.1 hstack).1

/-- **Frames below can be exchanged for others that treat every result alike.** -/
theorem Same.above (h : ∀ r link, (Strand.mk (.handing r) link fs).Same ⟨.handing r, link, gs⟩) (s : Stage)
    (link : Link) (above : List Frame) : (Strand.mk s link (above ++ fs)).Same ⟨s, link, above ++ gs⟩ := by
  refine of_candidate (R := fun x y => ∃ s link above,
    x = ⟨s, link, above ++ fs⟩ ∧ y = ⟨s, link, above ++ gs⟩) ?_ ⟨s, link, above, rfl, rfl⟩
  rintro x y ⟨s, link, above, rfl, rfl⟩
  by_cases hne : ∀ r, s = .handing r → above ≠ []
  · refine .inr ⟨⟨not_ended_above hne, fun as x' hx => ?_⟩, not_ended_above hne, fun as y' hy => ?_⟩
    · obtain ⟨s', link', above', rfl, hcomes⟩ := does_above hne hx
      exact ⟨_, hcomes, s', link', above', rfl, rfl⟩
    · obtain ⟨s', link', above', rfl, hcomes⟩ := does_above hne hy
      exact ⟨_, hcomes, s', link', above', rfl, rfl⟩
  · obtain ⟨r, rfl, rfl⟩ : ∃ r, s = .handing r ∧ above = [] := by simpa using hne
    exact .inl (h r link)

end Strand

/-! ## Closures -/

/-- At the stages `again` a loop calls a closure, after which it is at the stage `done`. -/
structure Stage.Calling {α : Type} (again : Code Prog α → Stage) (done : Except String α → Stage) :
    Prop where
  takes : ∀ (l : Loop) (σ : Store) c, l.Takes σ (again c) (c.turn again done l.link σ) l.stack
  only : ∀ (l : Loop) (σ : Store) c t fs, l.Takes σ (again c) t fs →
    t = c.turn again done l.link σ ∧ fs = l.stack
  acts : ∀ c fs, (again c).acts fs = c.effect?.isSome
  going : ∀ c, (∀ r, again c ≠ .handing r) ∧ ∀ b, again c ≠ .leaving b

theorem Stage.suspending_calling : Stage.Calling Stage.suspending Stage.suspended where
  takes _ _ c := .suspending c
  only _ _ _ _ _ ht := by cases ht; exact ⟨rfl, rfl⟩
  acts _ _ := rfl
  going _ := ⟨nofun, nofun⟩

theorem Stage.mapping_calling : Stage.Calling Stage.mapping Stage.mapped where
  takes _ _ c := .mapping c
  only _ _ _ _ _ ht := by cases ht; exact ⟨rfl, rfl⟩
  acts _ _ := rfl
  going _ := ⟨nofun, nofun⟩

section Calling

variable {α β : Type} {again : Code Prog α → Stage} {done : Except String α → Stage}
  {again' : Code Prog β → Stage} {done' : Except String β → Stage} {link : Link} {fs gs : List Frame}
  {c : Code Prog α} {k : α → Code Prog β} {as : List Act} {x : Strand}

/-- A closure makes the same moves, whatever is done after it. -/
theorem Code.move_of_isSome (h : c.effect?.isSome) (σ : Store) :
    ∃ next c', c.move σ = (next, .inr c') ∧
      ∀ k : α → Code Prog β, (c.bind k).move σ = (next, .inr (c'.bind k)) := by
  cases c with
  | ret a => cases h
  | panic m => cases h
  | _ => exact ⟨_, _, rfl, fun k => rfl⟩

theorem Code.isSome_bind (h : c.effect?.isSome) (k : α → Code Prog β) : (c.bind k).effect?.isSome := by
  cases c with
  | ret a => cases h
  | panic m => cases h
  | _ => rfl

theorem Code.turn_of_move {next : Next} {c' : Code Prog α} {σ : Store} (h : c.move σ = (next, .inr c'))
    (link : Link) : c.turn again done link σ = { store := next.1, calls := next.2, stage := again c', link } := by
  simp only [Code.turn, h]

/-- What a strand does that calls a closure, if that makes a move. -/
theorem Stage.Calling.does (hcalls : Stage.Calling again done) (hmoves : c.effect?.isSome) :
    (Strand.mk (again c) link fs).Does as x ↔ ∃ (σ : Store) (next : Next) (c' : Code Prog α),
      c.move σ = (next, .inr c') ∧ as = [.did σ next.1 next.2] ∧ x = ⟨again c', link, fs⟩ := by
  have hdeed : ∀ σ t, (again c).deed fs σ t = [.did σ t.store t.calls] := fun σ t => by
    rw [Stage.deed, hcalls.acts, if_pos hmoves]
  constructor
  · intro h
    cases h with
    | @turns e σ t fs' ht =>
      obtain ⟨rfl, rfl⟩ := hcalls.only _ _ _ _ _ ht
      obtain ⟨next, c', hmove, -⟩ := c.move_of_isSome (β := α) hmoves σ
      have hturn : c.turn again done link σ = _ := Code.turn_of_move hmove link
      refine ⟨σ, next, c', hmove, ?_, ?_⟩
      · rw [hdeed, Strand.loop, hturn]
      · rw [Strand.next, Strand.loop, hturn]
        rfl
    | gets hb => exact absurd hb ((hcalls.going c).2 _)
  · rintro ⟨σ, next, c', hmove, rfl, rfl⟩
    have hturn : c.turn again done link σ = _ := Code.turn_of_move hmove link
    have hdoes := Strand.Does.turns (x := ⟨again c, link, fs⟩)
      (hcalls.takes (Strand.loop 0 ⟨again c, link, fs⟩) σ c)
    rw [hdeed, Strand.next, Strand.loop, hturn] at hdoes
    exact hdoes

/-- **Two strands that call the same closure behave alike if they do after it**, whatever it returns, and if
it panics. -/
theorem Strand.Same.closures (hcalls : Stage.Calling again done) (hcalls' : Stage.Calling again' done')
    (hret : ∀ a, (Strand.mk (again (.ret a)) link fs).Same ⟨again' (k a), link, gs⟩)
    (hpanic : ∀ m, (Strand.mk (again (.panic m)) link fs).Same ⟨again' (.panic m), link, gs⟩)
    (c : Code Prog α) : (Strand.mk (again c) link fs).Same ⟨again' (c.bind k), link, gs⟩ := by
  refine of_candidate (R := fun x y => ∃ c : Code Prog α,
    x = ⟨again c, link, fs⟩ ∧ y = ⟨again' (c.bind k), link, gs⟩) ?_ ⟨c, rfl, rfl⟩
  rintro x y ⟨c, rfl, rfl⟩
  by_cases hmoves : c.effect?.isSome
  · have hmoves' := Code.isSome_bind hmoves k
    refine .inr ⟨⟨?_, fun as x' hx => ?_⟩, ?_, fun as y' hy => ?_⟩
    · rintro ⟨r, link', h⟩
      injection h with hs
      exact (hcalls.going c).1 r hs
    · obtain ⟨σ, next, c', hmove, rfl, rfl⟩ := (hcalls.does hmoves).1 hx
      obtain ⟨next', c'', hsame, hbind⟩ := c.move_of_isSome hmoves σ
      cases hmove.symm.trans hsame
      exact ⟨_, ((hcalls'.does hmoves').2 ⟨σ, next, _, hbind k, rfl, rfl⟩).comes, c', rfl, rfl⟩
    · rintro ⟨r, link', h⟩
      injection h with hs
      exact (hcalls'.going _).1 r hs
    · obtain ⟨σ, next, d, hmove, rfl, rfl⟩ := (hcalls'.does hmoves').1 hy
      obtain ⟨next', c', hsame, hbind⟩ := c.move_of_isSome hmoves σ
      cases hmove.symm.trans (hbind k)
      exact ⟨_, ((hcalls.does hmoves).2 ⟨σ, next, c', hsame, rfl, rfl⟩).comes, c', rfl, rfl⟩
  · left
    cases c with
    | ret a => exact hret a
    | panic m => exact hpanic m
    | _ => exact absurd rfl hmoves

end Calling

/-! ## Programs -/

/-- The programs behave alike, whatever is done after them. -/
def Prog.Same (p q : Prog) : Prop :=
  ∀ link fs, (Strand.mk (.looking (.program p)) link fs).Same ⟨.looking (.program q), link, fs⟩

/-! ## Executions -/

/-- The result of the execution that the call delivers. -/
def Activity.result? (e : ExecutionId) : Activity → Option Result
  | .deliver e' _ r => if e' = e then some r else none
  | _ => none

theorem Activity.isSome_result? (e : ExecutionId) (a : Activity) : (a.result? e).isSome = a.delivers e := by
  cases a with
  | deliver e' k r => simp only [result?, delivers_deliver]; split <;> simp [*]
  | _ => rfl

/-- The act of the execution at this moment: one, or none. -/
def Moment.actsOf (e : ExecutionId) (m : Moment) : List Act :=
  match m.act? with
  | some (_, l, a) => if l.id = e then [a] else []
  | none => []

/-- A loop finds its connection cancelled at this moment, and is stopped. -/
def Moment.stops (m : Moment) : Bool :=
  match m.call with
  | some (.work (.looking _) l) => m.before.isCancelled l.link
  | _ => false

/-- What the execution does at this moment, which is nothing if it is stopped. -/
def Moment.deedsOf (e : ExecutionId) (m : Moment) : List Act := if m.stops then [] else m.actsOf e

namespace Session

variable {cs cs₀ : List Choice} {c : Choice} {m : Moment} {s : Stage} {l : Loop} {e : ExecutionId}
  {r : Result} {t : Turn} {fs : List Frame} {x y : Strand} {later : List Moment}

/-- The acts of the execution at some moments, of which the latest is the first. -/
def actsOf (e : ExecutionId) (past : List Moment) : List Act := past.reverse.flatMap (Moment.actsOf e)

/-- What the execution did at some moments, of which the latest is the first. -/
def deeds (e : ExecutionId) (past : List Moment) : List Act := past.reverse.flatMap (Moment.deedsOf e)

theorem actsOf_cons (e : ExecutionId) (m : Moment) (past : List Moment) :
    actsOf e (m :: past) = actsOf e past ++ m.actsOf e := by
  simp [actsOf]

theorem actsOf_of_other (h : ∀ s l a, m.act? = some (s, l, a) → l.id ≠ e) : m.actsOf e = [] := by
  unfold Moment.actsOf
  split
  · rename_i s l a hact
    rw [if_neg (h s l a hact)]
  · rfl

/-- The act of a loop that takes a turn. -/
theorem actsOf_of_takes {place : Nat} (hcall : (after cs).calls[place]? = some (.work s l))
    (ht : l.Takes (after cs).store s t fs) (hm : Made cs (.call place) m) :
    m.actsOf l.id = s.deed l.stack (after cs).store t := by
  rw [Moment.actsOf, act_of_takes hcall ht hm, Stage.deed]
  by_cases hacts : s.acts l.stack = true <;> simp [hacts]

/-! ### Results -/

/-- The result with which the execution has come to its end, which is delivered or about to be. -/
def returned (e : ExecutionId) (S : Session) : List Result :=
  S.calls.filterMap (·.result? e) ++ S.past.filterMap fun m => m.call.bind (·.result? e)

theorem length_returned (e : ExecutionId) (S : Session) :
    (S.returned e).length = S.delivering e + S.delivered e := by
  have hcalls : S.calls.countP (fun a => (a.result? e).isSome) = S.delivering e :=
    List.countP_congr fun a _ => by rw [a.isSome_result?]
  have hpast : S.past.countP (fun m => (m.call.bind (·.result? e)).isSome) = S.delivered e :=
    List.countP_congr fun m _ => by
      rw [Moment.delivers]
      cases m.call with
      | none => rfl
      | some a => rw [Option.bind_some, a.isSome_result?]; rfl
  rw [returned, List.length_append, List.length_filterMap_eq_countP, List.length_filterMap_eq_countP, hcalls,
    hpast]

/-- **An execution returns once.** -/
theorem returned_of_mem (h : r ∈ (after cs).returned e) : (after cs).returned e = [r] := by
  have hlength := length_returned e (after cs)
  have hledger := ledger e cs
  have hle : ((after cs).returned e).length ≤ 1 := by
    unfold holders at hledger
    split at hledger <;> omega
  cases hr : (after cs).returned e with
  | nil => rw [hr] at h; cases h
  | cons r' rs =>
    rw [hr, List.length_cons] at hle
    obtain rfl := List.length_eq_zero_iff.1 (by omega : rs.length = 0)
    rw [hr, List.mem_singleton] at h
    rw [h]

/-- An execution that is there as a loop has not returned. -/
theorem returned_of_has (hl : (after cs).Has s l) : (after cs).returned l.id = [] := by
  have hlength := length_returned l.id (after cs)
  have hledger := ledger l.id cs
  have hheld := held_of_has hl
  unfold holders at hledger
  exact List.length_eq_zero_iff.1 (by split at hledger <;> omega)

/-- An execution that has returned stays so. -/
theorem mem_returned_next (h : r ∈ (after cs).returned e) (c : Choice) : r ∈ (after (c :: cs)).returned e := by
  obtain h | h := List.mem_append.1 h
  · obtain ⟨a, ha, hr⟩ := List.mem_filterMap.1 h
    obtain hstays | ⟨place, rfl, hcall⟩ := call_next ha c
    · exact List.mem_append_left _ (List.mem_filterMap.2 ⟨a, hstays, hr⟩)
    · have hnew : ⟨some a, (after cs).store, a.step (after cs).store⟩ ∈ (after (.call place :: cs)).past :=
        (made_call hcall).past ▸ List.mem_cons_self
      exact List.mem_append_right _ (List.mem_filterMap.2 ⟨_, hnew, hr⟩)
  · obtain ⟨m, hm, hr⟩ := List.mem_filterMap.1 h
    exact List.mem_append_right _ (List.mem_filterMap.2 ⟨m, (past_suffix cs [c]).subset hm, hr⟩)

/-- What holds at first and is kept by every moment holds of all that comes later. -/
theorem later_induction {P : List Choice → List Moment → Prop} (start : P [] [])
    (still : ∀ c cs later, after (c :: (cs ++ cs₀)) = after (cs ++ cs₀) → P cs later → P (c :: cs) later)
    (made : ∀ c cs m later, Made (cs ++ cs₀) c m → P cs later → P (c :: cs) (m :: later)) (cs : List Choice)
    (hpast : (after (cs ++ cs₀)).past = later ++ (after cs₀).past) : P cs later := by
  induction cs generalizing later with
  | nil =>
    obtain rfl : later = [] := List.append_left_eq_self.1 hpast.symm
    exact start
  | cons c cs ih =>
    obtain hsame | ⟨m, hm⟩ := made_or (cs ++ cs₀) c
    · rw [List.cons_append, hsame] at hpast
      exact still c cs later hsame (ih hpast)
    · obtain ⟨later', hpast'⟩ := past_suffix cs₀ cs
      rw [List.cons_append, hm.past, ← hpast', ← List.cons_append] at hpast
      obtain rfl := List.append_cancel_right hpast
      exact made c cs m later' hm (ih hpast'.symm)

/-! ### One execution, moment by moment -/

theorem deedsOf_of_nil (h : m.actsOf e = []) : m.deedsOf e = [] := by
  rw [Moment.deedsOf, h, ite_self]

theorem deedsOf_of_not_stops (h : m.stops = false) : m.deedsOf e = m.actsOf e := by
  rw [Moment.deedsOf, if_neg (by simp [h])]

theorem deeds_cons (e : ExecutionId) (m : Moment) (past : List Moment) :
    deeds e (m :: past) = deeds e past ++ m.deedsOf e := by
  simp [deeds]

/-- Nobody goes on from a boundary at a moment at which a loop is stopped. -/
theorem not_stops_of_got {b : BoundaryId} {a : Act} (h : m.act? = some (.leaving b, l, a)) : m.stops = false := by
  unfold Moment.stops
  split
  · rename_i n l' hcall
    simp only [Moment.act?, hcall] at h
    split at h <;> cases h
  · rfl

/-- A loop that takes a turn is not stopped. -/
theorem not_stops_of_takes {place : Nat} (hcall : (after cs).calls[place]? = some (.work s l))
    (ht : l.Takes (after cs).store s t fs) (hm : Made cs (.call place) m) : m.stops = false := by
  rw [Moment.stops, (hm.of_call hcall).1, hm.before]
  cases ht with
  | looking n hc => exact hc
  | _ => rfl

/-- What is due to be delivered was returned. -/
theorem returned_of_step {place : Nat} (hcall : (after cs).calls[place]? = some (.work s l))
    (hstep : l.step s (after cs).store = ((after cs).store, [.deliver l.id l.sink r])) :
    (after (.call place :: cs)).returned l.id = [r] := by
  have hdue : .deliver l.id l.sink r ∈ (after (.call place :: cs)).calls := by
    have hnew : after (.call place :: cs) = _ := step_call hcall
    rw [hnew, record_calls]
    exact List.mem_append_left _ (by simp only [Activity.step, hstep, List.mem_singleton])
  exact returned_of_mem (List.mem_append_left _ (List.mem_filterMap.2 ⟨_, hdue, if_pos rfl⟩))

/-- **At each moment an execution does what its strand does, if anything, or returns**: at its end, or where
it is stopped. -/
theorem proceeds (hl : (after cs).Has s l) (hm : Made cs c m) :
    (∃ s' l', (after (c :: cs)).Has s' l' ∧ l'.id = l.id ∧ l'.link.under l'.stack = l.link.under l.stack ∧
        m.deedsOf l.id = m.actsOf l.id ∧
          (Strand.mk s l.link l.stack).Comes (m.actsOf l.id) ⟨s', l'.link, l'.stack⟩) ∨
      (∃ r, s = .handing r ∧ l.stack = [] ∧ m.actsOf l.id = [] ∧ (after (c :: cs)).returned l.id = [r]) ∨
        ∃ n, s = .looking n ∧ (after cs).store.isCancelled l.link = true ∧ m.deedsOf l.id = [] ∧
          (after (c :: cs)).returned l.id = [.error .cancelled] := by
  obtain ⟨hstays, hother, -⟩ | ⟨b, r, rfl, hact, hgone⟩ | ⟨place, rfl, hcall, hleaving⟩ := fares hl hm
  · have hnone := actsOf_of_other hother
    exact .inl ⟨s, l, hstays, rfl, rfl, (deedsOf_of_nil hnone).trans hnone.symm, hnone ▸ .here⟩
  · have hgot : m.actsOf l.id = [.got b r] := by simp [Moment.actsOf, hact]
    exact .inl ⟨_, l, hgone, rfl, rfl, deedsOf_of_not_stops (not_stops_of_got hact),
      hgot ▸ (Strand.Does.gets rfl r).comes⟩
  · obtain ⟨n, rfl, hcancelled, hstep⟩ | ⟨r, rfl, hstack, hstep⟩ | ⟨t, fs, ht⟩ | ⟨b, rfl⟩ :=
      l.step_takes s (after cs).store
    · have hstops : m.stops = true := by
        rw [Moment.stops, (hm.of_call hcall).1, hm.before]
        exact hcancelled
      exact .inr (.inr ⟨n, rfl, hcancelled, if_pos hstops, returned_of_step hcall hstep⟩)
    · have hnone : m.actsOf l.id = [] := by
        simp [Moment.actsOf, Moment.act?, (hm.of_call hcall).1, hstack, Stage.acts]
      exact .inr (.inl ⟨r, rfl, hstack, hnone, returned_of_step hcall hstep⟩)
    · refine .inl ⟨_, _, .inl (work_of_takes hcall ht), rfl, ht.under,
        deedsOf_of_not_stops (not_stops_of_takes hcall ht hm), ?_⟩
      rw [actsOf_of_takes hcall ht hm]
      exact (Strand.does_of_takes ht).comes
    · exact absurd rfl (hleaving b)

/-- An execution that has returned does not act. -/
theorem actsOf_of_returned (h : (after cs).returned e = [r]) (hm : Made cs c m) : m.actsOf e = [] :=
  actsOf_of_other fun s l a hact hid => by
    have hnil := returned_of_has (hm.has_of_act hact)
    rw [hid, h] at hnil
    cases hnil

theorem returned_next (h : (after cs).returned e = [r]) (c : Choice) : (after (c :: cs)).returned e = [r] :=
  returned_of_mem (mem_returned_next (h ▸ .head _) c)

/-! ### Executions and their strands -/

/-- Since then the execution has acted as the strand does, and is where that is now, or has come to its end
with the same result. -/
inductive Enacts (e : ExecutionId) (x : Strand) (later : List Moment) (S : Session) : Prop
  | works (s : Stage) (l : Loop) (hl : S.Has s l) (hid : l.id = e) (hunder : l.link.under l.stack = none)
    (hcomes : x.Comes (actsOf e later) ⟨s, l.link, l.stack⟩)
  | ended (r : Result) (h : S.returned e = [r]) (hcomes : x.Comes (actsOf e later) ⟨.handing r, none, []⟩)

/-- **The strand does what the execution does in one step.** -/
theorem Enacts.next (h : (after cs).Enacts e x later) (hm : Made cs c m) :
    (after (c :: cs)).Enacts e x (m :: later) := by
  cases h with
  | works s l hl hid hunder hcomes =>
    subst hid
    obtain ⟨s', l', hl', hid, hunder', -, hgoes⟩ | ⟨r, rfl, hstack, hnone, hreturned⟩ |
      ⟨n, rfl, hcancelled, -⟩ := proceeds hl hm
    · exact .works s' l' hl' hid (hunder'.trans hunder) (actsOf_cons .. ▸ hcomes.trans hgoes)
    · have hlink : l.link = none := by rwa [hstack] at hunder
      refine .ended r hreturned ?_
      rwa [actsOf_cons, hnone, List.append_nil, ← hlink, ← hstack]
    · cases (not_cancelled_of_under hl hunder).symm.trans hcancelled
  | ended r hr hcomes =>
    refine .ended r (returned_next hr c) ?_
    rwa [actsOf_cons, actsOf_of_returned hr hm, List.append_nil]

/-- **An execution in which cancellation is disabled does what its strand does.** -/
theorem enacts (hl : (after cs₀).Has s l) (hunder : l.link.under l.stack = none) (cs : List Choice) :
    ∃ later, (after (cs ++ cs₀)).past = later ++ (after cs₀).past ∧
      (after (cs ++ cs₀)).Enacts l.id ⟨s, l.link, l.stack⟩ later := by
  obtain ⟨later, hpast⟩ := past_suffix cs₀ cs
  refine ⟨later, hpast.symm, ?_⟩
  refine later_induction (P := fun cs later => (after (cs ++ cs₀)).Enacts l.id ⟨s, l.link, l.stack⟩ later)
    (.works s l hl rfl hunder .here) (fun c cs later hsame h => ?_) (fun c cs m later hm h => h.next hm) cs hpast.symm
  rwa [List.cons_append, hsame]

/-! ### Executions that can be cancelled -/

/-- Since then the execution has done what the strand does, and is where that is now, or has come to its end
with the same result, or was stopped where the strand looks at the connection `outer`, at the bottom of its
stack, which is cancelled. -/
inductive Carries (e : ExecutionId) (outer : Link) (x : Strand) (later : List Moment) (S : Session) : Prop
  | works (s : Stage) (l : Loop) (hl : S.Has s l) (hid : l.id = e) (hunder : l.link.under l.stack = outer)
    (hcomes : x.Comes (deeds e later) ⟨s, l.link, l.stack⟩)
  | ended (r : Result) (h : S.returned e = [r]) (hcomes : x.Comes (deeds e later) ⟨.handing r, outer, []⟩)
  | stopped (n : Node) (fs : List Frame) (h : S.returned e = [.error .cancelled])
    (hcancelled : S.store.isCancelled outer = true) (hcomes : x.Comes (deeds e later) ⟨.looking n, outer, fs⟩)

/-- A loop whose connection is cancelled is in no region. -/
theorem under_of_cancelled (hl : (after cs).Has s l) (hc : (after cs).store.isCancelled l.link = true) :
    l.link.under l.stack = l.link := by
  refine Link.under_of_notMem fun enclosing hmem => ?_
  rw [(fits_of_has hl).link_eq_none hmem] at hc
  cases hc

/-- **The strand does what the execution does in one step**, also under a connection that can be cancelled. -/
theorem Carries.next {outer : Link} (h : (after cs).Carries e outer x later) (hm : Made cs c m) :
    (after (c :: cs)).Carries e outer x (m :: later) := by
  have hgrows : ∀ link, (after cs).store.isCancelled link = true → (after (c :: cs)).store.isCancelled link = true :=
    (after_grows cs [c]).cancelled
  cases h with
  | works s l hl hid hunder hcomes =>
    subst hid
    obtain ⟨s', l', hl', hid, hunder', hdeeds, hgoes⟩ | ⟨r, rfl, hstack, hnone, hreturned⟩ |
      ⟨n, rfl, hcancelled, hnone, hreturned⟩ := proceeds hl hm
    · refine .works s' l' hl' hid (hunder'.trans hunder) ?_
      rw [deeds_cons, hdeeds]
      exact hcomes.trans hgoes
    · have hlink : l.link = outer := by rwa [hstack] at hunder
      refine .ended r hreturned ?_
      rwa [deeds_cons, deedsOf_of_nil hnone, List.append_nil, ← hlink, ← hstack]
    · have hlink : l.link = outer := (under_of_cancelled hl hcancelled).symm.trans hunder
      refine .stopped n l.stack hreturned (hgrows _ (hlink ▸ hcancelled)) ?_
      rwa [deeds_cons, hnone, List.append_nil, ← hlink]
  | ended r hr hcomes =>
    refine .ended r (returned_next hr c) ?_
    rwa [deeds_cons, deedsOf_of_nil (actsOf_of_returned hr hm), List.append_nil]
  | stopped n fs hr hcancelled hcomes =>
    refine .stopped n fs (returned_next hr c) (hgrows _ hcancelled) ?_
    rwa [deeds_cons, deedsOf_of_nil (actsOf_of_returned hr hm), List.append_nil]

/-- **An execution does what its strand does until it returns**: at the end of that, or where it is stopped. -/
theorem carries (hl : (after cs₀).Has s l) (cs : List Choice) :
    ∃ later, (after (cs ++ cs₀)).past = later ++ (after cs₀).past ∧
      (after (cs ++ cs₀)).Carries l.id (l.link.under l.stack) ⟨s, l.link, l.stack⟩ later := by
  obtain ⟨later, hpast⟩ := past_suffix cs₀ cs
  refine ⟨later, hpast.symm, ?_⟩
  refine later_induction (P := fun cs later => (after (cs ++ cs₀)).Carries l.id (l.link.under l.stack)
    ⟨s, l.link, l.stack⟩ later) (.works s l hl rfl rfl .here) (fun c cs later hsame h => ?_)
      (fun c cs m later hm h => h.next hm) cs hpast.symm
  rwa [List.cons_append, hsame]

end Session

/-- Whenever an execution in which cancellation is disabled is about to run the first program, the second
one in its place does what the execution does from then on, and ends when that has returned, with the same
result. -/
def Prog.StandsFor (q p : Prog) : Prop :=
  ∀ (cs₀ : List Choice) (l : Loop), (Session.after cs₀).Has (.looking (.program p)) l →
    l.link.under l.stack = none → ∀ cs, ∃ later z,
      (Session.after (cs ++ cs₀)).past = later ++ (Session.after cs₀).past ∧
        (Strand.mk (.looking (.program q)) l.link l.stack).Comes (Session.actsOf l.id later) z ∧
          ∀ r ∈ (Session.after (cs ++ cs₀)).returned l.id, z = ⟨.handing r, none, []⟩

/-- The programs behave alike: in any world and on every stack they do the same, in the same order, and end
with the same result, and each can stand for the other in an execution in which cancellation is disabled. -/
structure Prog.Alike (p q : Prog) : Prop where
  same : p.Same q
  left : q.StandsFor p
  right : p.StandsFor q

theorem Prog.Same.symm {p q : Prog} (h : p.Same q) : q.Same p := fun link fs => (h link fs).symm

theorem Prog.Same.standsFor {p q : Prog} (h : p.Same q) : q.StandsFor p := fun cs₀ l hl hunder cs => by
  obtain ⟨later, hpast, henacts⟩ := Session.enacts hl hunder cs
  cases henacts with
  | works s l' hl' hid hunder' hcomes =>
    obtain ⟨z, hz, -⟩ := (h l.link l.stack).1 _ _ hcomes
    refine ⟨later, z, hpast, hz, fun r hr => ?_⟩
    rw [← hid, Session.returned_of_has hl'] at hr
    cases hr
  | ended r hr hcomes =>
    obtain ⟨z, hz, hend⟩ := (h l.link l.stack).1 _ _ hcomes
    refine ⟨later, z, hpast, hz, fun r' hr' => ?_⟩
    obtain rfl : r' = r := by simpa [hr] using hr'
    exact hend ⟨_, _, rfl⟩

/-- **Programs whose strands do the same behave alike.** -/
theorem Prog.Same.alike {p q : Prog} (h : p.Same q) : p.Alike q := ⟨h, h.standsFor, h.symm.standsFor⟩

end CancelableEffects
