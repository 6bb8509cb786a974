import CancelableEffects.Proofs.Acts

/-!
# Nests — brackets run in sequence, and the first error of a nest stays the primary one

* `Session.Performs`: the execution that opened a bracket is where the sequence is.
* `Session.next_of_follows`, `Session.Performs.next`: so it is after each step.
* **`Session.performs_in_sequence`**: a bracket does what the sequence does, and ends as it does.
* `Result.composed`: the first error, in which the others are suppressed.
* **`Session.unwinds`**: a nest of brackets ends with the errors of its releases composed, the innermost
  first.
* **`Session.bracket_equals_sequence`**: both, for executions that are not cancelled.
-/

namespace CancelableEffects

/-- The loop with the frames `fs` above its own, under another connection. -/
def Loop.below (l : Loop) (link : Link) (fs : List Frame) : Loop := { l with link, stack := fs ++ l.stack }

/-! ## Composed errors -/

namespace Result

/-- The errors among the results, in order. -/
def errors (rs : List Result) : List Error :=
  rs.filterMap fun
    | .ok _ => none
    | .error e => some e

/-- The first of the errors, in which the others are suppressed in order; the result `r` if there are none. -/
def composed (r : Result) : List Error → Result
  | [] => r
  | e :: es => .error { e with suppressed := e.suppressed ++ es }

/-- **Of the use and the releases of a nest the first error stays the primary one**, and the others are
suppressed in order. -/
theorem foldl_afterRelease (r : Result) (released : List Result) :
    released.foldl afterRelease r = r.composed (errors (r :: released)) := by
  induction released generalizing r with
  | nil =>
    cases r with
    | ok v => rfl
    | error e =>
      obtain ⟨cause, suppressed⟩ := e
      simp [composed, errors]
  | cons x released ih =>
    rw [List.foldl_cons, ih]
    cases r <;> cases x <;> simp [afterRelease, composed, errors, Error.suppress]

end Result

namespace Session

variable {cs : List Choice} {c : Choice} {m : Moment} {g : BracketId} {e : ExecutionId} {s : Stage} {l₀ : Loop} {r : Result}
  {inner : Link} {fs below : List Frame} {acquire : Prog} {use : Value → Code Prog Prog}
  {release : Release Prog} {p : Part} {y : Strand} {ok : Bool}

/-! ## Once the acquisition has ended -/

/-- **A loop in the midst of a bracket is where the sequence is after each step.** -/
theorem next_of_follows
    (h : Follows g l₀.link use release ((after cs).store.held? g) p s inner fs y)
    (hl : (after cs).Has s (l₀.below inner fs)) (hdone : 0 < (after cs).deals g (.acquires ok))
    (hm : Made cs c m) (hagreed : (after cs).store.Agreed g l₀.id l₀.link release)
    (hc : (after cs).store.isCancelled l₀.link = false) (htoken : (after (c :: cs)).deals g (.asks true) = 0)
    (hgoing : ∀ r, s = .handing r → fs ≠ []) :
    ∃ p' s' inner' fs' y', (after (c :: cs)).Has s' (l₀.below inner' fs') ∧
      Follows g l₀.link use release ((after (c :: cs)).store.held? g) p' s' inner' fs' y' ∧
        y.Comes (m.acts l₀.id g) y' ∧
          (p' = p ∨ m.call = some (.work s (l₀.below inner fs)) ∧ p.Leads g s (fs ++ l₀.stack) p') := by
  obtain ⟨br, hg, -, -, hrelease⟩ := hagreed
  have hserves : (l₀.below inner fs).Serves l₀.id g := .inl rfl
  have hkept : (∀ place r, c = .call place →
      (after cs).calls[place]? ≠ some (.work (.handing r) (l₀.below inner fs))) →
        .use g use ∈ fs ∨ .release g ∈ fs →
          (after (c :: cs)).store.held? g = (after cs).store.held? g := fun hother hmem => by
    refine held_next hl ?_ hdone hg htoken fun place r fs' hc hcall => absurd hcall (hother place r hc)
    exact hmem.elim (fun hmem => Loop.mem_claims (List.mem_append_left _ hmem) rfl)
      fun hmem => Loop.mem_claims (List.mem_append_left _ hmem) rfl
  obtain ⟨hstays, hother, hrests⟩ | ⟨b, r, rfl, hact, hgone⟩ | ⟨place, rfl, hcall, hleaving⟩ := fares hl hm
  · refine ⟨p, s, inner, fs, y, hstays, h.kept (hkept fun place r hc hcall => ?_), ?_, .inl rfl⟩
    · obtain ⟨rfl, -⟩ := has_unique hl (.inl (List.mem_of_getElem? hcall)) rfl
      obtain ⟨b, hb⟩ := hrests place hc hcall
      cases hb
    · suffices hnone : m.acts l₀.id g = [] from hnone ▸ .here
      refine acts_of_other fun s' l' a hact hserves' => ?_
      obtain hid | hsink := hserves'
      · exact absurd hid (hother s' l' a hact)
      · exact absurd (Sink.isAcquired_iff.1 hsink) (not_acquirer_of_done hdone (hm.has_of_act hact))
  · obtain ⟨hb, -, y', hfollows, hcomes⟩ := h.answered r
    have hbooks : (Stage.leaving b).serves g (l₀.below inner fs).stack = false := beq_eq_false_iff_ne.2 hb
    have hacts : m.acts l₀.id g = [.got b r] := by simp [Moment.acts, hact, hserves, hbooks]
    refine ⟨p, _, inner, fs, y', hgone, hfollows.kept (hkept fun place r' hc hcall => ?_), hacts ▸ hcomes, .inl rfl⟩
    cases (has_unique hl (.inl (List.mem_of_getElem? hcall)) rfl).1
  · obtain ⟨n, rfl, hcancelled, -⟩ | ⟨r, rfl, hstack, -⟩ | ⟨t, fs', ht⟩ | ⟨b, rfl⟩ :=
      (l₀.below inner fs).step_takes s (after cs).store
    · cases inner with
      | none => cases hcancelled
      | some i =>
        have hrestore : ∀ enclosing, Frame.restore enclosing ∉ fs := by
          intro enclosing hmem
          cases (fits_of_has hl).link_eq_none (List.mem_append_left _ hmem)
        rw [h.link_eq hrestore] at hc
        cases hc.symm.trans hcancelled
    · exact absurd (List.append_eq_nil_iff.1 hstack).1 (hgoing r rfl)
    · obtain ⟨p', fs₁, y', hleads, hframes, hfollows, hcomes⟩ :=
        h.takes (l := l₀.below inner fs) ht rfl hg hrelease hc (deal_ne_of_call hcall htoken) hgoing
      refine ⟨p', t.stage, t.link, fs₁, y', .inl ?_, ?_, ?_, .inr ⟨(hm.of_call hcall).1, hleads⟩⟩
      · have hwork := work_of_takes hcall ht
        rwa [show t.loop (l₀.below inner fs) fs' = l₀.below t.link fs₁ by
          simp only [Turn.loop, Loop.below, hframes]] at hwork
      · rwa [store_of_takes hcall ht]
      · rwa [acts_of_takes hcall ht hm hserves]
    · exact absurd rfl (hleaving b)

/-! ## From the opening of a bracket to its end -/

/-- The execution that opened the bracket is where the sequence is as the strand. -/
inductive Performs (g : BracketId) (acquire : Prog) (use : Value → Code Prog Prog) (release : Release Prog)
    (l₀ : Loop) (S : Session) : Strand → Prop
  | acquires {y : Strand} (hl : S.Has (.leaving g) (l₀.below l₀.link [.use g use]))
    (h : S.Acquires g acquire (Frame.whileAcquiring l₀.link use release) y) : Performs g acquire use release l₀ S y
  | proceeds {ok : Bool} {p : Part} {s : Stage} {inner : Link} {fs : List Frame} {y : Strand}
    (hl : S.Has s (l₀.below inner fs)) (hdone : 0 < S.deals g (.acquires ok))
    (h : Follows g l₀.link use release (S.store.held? g) p s inner fs y) : Performs g acquire use release l₀ S y

/-- **The execution that opened a bracket is where the sequence is after each step**, until it has the
result. -/
theorem Performs.next (h : (after cs).Performs g acquire use release l₀ y) (hm : Made cs c m)
    (hagreed : (after cs).store.Agreed g l₀.id l₀.link release)
    (hc : (after cs).store.isCancelled l₀.link = false) (htoken : (after (c :: cs)).deals g (.asks true) = 0)
    (hgoing : ∀ r, y = ⟨.handing r, l₀.link, []⟩ → ¬(after cs).Has (.handing r) l₀) :
    ∃ y', (after (c :: cs)).Performs g acquire use release l₀ y' ∧ y.Comes (m.acts l₀.id g) y' := by
  cases h with
  | acquires hl h =>
    obtain ⟨br, hg, -, hlink, -⟩ := hagreed
    obtain ⟨y', hy', hwaits, hcomes⟩ | ⟨r, hgone, rfl, hacts, hdone, hheld⟩ :=
      h.next hm hl rfl hg hlink hc htoken
    · exact ⟨y', .acquires hwaits hy', hcomes⟩
    · refine ⟨_, .proceeds hgone hdone (.gets r (.inl rfl) hheld), ?_⟩
      rw [show m.acts l₀.id g = [] from hacts]
      exact .here
  | @proceeds ok p s inner fs y hl hdone h =>
    have hfs : ∀ r, s = .handing r → fs ≠ [] := by
      rintro r rfl rfl
      obtain ⟨rfl, r', hr', rfl, -⟩ := h.of_nil
      obtain hr' | hr' := hr' <;> cases hr'
      exact hgoing r rfl hl
    obtain ⟨p', s', inner', fs', y', hl', h', hcomes, -⟩ := next_of_follows h hl hdone hm hagreed hc htoken hfs
    exact ⟨y', .proceeds hl' (mono_deals c hdone) h', hcomes⟩

/-- The bracket `g` of the execution `e` goes on: a call of it is pending, or one of its loops waits where the
sequence does. -/
inductive GoesOn (e : ExecutionId) (g : BracketId) (y : Strand) (S : Session) : Prop
  | pending {a : Activity} (h : a ∈ S.calls) (ha : a.Serves e g) : GoesOn e g y S
  | waits {b : BoundaryId} {l : Loop} (h : S.store.boundary? b = some (.parked l)) (hl : l.Serves e g)
    (hy : y.stage = .leaving b) : GoesOn e g y S

/-- Who is where the sequence is has a call pending, or waits where that waits. -/
theorem Has.goesOn {S : Session} {l : Loop} (h : S.Has s l) (hl : l.Serves e g)
    (hy : ∀ b, s = .leaving b → y.stage = .leaving b) : S.GoesOn e g y := by
  obtain h | ⟨b, hs, h⟩ := h
  · exact .pending h hl
  · exact .waits h hl (hy b hs)

/-- **A bracket goes on until it has ended.** -/
theorem Performs.goesOn (h : (after cs).Performs g acquire use release l₀ y) : (after cs).GoesOn l₀.id g y := by
  cases h with
  | acquires hl h =>
    cases h with
    | begins h => exact .pending h (Sink.isAcquired_iff.2 rfl)
    | works h hsink => exact h.goesOn (.inr (Sink.isAcquired_iff.2 hsink)) fun _ hs => hs
    | ends h => exact .pending h (Sink.isAcquired_iff.2 rfl)
    | comes h =>
      obtain h | hready := h
      · exact .pending h rfl
      · obtain h | ⟨b, hb, h⟩ := hl
        · exact .pending h (.inl rfl)
        · cases hb
          cases hready.symm.trans h
  | proceeds hl hdone h =>
    refine hl.goesOn (.inl rfl) fun b hs => ?_
    subst hs
    exact (h.answered (.ok .unit)).2.1

section Opens

variable {cs₀ : List Choice} {place : Nat}

/-- An execution opens a bracket, and the sequence begins. -/
theorem performs_of_opens
    (hopens : (after cs₀).calls[place]? = some (.work (.looking (.program (.bracket acquire use release))) l₀))
    (hc : (after cs₀).store.isCancelled l₀.link = false) :
    ∃ y, (after (.call place :: cs₀)).Performs (after cs₀).store.boundaries.size acquire use release l₀ y ∧
      (Strand.mk (.looking (.program (.inSequence acquire use release))) l₀.link []).Comes
        ((after (.call place :: cs₀)).acts l₀.id (after cs₀).store.boundaries.size) y ∧
      (after (.call place :: cs₀)).store.Agreed (after cs₀).store.boundaries.size l₀.id l₀.link release := by
  have ht : l₀.Takes (after cs₀).store _ _ _ := .looking (.program (.bracket acquire use release)) hc
  have hnew := after_takes hopens ht
  have hacts : (after (.call place :: cs₀)).acts l₀.id (after cs₀).store.boundaries.size = [] := by
    rw [acts, (made_call hopens).past, List.takeWhile_cons_of_neg]
    · rfl
    · simp [Moment.deal, Activity.deal, Node.deal, hc]
  refine ⟨_, .acquires (.inl (work_of_takes hopens ht)) (.begins ?_), ?_, ?_⟩
  · rw [hnew, record_calls]
    refine List.mem_append_left _ (List.mem_append_left _ ?_)
    exact List.mem_append_right _ (.head _)
  · rw [hacts]
    exact Strand.comes_acquiring hc
  · rw [store_of_takes hopens ht]
    exact ⟨_, Store.opened_newBoundary _ _ _, rfl, rfl, rfl⟩

/-- **A bracket does what the sequence does, and ends as it does**, as long as its connection is not
cancelled and nobody runs its token. -/
theorem performs_in_sequence
    (hopens : (after cs₀).calls[place]? = some (.work (.looking (.program (.bracket acquire use release))) l₀))
    (cs : List Choice) (hc : (after (cs ++ .call place :: cs₀)).store.isCancelled l₀.link = false)
    (htoken : (after (cs ++ .call place :: cs₀)).deals (after cs₀).store.boundaries.size (.asks true) = 0) :
    ∃ cs₂ cs₁ y, cs = cs₂ ++ cs₁ ∧
      (Strand.mk (.looking (.program (.inSequence acquire use release))) l₀.link []).Comes
        ((after (cs₁ ++ .call place :: cs₀)).acts l₀.id (after cs₀).store.boundaries.size) y ∧
      (cs₂ = [] ∧ (after (cs ++ .call place :: cs₀)).Performs (after cs₀).store.boundaries.size acquire use
          release l₀ y ∨
        ∃ r, y = ⟨.handing r, l₀.link, []⟩ ∧ (after (cs₁ ++ .call place :: cs₀)).Has (.handing r) l₀) := by
  obtain ⟨y₀, hy₀, hcomes₀, hagreed₀⟩ := performs_of_opens hopens
    (not_cancelled_of_later (cs ++ [.call place]) (by simpa using hc))
  induction cs with
  | nil => exact ⟨[], [], y₀, rfl, hcomes₀, .inl ⟨rfl, hy₀⟩⟩
  | cons c cs ih =>
    have hc' := not_cancelled_of_later [c] hc
    obtain ⟨cs₂, cs₁, y, rfl, hcomes, ⟨rfl, hy⟩ | hended⟩ := ih hc' (deals_eq_zero_of_later [c] htoken)
    · by_cases hgoing : ∀ r, y = ⟨.handing r, l₀.link, []⟩ → ¬(after (cs₁ ++ .call place :: cs₀)).Has (.handing r) l₀
      · have hagreed : (after (cs₁ ++ .call place :: cs₀)).store.Agreed (after cs₀).store.boundaries.size l₀.id
            l₀.link release := agreed_later hagreed₀ cs₁
        obtain hsame | ⟨m, hm⟩ := made_or (cs₁ ++ .call place :: cs₀) c
        · refine ⟨[], c :: cs₁, y, rfl, ?_, .inl ⟨rfl, ?_⟩⟩
          · exact hsame.symm ▸ hcomes
          · exact hsame.symm ▸ hy
        · obtain ⟨y', hy', hnext⟩ := hy.next hm hagreed hc' htoken hgoing
          obtain ⟨br, hg, -⟩ := hagreed
          refine ⟨[], c :: cs₁, y', rfl, ?_, .inl ⟨rfl, hy'⟩⟩
          rw [List.cons_append, acts_made hm hg]
          exact hcomes.trans hnext
      · obtain ⟨r, hr⟩ := not_forall.1 hgoing
        obtain ⟨hy', hhas⟩ := Classical.not_imp.1 hr
        exact ⟨[c], cs₁, y, rfl, hcomes, .inr ⟨r, hy', not_not.1 hhas⟩⟩
    · exact ⟨c :: cs₂, cs₁, y, rfl, hcomes, .inr hended⟩

end Opens

/-! ## Nests -/

/-- The release of the bracket has ended with the result. -/
def Released (g : BracketId) (x : Result) (S : Session) : Prop :=
  ∃ m ∈ S.past, ∃ l below, m.call = some (.work (.handing x) l) ∧ l.stack = .attempt :: .openGate g :: below

theorem Released.later {cs₀ : List Choice} {x : Result} (h : (after cs₀).Released g x) (cs : List Choice) :
    (after (cs ++ cs₀)).Released g x :=
  let ⟨m, hm, hends⟩ := h
  ⟨m, (past_suffix cs₀ cs).mem hm, hends⟩

/-- The use of the bracket has ended with `r`: the loop is about to ask for the release, or on the way to the
end of the bracket, and what the release has ended with is known. -/
inductive Closing (g : BracketId) (release : Release Prog) (r : Result) (l₀ : Loop) (S : Session) :
    Stage → Link → List Frame → Prop
  | used (hl : S.Has (.handing r) (l₀.below l₀.link [.release g])) :
    Closing g release r l₀ S (.handing r) l₀.link [.release g]
  | ending {s : Stage} {inner : Link} {fs : List Frame} {use : Value → Code Prog Prog} {y : Strand}
    (hl : S.Has s (l₀.below inner fs))
    (h : Follows g l₀.link use release (S.store.held? g) (.ending r) s inner fs y) :
    Closing g release r l₀ S s inner fs
  | closed {s : Stage} {inner : Link} {fs : List Frame} {use : Value → Code Prog Prog} {y : Strand} {x : Result}
    (hl : S.Has s (l₀.below inner fs))
    (h : Follows g l₀.link use release (S.store.held? g) (.closed r x) s inner fs y) (hx : S.Released g x) :
    Closing g release r l₀ S s inner fs

theorem Closing.has (h : (after cs).Closing g release r l₀ s inner fs) : (after cs).Has s (l₀.below inner fs) := by
  cases h with
  | used hl => exact hl
  | ending hl h => exact hl
  | closed hl h hx => exact hl

/-- The use has ended: the loop asks for the release, and gets it. -/
theorem next_of_used (hl : (after cs).Has (.handing r) (l₀.below l₀.link [.release g])) (hm : Made cs c m)
    (hdone : 0 < (after cs).deals g (.acquires true)) (hagreed : (after cs).store.Agreed g l₀.id l₀.link release)
    (hc : (after cs).store.isCancelled l₀.link = false) (htoken : (after cs).deals g (.asks true) = 0) :
    ∃ s' inner' fs', (after (c :: cs)).Closing g release r l₀ s' inner' fs' := by
  obtain ⟨hstays, -⟩ | ⟨b, r', hs, -⟩ | ⟨place, rfl, hcall, -⟩ := fares hl hm
  · exact ⟨_, _, _, .used hstays⟩
  · cases hs
  obtain ⟨n, hs, -⟩ | ⟨r', -, hstack, -⟩ | ⟨t, fs, ht⟩ | ⟨b, hs⟩ :=
    (l₀.below l₀.link [.release g]).step_takes (.handing r) (after cs).store
  · cases hs
  · cases hstack
  · have hclaims : g ∈ (l₀.below l₀.link [.release g]).claims := .head _
    obtain ⟨br, hg, -, hlink, -⟩ := hagreed
    obtain ⟨v, hheld⟩ : ∃ v, (after cs).store.held? g = some v := by
      obtain hheld | htoken' | hasked | hcancelled := held_or_asked g cs hdone
      · exact Option.isSome_iff_exists.1 hheld
      · exact absurd htoken (Nat.ne_of_gt htoken')
      · exact absurd hclaims (not_claimed_of_asked cs _ _ hl hasked)
      · rw [show (after cs).store.bracketLink g = l₀.link by simp [Store.bracketLink, hg, hlink]] at hcancelled
        cases hc.symm.trans hcancelled
    obtain ⟨hframes, hstage, hinner, -⟩ := ht.asks_release rfl (rfl : _ = l₀.link) hheld
    have hwork := work_of_takes hcall ht
    rw [hstage, show t.loop (l₀.below l₀.link [.release g]) fs = l₀.below l₀.link [.attempt, .endBracket g r] by
      simp only [Turn.loop, Loop.below, hframes, hinner]
      rfl] at hwork
    have hasks := fun held => @Follows.asks g l₀.link (fun _ => .ret .unit) release held v r
    exact ⟨_, _, _, .ending (.inl hwork) (hasks _)⟩
  · cases hs

/-- **A bracket whose use has ended comes to its end**, step by step. -/
theorem Closing.next (h : (after cs).Closing g release r l₀ s inner fs) (hm : Made cs c m)
    (hdone : 0 < (after cs).deals g (.acquires true)) (hagreed : (after cs).store.Agreed g l₀.id l₀.link release)
    (hc : (after cs).store.isCancelled l₀.link = false) (htoken : (after (c :: cs)).deals g (.asks true) = 0)
    (hgoing : ∀ r, s = .handing r → fs ≠ []) :
    ∃ s' inner' fs', (after (c :: cs)).Closing g release r l₀ s' inner' fs' := by
  cases h with
  | used hl =>
    exact next_of_used hl hm hdone hagreed hc (deals_eq_zero_of_later [c] htoken)
  | ending hl h =>
    obtain ⟨p', s', inner', fs', y', hl', h', -, rfl | ⟨hcall, hleads⟩⟩ :=
      next_of_follows h hl hdone hm hagreed hc htoken hgoing
    · exact ⟨s', inner', fs', .ending hl' h'⟩
    · cases hleads with
      | same => exact ⟨s', inner', fs', .ending hl' h'⟩
      | closed _ x hs hfs =>
        subst hs
        refine ⟨s', inner', fs', .closed hl' h' ⟨m, hm.past ▸ .head _, _, hfs.choose, hcall, ?_⟩⟩
        exact hfs.choose_spec
  | closed hl h hx =>
    obtain ⟨p', s', inner', fs', y', hl', h', -, rfl | ⟨-, hleads⟩⟩ :=
      next_of_follows h hl hdone hm hagreed hc htoken hgoing
    · exact ⟨s', inner', fs', .closed hl' h' (hx.later [c])⟩
    · cases hleads with
      | same => exact ⟨s', inner', fs', .closed hl' h' (hx.later [c])⟩

/-- A bracket at its end hands on what its use and its release ended with. -/
theorem Closing.of_nil (h : (after cs).Closing g release r l₀ s inner []) :
    inner = l₀.link ∧ ∃ x, s.Hands (r.afterRelease x) ∧ (after cs).Released g x := by
  generalize hfs : ([] : List Frame) = fs at h
  cases h with
  | used hl => cases hfs
  | ending hl h =>
    subst hfs
    obtain ⟨-, r', -, -, ⟨used, x, hp, -⟩ | ⟨e, hp⟩⟩ := h.of_nil <;> cases hp
  | closed hl h hx =>
    subst hfs
    obtain ⟨hinner, r', hr', -, ⟨used, x, hp, rfl⟩ | ⟨e, hp⟩⟩ := h.of_nil <;> cases hp
    exact ⟨hinner, _, hr', hx⟩

section Unwinds

variable {cs₀ : List Choice}

/-- A bracket whose use has ended is at work until it ends: with what its use and its release ended with. -/
theorem closes_bracket (hl : (after cs₀).Has (.handing r) (l₀.below l₀.link [.release g])) (cs : List Choice)
    (hc : (after (cs ++ cs₀)).store.isCancelled l₀.link = false)
    (htoken : (after (cs ++ cs₀)).deals g (.asks true) = 0) :
    (∃ s inner fs, (after (cs ++ cs₀)).Has s (l₀.below inner fs)) ∨
      ∃ cs₂ cs₁ x, cs = cs₂ ++ cs₁ ∧ (after (cs₁ ++ cs₀)).Has (.handing (r.afterRelease x)) l₀ ∧
        (after (cs₁ ++ cs₀)).Released g x := by
  have hdone₀ := (acquired cs₀ _ _ hl).1 g (.head _)
  obtain ⟨br, hg, howner, hlink⟩ := (fits_of_has hl).1
  have hagreed₀ : (after cs₀).store.Agreed g l₀.id l₀.link br.release := ⟨br, hg, howner, hlink, rfl⟩
  suffices h : (∃ s inner fs, (after (cs ++ cs₀)).Closing g br.release r l₀ s inner fs) ∨ _ from
    h.imp_left fun ⟨s, inner, fs, h⟩ => ⟨s, inner, fs, h.has⟩
  induction cs with
  | nil => exact .inl ⟨_, _, _, .used hl⟩
  | cons c cs ih =>
    have hc' := not_cancelled_of_later [c] hc
    obtain ⟨s, inner, fs, hclosing⟩ | ⟨cs₂, cs₁, x, rfl, hended⟩ := ih hc' (deals_eq_zero_of_later [c] htoken)
    · by_cases hgoing : ∀ r, s = .handing r → fs ≠ []
      · obtain hsame | ⟨m, hm⟩ := made_or (cs ++ cs₀) c
        · exact .inl ⟨s, inner, fs, hsame.symm ▸ hclosing⟩
        · have hdone := Nat.lt_of_lt_of_le hdone₀ (deals_le g (.acquires true) cs₀ cs)
          exact .inl (hclosing.next hm hdone (agreed_later hagreed₀ cs) hc' htoken hgoing)
      · obtain ⟨r', rfl, rfl⟩ : ∃ r, s = .handing r ∧ fs = [] := by simpa using hgoing
        obtain ⟨rfl, x, hx, hreleased⟩ := hclosing.of_nil
        obtain hx | hx := hx
        · cases hx
        · cases hx
          exact .inr ⟨[c], cs, x, rfl, hclosing.has, hreleased⟩
    · exact .inr ⟨c :: cs₂, cs₁, x, rfl, hended⟩

/-- **A nest of brackets unwinds from the inside.** The brackets `gs`, the innermost first, end one after the
other with their releases, and the loop comes to what lies below with the first error of all. -/
theorem unwinds (gs : List BracketId) {r : Result} {cs₀ : List Choice}
    (hl : (after cs₀).Has (.handing r) (l₀.below l₀.link (gs.map .release))) (cs : List Choice)
    (hc : (after (cs ++ cs₀)).store.isCancelled l₀.link = false)
    (htokens : ∀ g ∈ gs, (after (cs ++ cs₀)).deals g (.asks true) = 0) :
    ∃ done rest xs, gs = done ++ rest ∧ List.Forall₂ (fun g x => (after (cs ++ cs₀)).Released g x) done xs ∧
      ((∃ g gs', rest = g :: gs' ∧
          ∃ s inner fs, (after (cs ++ cs₀)).Has s (l₀.below inner (fs ++ gs'.map .release))) ∨
        rest = [] ∧ ∃ cs₂ cs₁, cs = cs₂ ++ cs₁ ∧
          (after (cs₁ ++ cs₀)).Has (.handing (r.composed (Result.errors (r :: xs)))) l₀) := by
  suffices h : ∃ done rest xs, gs = done ++ rest ∧
      List.Forall₂ (fun g x => (after (cs ++ cs₀)).Released g x) done xs ∧ (_ ∨ rest = [] ∧ ∃ cs₂ cs₁,
        cs = cs₂ ++ cs₁ ∧ (after (cs₁ ++ cs₀)).Has (.handing (xs.foldl Result.afterRelease r)) l₀) by
    simpa only [Result.foldl_afterRelease] using h
  induction gs generalizing r cs₀ cs with
  | nil => exact ⟨[], [], [], rfl, .nil, .inr ⟨rfl, cs, [], (List.append_nil cs).symm, hl⟩⟩
  | cons g gs ih =>
    have hcloses := @closes_bracket g (l₀.below l₀.link (gs.map .release)) r cs₀ hl cs hc (htokens g (.head _))
    obtain ⟨s, inner, fs, hs⟩ | ⟨cs₂, cs₁, x, rfl, hl', hx⟩ := hcloses
    · refine ⟨[], g :: gs, [], rfl, .nil, .inl ⟨g, gs, rfl, s, inner, fs, ?_⟩⟩
      simpa [Loop.below] using hs
    · rw [List.append_assoc] at hc htokens ⊢
      obtain ⟨done, rest, xs, hgs, hxs, hends⟩ := ih hl' cs₂ hc fun g' hg' => htokens g' (.tail _ hg')
      refine ⟨g :: done, rest, x :: xs, by rw [hgs]; rfl, .cons (hx.later cs₂) hxs, ?_⟩
      obtain hworks | ⟨hrest, cs₄, cs₃, rfl, hended⟩ := hends
      · exact .inl hworks
      · exact .inr ⟨hrest, cs₄, cs₃ ++ cs₁, by simp, by simpa using hended⟩

end Unwinds

/-! ## Executions that are not cancelled -/

/-- **A bracket equals its plain sequence when nothing is cancelled.** An execution opens a bracket, its
connection is not cancelled, and nobody runs the token of the bracket: then the acts of its loops are those of
the sequence, in order. The bracket goes on as long as the sequence does, and waits only where that waits; when
it has ended, the sequence has ended with the same result, and cannot end otherwise. Hence a nest of brackets of
any depth, the use of the innermost of which has ended with `r`, ends with the first error of that and of the
releases, from the inside, in which the others are suppressed in this order. -/
theorem bracket_equals_sequence :
    (∀ {cs₀ : List Choice} {place : Nat} {acquire : Prog} {use : Value → Code Prog Prog}
      {release : Release Prog} {l₀ : Loop},
      (after cs₀).calls[place]? = some (.work (.looking (.program (.bracket acquire use release))) l₀) →
      ∀ cs : List Choice, (after (cs ++ .call place :: cs₀)).store.isCancelled l₀.link = false →
      (after (cs ++ .call place :: cs₀)).deals (after cs₀).store.boundaries.size (.asks true) = 0 →
      ∃ cs₂ cs₁ y, cs = cs₂ ++ cs₁ ∧
        (Strand.mk (.looking (.program (.inSequence acquire use release))) l₀.link []).Comes
          ((after (cs₁ ++ .call place :: cs₀)).acts l₀.id (after cs₀).store.boundaries.size) y ∧
        (cs₂ = [] ∧ (after (cs ++ .call place :: cs₀)).GoesOn l₀.id (after cs₀).store.boundaries.size y ∨
          ∃ r, y = ⟨.handing r, l₀.link, []⟩ ∧ (after (cs₁ ++ .call place :: cs₀)).Has (.handing r) l₀ ∧
            ∀ z, (Strand.mk (.looking (.program (.inSequence acquire use release))) l₀.link []).Comes
              ((after (cs₁ ++ .call place :: cs₀)).acts l₀.id (after cs₀).store.boundaries.size) z →
                z.Comes [] y)) ∧
    ∀ (gs : List BracketId) {l₀ : Loop} {r : Result} {cs₀ : List Choice},
      (after cs₀).Has (.handing r) (l₀.below l₀.link (gs.map .release)) →
      ∀ cs : List Choice, (after (cs ++ cs₀)).store.isCancelled l₀.link = false →
      (∀ g ∈ gs, (after (cs ++ cs₀)).deals g (.asks true) = 0) →
      ∃ done rest xs, gs = done ++ rest ∧ List.Forall₂ (fun g x => (after (cs ++ cs₀)).Released g x) done xs ∧
        ((∃ g gs', rest = g :: gs' ∧
            ∃ s inner fs, (after (cs ++ cs₀)).Has s (l₀.below inner (fs ++ gs'.map .release))) ∨
          rest = [] ∧ ∃ cs₂ cs₁, cs = cs₂ ++ cs₁ ∧
            (after (cs₁ ++ cs₀)).Has (.handing (r.composed (Result.errors (r :: xs)))) l₀) := by
  refine ⟨fun hopens cs hc htoken => ?_, fun gs l₀ r cs₀ => unwinds gs⟩
  obtain ⟨cs₂, cs₁, y, hcs, hcomes, ⟨hcs₂, hy⟩ | ⟨r, rfl, hends⟩⟩ := performs_in_sequence hopens cs hc htoken
  · exact ⟨cs₂, cs₁, y, hcs, hcomes, .inl ⟨hcs₂, hy.goesOn⟩⟩
  · refine ⟨cs₂, cs₁, _, hcs, hcomes, .inr ⟨r, rfl, hends, fun z hz => ?_⟩⟩
    obtain hafter | hbefore := hcomes.unique hz
    · rw [hafter.of_ended]
      exact .here
    · exact hbefore

/-- The program is run, and so many steps are taken. -/
def running (p : Prog) (steps : Nat) : List Choice :=
  List.replicate steps (.call 0) ++ [.input (.run p none true)]

/-- The loop of the first run. -/
def runner : Loop := ⟨0, some 0, [], .observer 0⟩

/-- A release that fails. -/
def failsAs (message : String) : Release Prog := .call fun _ _ => .ret (.raise (.msg message))

/-- The use of a bracket that fails, and then its release. -/
def failingUse (_ : Value) : Code Prog Prog :=
  .ret (.bracket .unit (fun _ => .ret (.raise (.msg "use"))) (failsAs "inner"))

/-- A bracket around another one: the innermost use fails, and both releases. -/
def failingNest : Prog := .bracket .unit failingUse (failsAs "outer")

set_option maxRecDepth 1024 in
/-- The run of the nest raises the failure of the use, in which those of the releases were suppressed, the inner
one first: so the sequence ends, and so the nest unwinds. -/
theorem failing_nest_in_sequence :
    (after (running failingNest 54)).store.runs[0]?.map Run.results =
        some [.error (((Error.msg "use").suppress (.msg "inner")).suppress (.msg "outer"))] ∧
      (after (running failingNest 1)).calls[0]? = some (.work (.looking (.program failingNest)) runner) ∧
      (∃ cs₁ y, (Strand.mk (.looking (.program (.inSequence .unit failingUse (failsAs "outer")))) (some 0) []).Comes
        ((after (cs₁ ++ .call 0 :: running failingNest 1)).acts 0 0) y) ∧
      (after (running failingNest 24)).Has (.handing (.error (.msg "use")))
        (runner.below (some 0) ([1, 0].map .release)) ∧
      ∃ done rest xs, [1, 0] = done ++ rest ∧ List.Forall₂ (fun g x =>
        (after (List.replicate 30 (.call 0) ++ running failingNest 24)).Released g x) done xs := by
  obtain ⟨hsequence, hnest⟩ := bracket_equals_sequence
  have hopens : (after (running failingNest 1)).calls[0]? = some (.work (.looking (.program failingNest)) runner) :=
    rfl
  have hused : (after (running failingNest 24)).Has (.handing (.error (.msg "use")))
    (runner.below (some 0) ([1, 0].map .release)) := .inl (.head _)
  obtain ⟨cs₂, cs₁, y, -, hcomes, -⟩ := hsequence hopens (List.replicate 52 (.call 0)) (by decide +kernel)
    (by decide +kernel)
  obtain ⟨done, rest, xs, hgs, hxs, -⟩ := hnest [1, 0] hused (List.replicate 30 (.call 0)) (by decide +kernel)
    (by decide +kernel)
  exact ⟨rfl, hopens, ⟨cs₁, y, hcomes⟩, hused, done, rest, xs, hgs, hxs⟩

/-- The sequence, with cancellation disabled nowhere. -/
def plainly (acquire : Prog) (use : Value → Code Prog Prog) (release : Release Prog) : Prog :=
  .bind acquire fun v => .ret <| .bind (.attempt (.suspend (use v))) fun used =>
    .ret <| .bind (.attempt (.suspend (release.code v (.ofResult used.toResult)))) fun released =>
      .ret (.composed used released)

/-- The lines that were logged. -/
def lines (S : Session) : List String :=
  S.store.history.toList.filterMap fun
    | .line text => some text
    | _ => none

/-- The use of a bracket of the first run, which runs the token of the bracket. -/
def poppingUse (_ : Value) : Code Prog Prog :=
  .ret (.bind (.pop (some 0)) fun _ => .ret (.delay (.log "used" (.ret (.ok .unit)))))

/-- An acquisition that logs whether it has a connection. -/
def askingAcquire : Prog :=
  .connected fun link c => .log (if link.isSome then "connected" else "alone") (.answer c (.ok .unit) (.ret ()))

/-- A release that logs that it is run. -/
def loggingRelease : Release Prog := .call fun _ _ => .log "released" (.ret .unit)

set_option maxRecDepth 1024 in
/-- Nothing is cancelled, but the use runs the token of its bracket: the resource is released before the use has
ended. And an acquisition has no connection, though the program has one. -/
theorem differs_from_plain_sequence :
    (after (running (.bracket .unit poppingUse loggingRelease) 44)).calls = [] ∧
      (after (running (.bracket .unit poppingUse loggingRelease) 44)).store.isCancelled (some 0) = false ∧
      (after (running (.bracket .unit poppingUse loggingRelease) 44)).lines = ["released", "used"] ∧
      (after (running (plainly .unit poppingUse loggingRelease) 44)).lines = ["used", "released"] ∧
      (after (running (.bracket askingAcquire (fun _ => .ret .unit) loggingRelease) 44)).lines =
        ["alone", "released"] ∧
      (after (running (plainly askingAcquire (fun _ => .ret .unit) loggingRelease) 44)).lines =
        ["connected", "released"] := ⟨rfl, rfl, rfl, rfl, rfl, rfl⟩

end Session

end CancelableEffects
