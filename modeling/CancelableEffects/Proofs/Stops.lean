import CancelableEffects.Proofs.Balance
import CancelableEffects.Proofs.Order

/-!
# Stops — under a cancelled connection nothing starts, and nobody catches the cancellation

* `Keeper.link`: the connection under which a boundary was opened; `Session.link_of_has`: the loop that
  comes there has it.
* `Moment.starter?`: the frame whose closure a loop starts.
* **`Session.unwinding`**: once a connection was cancelled, these are frames that were on the stack then,
  from the top, and after the first that is not the transformation of a value there are no more.
* `Moment.Interrupts`: a boundary is completed because a connection was cancelled.
* **`Session.nothing_starts_after_cancellation`**: no thunk and no registration starts any more, the
  closures that do are those of a single unwinding, and no handler gets the cancellation.
-/

namespace CancelableEffects

open List (Sublist)

/-! ## Who comes to a boundary -/

/-- The connection under which the step or the bracket was opened. -/
def Keeper.link : Keeper → Link
  | .step st => st.link
  | .bracket br => br.link
  | _ => none

/-- The connection under which the step or the bracket at the boundary was opened. -/
def Store.keeperLink (b : BoundaryId) (σ : Store) : Link := (σ.keeper? b).bind Keeper.link

theorem Keeper.Grows.link {x y : Keeper} (h : x.Grows y) : y.link = x.link := by
  cases x <;> cases y <;> first | exact h.elim | rfl | skip
  · exact h.2
  · exact Bracket.Grows.link h

theorem Store.Grows.keeperLink {σ σ' : Store} (h : σ.Grows σ') {b : BoundaryId} {x : Keeper}
    (hx : σ.keeper? b = some x) : σ'.keeperLink b = σ.keeperLink b := by
  obtain ⟨x', hx', hgrows⟩ := h.keeper b x hx
  simp only [Store.keeperLink, hx, hx', Option.bind_some, hgrows.link]

theorem Prog.opens_link {p : Prog} {e : ExecutionId} {link : Link} {σ : Store} {x : Keeper}
    (h : p.opens e link σ = some x) : x.link = none ∨ x.link = link := by
  cases p <;> simp only [Prog.opens, Option.some.injEq, reduceCtorEq] at h <;> subst h <;>
    simp [Keeper.link]

/-- A loop that comes to a boundary has opened it under its connection. -/
theorem Node.step_keeperLink {n : Node} {link : Link} {σ : Store} {b : BoundaryId}
    (hc : σ.isCancelled link = false) (e : ExecutionId) (hb : (n.step e link σ).stage = .leaving b) :
    ∃ x, (n.step e link σ).store.keeper? b = some x ∧ (x.link = none ∨ x.link = link) := by
  rcases n.step_pledges hc e with ⟨hstays, -⟩ | ⟨hleaves, -, x, hx, -⟩
  · exact absurd hb (hstays b)
  cases hleaves.symm.trans hb
  refine ⟨x, hx, ?_⟩
  rcases Node.of_keeper hc hx with ⟨p, -, hopens⟩ | ⟨g, -, rfl⟩
  · exact Prog.opens_link hopens
  · exact .inr rfl

namespace Session

variable {cs : List Choice} {c : ConnectionId}

/-- **A loop comes to a boundary under the connection under which it was opened.** -/
theorem link_of_has {b : BoundaryId} {l : Loop} (h : (after cs).Has (.leaving b) l)
    (hlink : (after cs).store.keeperLink b = some c) : l.link = some c := by
  have hinvariant := each (P := fun S s l => ∀ b, s = .leaving b →
      ∃ x, S.store.keeper? b = some x ∧ (x.link = none ∨ x.link = l.link)) ?_ ?_ ?_ ?_ cs _ l h b rfl
  · obtain ⟨x, hx, hnone | hlink'⟩ := hinvariant
    · simp [Store.keeperLink, hx, hnone] at hlink
    · simpa [Store.keeperLink, hx, hlink'] using hlink
  · intro S call next others s l hgrows hP b hs
    obtain ⟨x, hx, hlink⟩ := hP b hs
    obtain ⟨x', hx', hgrows'⟩ := hgrows.keeper b x hx
    exact ⟨x', hx', hgrows'.link ▸ hlink⟩
  · rintro cs n link k others - b ⟨⟩
  · intro cs s l t fs others hcall hP ht b hs
    obtain ⟨n, -, hc, rfl⟩ := ht.of_leaving hs
    obtain ⟨x, hx, hlink⟩ := Node.step_keeperLink hc l.id hs
    refine ⟨x, hx, ?_⟩
    rcases n.step_pledges hc l.id with ⟨hstays, -⟩ | ⟨-, hsame, -⟩
    · exact absurd hs (hstays b)
    · rwa [show (Turn.loop _ l fs).link = l.link from hsame]
  · rintro S b l r - - b' ⟨⟩

end Session

/-! ## The closures of an unwinding -/

/-- A closure is at work, or is about to be. -/
def Stage.IsClosure : Stage → Prop
  | .suspending _ | .mapping _ => True
  | _ => False

instance : DecidablePred Stage.IsClosure
  | .suspending _ | .mapping _ => isTrue trivial
  | .looking _ | .handing _ | .delaying _ | .leaving _ => isFalse id

/-- The frame starts a closure when it receives the result. -/
def Frame.Starts (f : Frame) (r : Result) (link : Link) (σ : Store) : Prop :=
  (f.resume r link σ).stage.IsClosure

instance (f : Frame) (r : Result) (link : Link) (σ : Store) : Decidable (f.Starts r link σ) :=
  inferInstanceAs (Decidable (f.resume r link σ).stage.IsClosure)

/-- The closure of the frame transforms a value. All others compute the next program. -/
def Frame.Transforms : Frame → Prop
  | .map _ | .combine _ => True
  | _ => False

/-- The frame whose closure a loop under the connection starts at this moment. -/
def Moment.starter? (c : ConnectionId) (m : Moment) : Option Frame :=
  match m.call with
  | some (.work (.handing r) ⟨_, link, f :: _, _⟩) =>
    if link = some c ∧ f.Starts r link m.before then some f else none
  | _ => none

/-- The frames whose closures were started under the connection, the oldest first. -/
def starters (c : ConnectionId) (past : List Moment) : List Frame :=
  (past.filterMap (·.starter? c)).reverse

/-- The loop is stopped when it comes to its connection next. -/
def Stage.Stops : Stage → Prop
  | .looking _ | .suspending _ => True
  | _ => False

theorem starters_append (c : ConnectionId) (later past : List Moment) :
    starters c (later ++ past) = starters c past ++ starters c later := by
  rw [starters, List.filterMap_append, List.reverse_append]
  rfl

theorem starters_cons (c : ConnectionId) (m : Moment) (past : List Moment) :
    starters c (m :: past) = starters c past ++ (m.starter? c).toList := by
  rw [← List.singleton_append, starters_append]
  cases h : m.starter? c <;> simp [starters, h]

/-- Who starts a closure under the connection receives a result. -/
theorem Moment.of_starter? {c : ConnectionId} {m : Moment} {f : Frame} (h : m.starter? c = some f) :
    ∃ r l fs, m.call = some (.work (.handing r) l) ∧ l.link = some c ∧ l.stack = f :: fs ∧
      f.Starts r l.link m.before := by
  unfold Moment.starter? at h
  split at h
  · rename_i r e link f' fs k hcall
    split at h
    · rename_i hstarts
      cases h
      exact ⟨r, _, fs, hcall, hstarts.1, rfl, hstarts.2⟩
    · cases h
  · cases h

theorem Moment.starter?_of_handing {c : ConnectionId} {m : Moment} {r : Result} {l : Loop} {f : Frame}
    {fs : List Frame} (hcall : m.call = some (.work (.handing r) l)) (hlink : l.link = some c)
    (hstack : l.stack = f :: fs) (hstarts : f.Starts r l.link m.before) : m.starter? c = some f := by
  obtain ⟨e, link, stack, k⟩ := l
  cases hlink
  cases hstack
  simp only [Moment.starter?, hcall]
  exact if_pos ⟨trivial, hstarts⟩

section Resume

variable {f : Frame} {r : Result} {link : Link} {σ : Store}

theorem Store.sweep_stops (of : Link) (first : Option Error) (below : List Frame) (ts : List Token) :
    (σ.sweep of first link below ts).stage.Stops ∧
      ¬(σ.sweep of first link below ts).stage.IsClosure := by
  cases ts <;> exact ⟨trivial, id⟩

/-- A frame that starts a closure leaves nothing behind, or the closure computes the next program. -/
theorem Frame.of_starts (hstarts : f.Starts r link σ) :
    f.Transforms ∧ (f.resume r link σ).frames = [] ∨ (f.resume r link σ).stage.Stops := by
  unfold Frame.Starts at hstarts
  revert hstarts
  fun_cases Frame.resume f r link σ
  case case23 of current ts first σ' first' hcollect =>
    exact fun _ => .inr (σ'.sweep_stops of first' [] ts).1
  all_goals simp [Stage.IsClosure, Frame.Transforms, Stage.Stops, *]

/-- A frame that starts no closure is gone when it has received the result, or the loop looks at what
comes next. -/
theorem Frame.of_not_starts (hstarts : ¬f.Starts r link σ) :
    (f.resume r link σ).frames = [] ∨ (f.resume r link σ).stage.Stops := by
  unfold Frame.Starts at hstarts
  revert hstarts
  fun_cases Frame.resume f r link σ
  case case23 of current ts first σ' first' hcollect =>
    exact fun _ => .inr (σ'.sweep_stops of first' [] ts).1
  all_goals first | exact fun _ => .inl rfl | simp [Stage.IsClosure, Stage.Stops, *]

/-- A loop that has its connection after a frame had it before, unless a region ends. -/
theorem Frame.link_of_resume {c : ConnectionId} (h : (f.resume r link σ).link = some c) :
    link = some c ∨ (f.resume r link σ).stage.Stops ∧ ¬f.Starts r link σ := by
  rw [f.resume_link] at h
  cases f <;> first | exact .inl h | exact .inr ⟨trivial, id⟩

end Resume

theorem Code.suspending_stops (x : Code Prog Prog) (link : Link) (σ : Store) :
    (x.turn .suspending .suspended link σ).stage.Stops := by
  cases x with
  | ret p => trivial
  | panic m => trivial
  | _ => trivial

namespace Session

variable {cs : List Choice} {c : ConnectionId} {fs₀ : List Frame} {later : List Moment} {x : Choice}
  {m : Moment}

/-- The closures that were started under the connection `c` are those of frames among `fs₀`, and after
the first that is not the transformation of a value there are no more. A loop under `c` will be stopped,
or has only transformed values and has what is left of the frames on its stack. -/
structure Unwinding (c : ConnectionId) (fs₀ : List Frame) (later : List Moment) (S : Session) : Prop where
  among : (starters c later).Sublist fs₀
  ends : ∃ maps last, starters c later = maps ++ last ∧ (∀ f ∈ maps, f.Transforms) ∧ last.length ≤ 1
  goesOn : ∀ s l, S.Has s l → l.link = some c →
    s.Stops ∨ (∀ f ∈ starters c later, f.Transforms) ∧ (starters c later ++ l.stack).Sublist fs₀

theorem Unwinding.begin (cs₀ : List Choice) : ∃ fs₀, (fs₀ = [] ∨ ∃ s l, (after cs₀).Has s l ∧
    l.link = some c ∧ l.stack = fs₀) ∧ Unwinding c fs₀ [] (after cs₀) := by
  have hends : ∃ maps last, starters c [] = maps ++ last ∧ (∀ f ∈ maps, f.Transforms) ∧ last.length ≤ 1 :=
    ⟨[], [], rfl, by simp, Nat.zero_le 1⟩
  by_cases hsome : ∃ s l, (after cs₀).Has s l ∧ l.link = some c
  · obtain ⟨s, l, hl, hlink⟩ := hsome
    refine ⟨l.stack, .inr ⟨s, l, hl, hlink, rfl⟩, List.nil_sublist _, hends, fun s' l' hl' hlink' => ?_⟩
    obtain ⟨-, rfl⟩ := has_unique_under hl hl' (under_of_link hl hlink) (under_of_link hl' hlink')
    exact .inr ⟨by simp [starters], List.Sublist.refl _⟩
  · exact ⟨[], .inl rfl, List.nil_sublist _, hends, fun s l hl hlink => absurd ⟨s, l, hl, hlink⟩ hsome⟩

/-- When a loop starts one more closure, its frame is on top of what is left. -/
theorem Unwinding.starts {f : Frame} (h : Unwinding c fs₀ later (after cs)) (hm : Made cs x m)
    (hf : m.starter? c = some f) : Unwinding c fs₀ (m :: later) (after (x :: cs)) := by
  obtain ⟨r, l, fs, hcall, hlink, hstack, hstarts⟩ := m.of_starter? hf
  rcases hm.how with ⟨i, -, hnone, -⟩ | ⟨place, a, rfl, ha, hsome, -⟩
  · cases hnone.symm.trans hcall
  cases hsome.symm.trans hcall
  rw [hm.before] at hstarts
  have htakes : l.Takes (after cs).store (.handing r) (f.resume r l.link (after cs).store) fs :=
    .handing r f fs hstack
  have hl : (after (.call place :: cs)).Has _ _ := .inl (work_of_takes ha htakes)
  have hunder := htakes.under.trans (under_of_link (.inl (List.mem_of_getElem? ha)) hlink)
  -- the loop was not about to be stopped
  obtain ⟨hmaps, hleft⟩ : (∀ f ∈ starters c later, f.Transforms) ∧ _ :=
    (h.goesOn _ l (.inl (List.mem_of_getElem? ha)) hlink).resolve_left id
  have hnew : starters c (m :: later) = starters c later ++ [f] := by rw [starters_cons, hf]; rfl
  have hleft' : ((starters c later ++ [f]) ++ fs).Sublist fs₀ := by
    rwa [hstack, List.append_cons] at hleft
  refine ⟨hnew ▸ (List.sublist_append_left _ fs).trans hleft', ?_, fun s' l' hl' hlink' => ?_⟩
  · exact ⟨starters c later, [f], hnew, hmaps, Nat.le_refl 1⟩
  · obtain ⟨rfl, rfl⟩ := has_unique_under hl hl' hunder (under_of_link hl' hlink')
    rcases Frame.of_starts hstarts with ⟨htransforms, hframes⟩ | hstops
    · refine .inr ⟨fun f' hf' => ?_, ?_⟩
      · rw [hnew, List.mem_append, List.mem_singleton] at hf'
        rcases hf' with hf' | rfl
        · exact hmaps f' hf'
        · exact htransforms
      · rwa [hnew, show (Turn.loop _ l fs).stack = fs by rw [Turn.loop, hframes]; rfl]
    · exact .inl hstops

/-- Whatever else happens, a loop under the connection keeps what is left of the frames. -/
theorem Unwinding.other (h : Unwinding c fs₀ later (after cs)) (hm : Made cs x m)
    (hc : (after cs).store.isCancelled (some c) = true) (hnone : m.starter? c = none) :
    Unwinding c fs₀ (m :: later) (after (x :: cs)) := by
  have hsame : starters c (m :: later) = starters c later := by
    rw [starters_cons, hnone, Option.toList_none, List.append_nil]
  refine ⟨hsame ▸ h.among, hsame ▸ h.ends, fun s l hl hlink => ?_⟩
  rw [hsame]
  have hl' : ((after cs).step x).Has s l := hl
  cases hl'.moves with
  | stays hstays => exact h.goesOn s l hstays hlink
  | begins place n link k hx hcall hs hl₀ => exact .inl (hs ▸ trivial)
  | goesOn place b r hx hcall hready hs => exact .inl (hs ▸ trivial)
  | wakes place b r hx hcall hparked hs => exact .inl (hs ▸ trivial)
  | turns place s₀ l₀ t fs hx hcall ht hs hl₀ =>
    subst hx hs hl₀
    have hl₀ : (after cs).Has s₀ l₀ := .inl (List.mem_of_getElem? hcall)
    cases ht with
    | looking n hactive =>
      -- who looks at a node was not cancelled
      rcases n.step_link l₀.id l₀.link (after cs).store with hstep | hstep
      · cases hactive.symm.trans ((hstep.symm.trans hlink) ▸ hc)
      · cases hstep.symm.trans hlink
    | handing r f fs hstack =>
      rcases Frame.link_of_resume hlink with hlink₀ | ⟨hstops, -⟩
      · have hstarts : ¬f.Starts r l₀.link (after cs).store := fun hstarts =>
          nomatch hnone.symm.trans
            (m.starter?_of_handing (hm.of_call hcall).1 hlink₀ hstack (hm.before ▸ hstarts))
        rcases Frame.of_not_starts hstarts with hframes | hstops
        · obtain ⟨hmaps, hleft⟩ := (h.goesOn _ l₀ hl₀ hlink₀).resolve_left id
          refine .inr ⟨hmaps, List.Sublist.trans ?_ hleft⟩
          rw [hstack, show (Turn.loop _ l₀ fs).stack = fs by rw [Turn.loop, hframes]; rfl]
          exact List.Sublist.append_left (List.sublist_cons_self f fs) _
        · exact .inl hstops
      · exact .inl hstops
    | delaying y => exact .inr ((h.goesOn _ l₀ hl₀ hlink).resolve_left id)
    | mapping y => exact .inr ((h.goesOn _ l₀ hl₀ hlink).resolve_left id)
    | suspending y => exact .inl (y.suspending_stops l₀.link _)

/-- **Once a connection was cancelled, the closures that start under it are those of one unwinding**: of
frames that were on the stack then, from the top, of which the last may compute a next program. -/
theorem unwinding (cs₀ : List Choice) (hc : (after cs₀).store.isCancelled (some c) = true) :
    ∃ fs₀, (fs₀ = [] ∨ ∃ s l, (after cs₀).Has s l ∧ l.link = some c ∧ l.stack = fs₀) ∧
      ∀ cs, ∃ later, (after (cs ++ cs₀)).past = later ++ (after cs₀).past ∧
        Unwinding c fs₀ later (after (cs ++ cs₀)) := by
  obtain ⟨fs₀, hfs₀, hbegin⟩ := Unwinding.begin (c := c) cs₀
  refine ⟨fs₀, hfs₀, fun cs => ?_⟩
  induction cs with
  | nil => exact ⟨[], rfl, hbegin⟩
  | cons x cs ih =>
    obtain ⟨later, hpast, h⟩ := ih
    rcases made_or (cs ++ cs₀) x with hsame | ⟨m, hm⟩
    · refine ⟨later, ?_, ?_⟩ <;> rw [List.cons_append, hsame]
      · exact hpast
      · exact h
    · refine ⟨m :: later, by rw [List.cons_append, hm.past, hpast]; rfl, ?_⟩
      cases hf : m.starter? c with
      | some f => exact h.starts hm hf
      | none => exact h.other hm ((after_grows cs₀ cs).cancelled _ hc) hf

end Session

/-! ## Interruptions -/

/-- The boundary that the step of the call completes because a connection was cancelled: that of a step
whose clean-up has ended, or of a bracket whose resource came too late. -/
def Activity.interrupts? : Activity → Option BoundaryId
  | .work (.handing (.ok _)) ⟨_, _, .endStep s :: _, _⟩ => some s
  | .deliver _ (.lateRelease g) _ => some g
  | _ => none

/-- The boundary is completed at this moment because its connection was cancelled. -/
def Moment.Interrupts (c : ConnectionId) (b : BoundaryId) (m : Moment) : Prop :=
  m.call.bind Activity.interrupts? = some b ∧ m.before.keeperLink b = some c

theorem Activity.of_interrupts? {a : Activity} {b : BoundaryId} (h : a.interrupts? = some b) :
    (∃ r l fs, a = .work (.handing r) l ∧ l.stack = .endStep b :: fs) ∨
      ∃ e r, a = .deliver e (.lateRelease b) r := by
  unfold Activity.interrupts? at h
  split at h
  · cases h
    exact .inl ⟨_, _, _, rfl, rfl⟩
  · cases h
    exact .inr ⟨_, _, rfl⟩
  · cases h

namespace Session

variable {cs : List Choice} {c : ConnectionId} {b : BoundaryId}

/-- **A boundary is completed like that only once its connection was cancelled.** -/
theorem isCancelled_of_interrupts {x : Choice} {m : Moment} (hm : Made cs x m) (h : Undisturbed c cs)
    (hinterrupts : m.Interrupts c b) : (after cs).store.isCancelled (some c) = true := by
  obtain ⟨hcall, hlink⟩ := hinterrupts
  rw [hm.before] at hlink
  rcases hm.how with ⟨i, -, hnone, -⟩ | ⟨place, a, -, ha, hsome, -⟩
  · rw [hnone] at hcall
    cases hcall
  rw [hsome, Option.bind_some] at hcall
  have hmem := List.mem_of_getElem? ha
  rcases a.of_interrupts? hcall with ⟨r, l, fs, rfl, hstack⟩ | ⟨e, r, rfl⟩
  · -- who runs the token of the step took it from the connection
    obtain ⟨st, c', hst, hc', hdrawn⟩ := drawn cs _ l (.inl hmem) b
      (List.mem_append_right _ (by simp [hstack, Frame.flying]))
    have hkeeper : (after cs).store.keeperLink b = st.link := by
      rw [Store.keeperLink, Store.step?_eq_some.1 hst]
      rfl
    cases (hkeeper.symm.trans hlink).symm.trans hc'
    by_contra hactive
    exact not_drawn h (Bool.not_eq_true _ ▸ hactive) hdrawn
  · -- there is a resource that came too late
    have hweight := (Weight.dues b 0 1 0 0).call_le_calls hmem
    have hone : (Weight.dues b 0 1 0 0).call (.deliver e (.lateRelease b) r) = 1 := by
      simp [Weight.call, Weight.dues]
    have hlate := (late_cancelled b cs).resolve_left (by unfold Weight.session; omega)
    suffices hsame : (after cs).store.bracketLink b = some c by rwa [hsame] at hlate
    unfold Store.keeperLink at hlink
    unfold Store.bracketLink Store.bracket? at hlate ⊢
    cases hx : (after cs).store.keeper? b with
    | none =>
      rw [hx] at hlink
      cases hlink
    | some x =>
      rw [hx] at hlink hlate
      cases x with
      | bracket br => exact hlink
      | _ => cases hlate

/-- A loop that goes on from a boundary that was completed by a cancellation has the connection that was
cancelled. -/
theorem interrupted {x : Choice} {m m' : Moment} {r : Result} {l : Loop} (hm : Made cs x m)
    (h : Undisturbed c cs) (hresumes : m.resumption? b = some (r, l)) (hm' : m' ∈ (after cs).past)
    (hinterrupts : m'.Interrupts c b) :
    l.link = some c ∧ (after cs).store.isCancelled (some c) = true := by
  obtain ⟨newer, older, hsplit⟩ := List.append_of_mem hm'
  obtain ⟨cs₂, x', cs₁, hcs, -, hmade⟩ := exists_made hsplit
  rw [hcs, List.append_cons] at h
  have hgrows : (after cs₁).store.Grows (after cs).store := by
    rw [hcs, List.append_cons]
    exact after_grows cs₁ (cs₂ ++ [x'])
  have hlink := hinterrupts.2
  rw [hmade.before] at hlink
  obtain ⟨y, hy, -⟩ := Option.bind_eq_some_iff.1 hlink
  refine ⟨link_of_has (hm.of_resumption hresumes).1 ?_, ?_⟩
  · rw [hgrows.keeperLink hy, hlink]
  · exact hgrows.cancelled _ (isCancelled_of_interrupts hmade h.of_append hinterrupts)

/-! ## Stops -/

section Stops

variable {cs₀ : List Choice} {m : Moment} {n : Node} {l : Loop}

/-- A step of a loop that looks at a node under a cancelled connection. -/
def Stopped (n : Node) (l : Loop) (m : Moment) : Prop :=
  m.call = some (.work (.looking n) l) ∧ m.next = (m.before, [.deliver l.id l.sink (.error .cancelled)])

/-- A loop that looks at a node under a cancelled connection is stopped. -/
theorem Made.stopped {x : Choice} (hm : Made cs x m) (hcall : m.call = some (.work (.looking n) l))
    (hc : (after cs).store.isCancelled l.link = true) : Stopped n l m := by
  rcases hm.how with ⟨i, -, hnone, -⟩ | ⟨place, a, -, -, hsome, hstep⟩
  · cases hnone.symm.trans hcall
  · cases hsome.symm.trans hcall
    refine ⟨hcall, ?_⟩
    rw [hstep, hm.before]
    exact l.step_of_cancelled hc n

/-- A loop that looks at a node under a cancelled connection stays there until it is stopped. -/
theorem waits_stopped (hl : (after cs₀).Has (.looking n) l)
    (hc : (after cs₀).store.isCancelled l.link = true) (cs : List Choice) {s : Stage} {l' : Loop}
    (hl' : (after (cs ++ cs₀)).Has s l') (hid : l'.id = l.id) : s = .looking n ∧ l' = l := by
  refine follow (P := fun _ s l' => s = .looking n ∧ l' = l) hl ⟨rfl, rfl⟩ (fun _ h => h) ?_ ?_ cs s l'
    hl' hid
  · rintro cs s l' t fs others hcall hid ⟨rfl, rfl⟩ ht
    cases ht with
    | looking n hactive => cases ((after_grows cs₀ cs).cancelled _ hc).symm.trans hactive
  · rintro S b l' r - ⟨⟨⟩, -⟩

/-- All that a loop does after it has come to a node under a cancelled connection is to be stopped. -/
theorem only_stopped (hl : (after cs₀).Has (.looking n) l)
    (hc : (after cs₀).store.isCancelled l.link = true) {newer : List Moment}
    (hpast : (after (cs ++ cs₀)).past = newer ++ (after cs₀).past) (hm : m ∈ newer) {s : Stage}
    {l' : Loop} (hcall : m.call = some (.work s l')) (hid : l'.id = l.id) : Stopped n l m := by
  obtain ⟨newer', older, hsplit⟩ := List.append_of_mem hm
  rw [hsplit, List.append_assoc, List.cons_append] at hpast
  obtain ⟨cs₂, x, cs₁, -, -, hmade⟩ := exists_of_later hpast (List.suffix_append _ _)
  rcases hmade.how with ⟨i, -, hnone, -⟩ | ⟨place, a, -, ha, hsome, -⟩
  · cases hnone.symm.trans hcall
  cases hsome.symm.trans hcall
  obtain ⟨rfl, rfl⟩ := waits_stopped hl hc cs₁ (.inl (List.mem_of_getElem? ha)) hid
  exact hmade.stopped hcall ((after_grows cs₀ cs₁).cancelled _ hc)

end Stops

/-- **Nothing new starts under a cancelled connection, and nobody catches the cancellation.** Take a
connection that no code was given. After it was cancelled
* a loop that looks at a program under it does nothing but end with the error of cancellation, so no
  thunk and no registration starts;
* the closures that its loop starts under it are those of frames that were on its stack, in their order:
  transformations of values, and then at most one closure that computes a next program;
* a loop that goes on from a boundary, or whose boundary was completed by the cancellation, is stopped
  before any of its frames receives the result. -/
theorem nothing_starts_after_cancellation (c : ConnectionId) (cs₀ cs : List Choice)
    (hundisturbed : Undisturbed c (cs ++ cs₀))
    (hcancelled : (after cs₀).store.isCancelled (some c) = true) :
    ∃ later, (after (cs ++ cs₀)).past = later ++ (after cs₀).past ∧
      (∀ m ∈ later, ∀ n l, m.call = some (.work (.looking n) l) → l.link = some c → Stopped n l m) ∧
      (∃ fs₀, (fs₀ = [] ∨ ∃ s l, (after cs₀).Has s l ∧ l.link = some c ∧ l.stack = fs₀) ∧
        (starters c later).Sublist fs₀ ∧
        ∃ maps last, starters c later = maps ++ last ∧ (∀ f ∈ maps, f.Transforms) ∧ last.length ≤ 1) ∧
      ∀ newer m older b r l, (after (cs ++ cs₀)).past = newer ++ m :: older →
        m.resumption? b = some (r, l) →
        (l.link = some c ∧ m.before.isCancelled (some c) = true ∨ ∃ m' ∈ older, m'.Interrupts c b) →
        l.link = some c ∧ ∀ m' ∈ newer, ∀ s l', m'.call = some (.work s l') → l'.id = l.id →
          Stopped (.result r) l m' := by
  obtain ⟨fs₀, hfs₀, hunwinding⟩ := unwinding cs₀ hcancelled
  obtain ⟨later, hpast, hlater⟩ := hunwinding cs
  refine ⟨later, hpast, fun m hm n l hcall hlink => ?_, ⟨fs₀, hfs₀, hlater.among, hlater.ends⟩, ?_⟩
  · obtain ⟨newer, older, hsplit⟩ := List.append_of_mem hm
    rw [hsplit, List.append_assoc, List.cons_append] at hpast
    obtain ⟨cs₂, x, cs₁, -, -, hmade⟩ := exists_of_later hpast (List.suffix_append _ _)
    exact hmade.stopped hcall (hlink ▸ (after_grows cs₀ cs₁).cancelled _ hcancelled)
  · intro newer m older b r l hsplit hresumes hwhy
    obtain ⟨cs₂, x, cs₁, hcs, rfl, hmade⟩ := exists_made hsplit
    rw [hcs] at hsplit hundisturbed
    -- either way the connection of the loop is `c`, and was cancelled before
    have hstops : l.link = some c ∧ (after cs₁).store.isCancelled (some c) = true := by
      rcases hwhy with ⟨hlink, hc⟩ | ⟨m', hm', hinterrupts⟩
      · exact ⟨hlink, hmade.before ▸ hc⟩
      · rw [List.append_cons] at hundisturbed
        exact interrupted hmade hundisturbed.of_append hresumes hm' hinterrupts
    obtain ⟨hlink, hc⟩ := hstops
    have hlooks : (after (x :: cs₁)).Has (.looking (.result r)) l := (hmade.of_resumption hresumes).2
    have hc' : (after (x :: cs₁)).store.isCancelled l.link = true :=
      hlink ▸ (after_grows cs₁ [x]).cancelled _ hc
    have hnewer : (after (cs₂ ++ x :: cs₁)).past = newer ++ (after (x :: cs₁)).past := by
      rw [hsplit, hmade.past]
    exact ⟨hlink, fun m' hm' s l' hcall hid => only_stopped hlooks hc' hnewer hm' hcall hid⟩

/-- The thunk of a delay cancels the connection of its own execution, above a transformation and a next
program, up to some step of the run. -/
def delayCancels (steps : Nat) : List Choice :=
  List.replicate steps (.call 0) ++ [.input (.run
    (.bind (.mapped (.delay (.launch (.cancel (some 0)) (.ret (.ok .unit)))) .ret 0)
      fun _ => .ret (.pure .unit)) none true)]

/-- A wait under a handler of errors is cancelled, up to some step of the cancellation. -/
def waitCancelled (steps : Nat) : List Choice :=
  List.replicate steps (.call 0) ++ .input (.run (.cancel (some 0)) none false) ::
    (List.replicate 6 (.call 0) ++ [.input (.run (.recover (.cancelable fun _ => .ret (.pure .unit))
      fun _ => .ret (.pure .unit)) none true)])

/-- After the thunk, two closures start: the transformation, and that of the next program, which is not
looked at. The handler does not get the cancellation: the loop that goes on with it is stopped. -/
theorem stops_delay_and_wait :
    (Undisturbed 0 (delayCancels 20) ∧ (after (delayCancels 8)).store.isCancelled (some 0) = true ∧
      ∃ later, (after (delayCancels 20)).past = later ++ (after (delayCancels 8)).past ∧
        (starters 0 later).length = 2 ∧ ∃ maps last, starters 0 later = maps ++ last ∧
          (∀ f ∈ maps, f.Transforms) ∧ last.length ≤ 1) ∧
      Undisturbed 0 (waitCancelled 12) ∧ (after (waitCancelled 3)).store.isCancelled (some 0) = true ∧
        ∃ m' m older l, (after (waitCancelled 12)).past = m' :: m :: older ∧
          m.resumption? 0 = some (.error .cancelled, l) ∧ l.stack.length = 1 ∧
          (∃ m'' ∈ older, m''.Interrupts 0 0) ∧ Stopped (.result (.error .cancelled)) l m' := by
  have hdelay : Undisturbed 0 (delayCancels 20) := by decide +kernel
  have hwait : Undisturbed 0 (waitCancelled 12) := by decide +kernel
  have hdelay' : (after (delayCancels 8)).store.isCancelled (some 0) = true := by decide +kernel
  have hwait' : (after (waitCancelled 3)).store.isCancelled (some 0) = true := by decide +kernel
  obtain ⟨later, hpast, -, ⟨fs₀, -, -, hends⟩, -⟩ :=
    nothing_starts_after_cancellation 0 (delayCancels 8) (List.replicate 12 (.call 0)) hdelay hdelay'
  obtain ⟨-, -, -, -, hresumes⟩ :=
    nothing_starts_after_cancellation 0 (waitCancelled 3) (List.replicate 9 (.call 0)) hwait hwait'
  have hlength : (starters 0 (after (List.replicate 12 (.call 0) ++ delayCancels 8)).past).length = 2 := by
    decide +kernel
  have hnone : starters 0 (after (delayCancels 8)).past = [] := rfl
  refine ⟨⟨hdelay, hdelay', later, hpast, ?_, hends⟩, hwait, hwait', ?_⟩
  · rwa [hpast, starters_append, hnone, List.nil_append] at hlength
  · have hinterrupts : ∃ m ∈ (after (waitCancelled 10)).past, m.Interrupts 0 0 :=
      ⟨_, List.mem_cons_self, rfl, rfl⟩
    obtain ⟨-, hstopped⟩ := hresumes [_] _ _ 0 _ _ rfl rfl (.inr hinterrupts)
    exact ⟨_, _, _, _, rfl, rfl, rfl, hinterrupts, hstopped _ List.mem_cons_self _ _ rfl rfl⟩

end Session

end CancelableEffects
