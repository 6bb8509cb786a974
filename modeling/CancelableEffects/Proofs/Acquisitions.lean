import CancelableEffects.Proofs.Claims

/-!
# Acquisitions — what comes of the acquisition of a bracket

* `Session.acquirer_unique`, `Session.not_acquiring`: who acquires the resource of a bracket.
* `Store.Agreed`: the terms on which a bracket was opened.
* **`Session.waits_for_acquisition`**: meanwhile the loop that opened the bracket waits at its boundary.
* `Session.Coming`: the result of the acquisition is on its way to the boundary.
* **`Session.coming_next`**: and comes to the loop that waits there.
* **`Session.held_next`**: the resource is there until the use has ended.
-/

namespace CancelableEffects

namespace Session

variable {cs : List Choice} {c : Choice} {m : Moment} {g : BracketId} {br : Bracket} {s : Stage} {l : Loop}
  {r : Result}

/-! ## Who acquires -/

/-- What waits at two boundaries. -/
theorem two_waiting_le {σ : Store} (w : Weight) {b b' : BoundaryId} {l l' : Loop} (hne : b' ≠ b)
    (h : σ.boundary? b = some (.parked l)) (h' : σ.boundary? b' = some (.parked l')) :
    w.loop l + w.loop l' ≤ w.waiting σ := by
  have hset := w.waiting_setBoundary (x := .resumed) h
  have hle := w.loop_le_waiting ((Store.boundary?_setBoundary_ne hne).trans h' :
    (σ.setBoundary b .resumed).boundary? b' = some (.parked l'))
  have hcell : w.cell (.parked l) = w.loop l := rfl
  have hzero : w.cell .resumed = 0 := rfl
  omega

/-- What two loops weigh, wherever they are. -/
theorem two_has_le {S : Session} (w : Weight) {s' : Stage} {l' : Loop} (h : S.Has s l) (h' : S.Has s' l')
    (hid : l'.id ≠ l.id) : w.loop l + w.loop l' ≤ w.session S := by
  obtain h | ⟨b, rfl, hb⟩ := h
  · have := two_loops_le w h h' hid
    omega
  obtain h' | ⟨b', rfl, hb'⟩ := h'
  · have := two_loops_le w h' (.inr ⟨b, rfl, hb⟩) hid.symm
    omega
  · have hne : b' ≠ b := by
      rintro rfl
      cases hb.symm.trans hb'
      exact hid rfl
    exact Nat.le_add_left_of_le (two_waiting_le w hne hb hb')

/-- What a loop and a call weigh that is no loop at work. -/
theorem call_has_le {S : Session} (w : Weight) {a : Activity} (ha : a ∈ S.calls) (hwork : ∀ s l, a ≠ .work s l)
    (h : S.Has s l) : w.call a + w.loop l ≤ w.session S := by
  obtain h | ⟨b, rfl, hb⟩ := h
  · have htwo := w.two_calls_le ha h (hwork s l).symm
    have hcall : w.call (.work s l) = w.stage s + w.loop l := rfl
    exact Nat.le_add_right_of_le (by omega)
  · exact Nat.add_le_add (w.call_le_calls ha) (w.loop_le_waiting hb)

theorem loop_le_session {S : Session} (w : Weight) (h : S.Has s l) : w.loop l ≤ w.session S := by
  obtain h | ⟨b, rfl, hb⟩ := h
  · have hcall : w.stage s + w.loop l ≤ w.calls S.calls := w.call_le_calls h
    exact Nat.le_add_right_of_le (by omega)
  · exact Nat.le_add_left_of_le (w.loop_le_waiting hb)

/-- The weight of the acquisition of the bracket. -/
def acquisition (g : BracketId) : Weight := .dues g 1 0 0 0

/-- The acquisition of a bracket is under way once, or it has ended. -/
theorem acquisition_le (g : BracketId) (cs : List Choice) :
    (acquisition g).session (after cs) + (after cs).deals g (.acquires true) +
      (after cs).deals g (.acquires false) ≤ 1 := by
  have h := acquisitions g cs
  unfold acquisition
  split at h <;> omega

/-- A loop acquires the resource of the bracket. -/
theorem acquisition_loop (hsink : l.sink = .acquired g) : (acquisition g).loop l = 1 := by
  simp [acquisition, Weight.loop, Weight.dues, Weight.frames, hsink]

/-- A call that is about the acquisition of the bracket, other than a loop at work. -/
inductive AboutAcquisition (g : BracketId) : Activity → Prop
  | begins (n : Node) (link : Link) : AboutAcquisition g (.start n link (.acquired g))
  | ends (e : ExecutionId) (r : Result) : AboutAcquisition g (.deliver e (.acquired g) r)

theorem AboutAcquisition.weight {a : Activity} (h : AboutAcquisition g a) :
    1 ≤ (acquisition g).call a ∧ ∀ s l, a ≠ .work s l := by
  cases h <;> refine ⟨by simp [acquisition, Weight.call, Weight.dues], ?_⟩ <;> rintro s l ⟨⟩

/-- While such a call is pending, or a loop acquires, the acquisition is under way. -/
theorem AboutAcquisition.pending {S : Session} {a : Activity} (h : AboutAcquisition g a) (ha : a ∈ S.calls) :
    0 < (acquisition g).session S :=
  Nat.lt_of_lt_of_le h.weight.1 (Nat.le_add_right_of_le ((acquisition g).call_le_calls ha))

theorem acquisition_pending {S : Session} (h : S.Has s l) (hsink : l.sink = .acquired g) :
    0 < (acquisition g).session S := by
  have hle := loop_le_session (acquisition g) h
  rwa [acquisition_loop hsink] at hle

/-- **One loop acquires the resource of a bracket.** -/
theorem acquirer_unique {s' : Stage} {l' : Loop} (h : (after cs).Has s l) (hsink : l.sink = .acquired g)
    (h' : (after cs).Has s' l') (hsink' : l'.sink = .acquired g) : s' = s ∧ l' = l := by
  refine has_unique h h' (Classical.byContradiction fun hid => ?_)
  have htwo := two_has_le (acquisition g) h h' hid
  rw [acquisition_loop hsink, acquisition_loop hsink'] at htwo
  have hle := acquisition_le g cs
  omega

/-- No loop acquires the resource before it begins to, or when it has ended. -/
theorem not_acquirer {a : Activity} (ha : a ∈ (after cs).calls) (habout : AboutAcquisition g a)
    (h : (after cs).Has s l) : l.sink ≠ .acquired g := by
  intro hsink
  have htwo := call_has_le (acquisition g) ha habout.weight.2 h
  rw [acquisition_loop hsink] at htwo
  have hcall := habout.weight.1
  have hle := acquisition_le g cs
  omega

/-- Once the acquisition has ended, nothing of it is under way. -/
theorem not_acquiring {ok : Bool} (hdone : 0 < (after cs).deals g (.acquires ok)) :
    (acquisition g).session (after cs) = 0 := by
  have hle := acquisition_le g cs
  cases ok <;> omega

theorem not_acquirer_of_done {ok : Bool} (hdone : 0 < (after cs).deals g (.acquires ok))
    (h : (after cs).Has s l) : l.sink ≠ .acquired g := by
  intro hsink
  have hpending := acquisition_pending h hsink
  rw [not_acquiring hdone] at hpending
  exact Nat.lt_irrefl 0 hpending

/-! ## The bracket that waits -/

end Session

/-- The bracket is there, and was opened on these terms. -/
def Store.Agreed (g : BracketId) (e : ExecutionId) (link : Link) (release : Release Prog) (σ : Store) : Prop :=
  ∃ br, σ.bracket? g = some br ∧ br.owner = e ∧ br.link = link ∧ br.release = release

/-- The terms of a bracket never change. -/
theorem Deal.Turns.agreed {g : BracketId} {d : Deal} {σ σ' : Store} {e : ExecutionId} {link : Link}
    {release : Release Prog} (h : d.Turns g σ σ') (hσ : σ.Agreed g e link release) :
    σ'.Agreed g e link release := by
  obtain ⟨br, hbr, howner, hlink, hrelease⟩ := hσ
  have hterms := Store.terms_of_some hbr
  have hnew : ∃ br', σ'.terms g = some br' ∧ br'.owner = br.owner ∧ br'.link = br.link ∧
      br'.release = br.release := by
    cases d with
    | opens => cases hterms.symm.trans h.1
    | acquires ok =>
      cases ok with
      | true =>
        obtain ⟨v, hv⟩ := h _ hterms
        exact ⟨_, hv, rfl, rfl, rfl⟩
      | false => exact ⟨_, h.trans hterms, rfl, rfl, rfl⟩
    | asks token =>
      refine ⟨_, h.trans (congrArg _ hterms), ?_⟩
      unfold Bracket.take
      split <;> exact ⟨rfl, rfl, rfl⟩
    | _ => exact ⟨_, h.trans hterms, rfl, rfl, rfl⟩
  obtain ⟨br', hbr', howner', hlink', hrelease'⟩ := hnew
  obtain ⟨br'', hbr'', rfl⟩ := Option.map_eq_some_iff.1 hbr'
  exact ⟨br'', hbr'', howner'.trans howner, hlink'.trans hlink, hrelease'.trans hrelease⟩

namespace Session

variable {cs : List Choice} {c : Choice} {m : Moment} {g : BracketId} {br : Bracket} {s : Stage} {l : Loop}
  {r : Result}

/-- Whatever happens, the bracket was opened on these terms. -/
theorem agreed_next {e : ExecutionId} {link : Link} {release : Release Prog}
    (h : (after cs).store.Agreed g e link release) (c : Choice) :
    (after (c :: cs)).store.Agreed g e link release := by
  obtain hsame | ⟨m, hm⟩ := made_or cs c
  · exact hsame.symm ▸ h
  rw [hm.store]
  obtain ⟨i, -, -, hnext⟩ | ⟨place, a, -, -, -, hnext⟩ := hm.how
  · rw [hnext, hm.before]
    exact Deal.Turns.agreed (d := .nothing) (i.step_terms g) h
  · rw [hnext, hm.before]
    exact (a.step_turns g).agreed h

theorem agreed_later {cs₀ : List Choice} {e : ExecutionId} {link : Link} {release : Release Prog}
    (h : (after cs₀).store.Agreed g e link release) (cs : List Choice) :
    (after (cs ++ cs₀)).store.Agreed g e link release := by
  induction cs with
  | nil => exact h
  | cons c cs ih => exact agreed_next ih c

/-- **While the acquisition is under way, the loop that opened the bracket waits** at its boundary. -/
theorem waits_for_acquisition {f : Value → Code Prog Prog} {rest : List Frame}
    (hl : (after cs).Has (.leaving g) l) (hstack : l.stack = .use g f :: rest)
    (hpending : 0 < (acquisition g).session (after cs)) (hc : (after cs).store.isCancelled l.link = false)
    (c : Choice) : (after (c :: cs)).Has (.leaving g) l := by
  obtain hstays | ⟨r, -, hanswers⟩ := leaves hl c
  · exact hstays
  obtain hdone | ⟨-, hcancelled⟩ := acquired_of_answers hl hstack hanswers
  · rw [not_acquiring hdone] at hpending
    exact absurd hpending (Nat.lt_irrefl 0)
  · cases hc.symm.trans hcancelled

/-! ## The result of the acquisition -/

theorem not_keptOtherwise {σ : Store} {g : BracketId} {br : Bracket} (hg : σ.bracket? g = some br) :
    ¬σ.KeptOtherwise g := fun ⟨_, hy, hne⟩ =>
  hne br (Option.some.inj (hy.symm.trans (Store.bracket?_eq_some.1 hg)))

/-- A loop that comes to the boundary of a bracket has opened that. -/
theorem owner_of_leaving {g : BracketId} {l : Loop} {br : Bracket} (h : (after cs).Has (.leaving g) l)
    (hg : (after cs).store.bracket? g = some br) : br.owner = l.id := by
  obtain hkept | ⟨f, fs, hstack⟩ := stands h
  · exact absurd hkept (not_keptOtherwise hg)
  · obtain ⟨br', hbr', howner⟩ :=
      owner_of_claims h (Loop.mem_claims (hstack ▸ .head _) (f := .use g f) rfl)
    cases hg.symm.trans hbr'
    exact howner

/-- Who offers a result to the boundary of a bracket is the first to do so. -/
theorem offers_eq_nil {g : BracketId} {br : Bracket} {r : Result}
    (hg : (after cs).store.bracket? g = some br) (h : .complete (.boundary g) r ∈ (after cs).calls) :
    (after cs).offers g = [] := by
  by_contra hne
  obtain ⟨r', hr'⟩ := List.exists_mem_of_ne_nil _ hne
  obtain ⟨m, hm, hoffer⟩ := List.mem_filterMap.1 hr'
  have hdeal : m.deal g = .offers := by
    rw [Moment.offer?] at hoffer
    split at hoffer
    · obtain ⟨a, ha, hoffer⟩ := Option.bind_eq_some_iff.1 hoffer
      rw [Activity.of_offer? hoffer] at ha
      rw [Moment.deal, ha]
      exact if_pos rfl
    · cases hoffer
  have hdeals : 0 < (after cs).deals g .offers := List.countP_pos_iff.2 ⟨m, hm, by simpa using hdeal⟩
  have hweight : 1 ≤ (Weight.dues g 0 1 1 0).session (after cs) := by
    have hcall := (Weight.dues g 0 1 1 0).call_le_calls h
    rw [Weight.call_dues_complete, if_pos rfl] at hcall
    exact Nat.le_trans hcall (Nat.le_add_right _ _)
  have hacquired := acquisitions g cs
  have hle := offered_le g cs (not_keptOtherwise hg)
  split at hacquired <;> omega

/-- A boundary to which a loop comes after a result was offered is ready. -/
theorem ready_of_offers {b : BoundaryId} {l : Loop} {r : Result} (h : (after cs).Has (.leaving b) l)
    (hoffers : ((after cs).offers b).getLast? = some r) :
    (after cs).store.boundary? b = some (.ready r) := by
  have htells := tells b cs
  rw [Tells] at htells
  have hne : (after cs).offers b ≠ [] := by rintro hnil; rw [hnil] at hoffers; cases hoffers
  obtain h | ⟨b', hb, hparked⟩ := h
  · obtain hreg | ⟨r', hready⟩ := leaving_open h
    · rw [hreg] at htells
      exact absurd htells.1 hne
    · rw [hready] at htells ⊢
      rw [Option.some.inj (htells.1.symm.trans hoffers)]
  · cases hb
    rw [hparked] at htells
    exact absurd htells.1 hne

/-- The result of the acquisition is on its way to the boundary of the bracket. -/
inductive Coming (g : BracketId) (r : Result) (S : Session) : Prop
  | offered (h : .complete (.boundary g) r ∈ S.calls)
  | ready (h : S.store.boundary? g = some (.ready r))

/-- While a result is offered to the boundary of a bracket, the loop that opened that waits there. -/
theorem leaving_of_offered (hg : (after cs).store.bracket? g = some br)
    (h : .complete (.boundary g) r ∈ (after cs).calls) :
    ∃ l, (after cs).Has (.leaving g) l ∧ l.id = br.owner := by
  have htells := tells g cs
  rw [Tells, offers_eq_nil hg h] at htells
  cases hb : (after cs).store.boundary? g with
  | none =>
    have hlt := lt_of_bracket? hg
    rw [Store.boundary?, Array.getElem?_eq_none_iff] at hb
    exact absurd hlt (Nat.not_lt.2 hb)
  | some b =>
    rw [hb] at htells
    cases b with
    | registering =>
      obtain ⟨l, hl⟩ := List.length_eq_one_iff.1 htells.2.1
      have hmem : .work (.leaving g) l ∈ (after cs).calls := by
        obtain ⟨a, ha, hleaver⟩ := List.mem_filterMap.1 (hl ▸ List.mem_singleton_self l)
        exact Activity.of_leaver? hleaver ▸ ha
      exact ⟨l, .inl hmem, (owner_of_leaving (.inl hmem) hg).symm⟩
    | parked l => exact ⟨l, .inr ⟨g, rfl, hb⟩, (owner_of_leaving (.inr ⟨g, rfl, hb⟩) hg).symm⟩
    | ready r => cases htells.1
    | resumed =>
      obtain ⟨-, r, l, hr, -⟩ := htells
      cases hr

/-- The boundary of a bracket to which a result is offered: its loop comes there, or waits there. -/
theorem boundary_of_offered (hg : (after cs).store.bracket? g = some br)
    (h : .complete (.boundary g) r ∈ (after cs).calls) (hl : (after cs).Has (.leaving g) l) :
    (after cs).store.boundary? g = some .registering ∧ .work (.leaving g) l ∈ (after cs).calls ∨
      (after cs).store.boundary? g = some (.parked l) := by
  obtain hwork | ⟨b, hb, hparked⟩ := hl
  · obtain hopen | ⟨r', hready⟩ := leaving_open hwork
    · exact .inl ⟨hopen, hwork⟩
    · have htells := tells g cs
      rw [Tells, offers_eq_nil hg h, hready] at htells
      cases htells.1
  · cases hb
    exact .inr hparked

/-- A result that is offered is ready for its loop next, or the loop goes on with it. -/
theorem offered_next (hg : (after cs).store.bracket? g = some br) (hl : (after cs).Has (.leaving g) l)
    (h : .complete (.boundary g) r ∈ (after cs).calls) (c : Choice) :
    (after (c :: cs)).Has (.leaving g) l ∧ (after (c :: cs)).Coming g r ∨
      (after (c :: cs)).Has (.looking (.result r)) l := by
  obtain hstays | ⟨place, rfl, hcall⟩ := call_next h c
  · -- the loop cannot have gone on, as nothing was offered before
    obtain ⟨br', hg', -⟩ := (after_grows cs [c]).bracket g br hg
    obtain ⟨l', hl', howner'⟩ := leaving_of_offered hg' hstays
    obtain hwaits | ⟨r', hgone, -⟩ := leaves hl c
    · exact .inl ⟨hwaits, .offered hstays⟩
    · obtain ⟨br'', hbr'', howner''⟩ := (after_grows cs [c]).bracket g br hg
      cases hg'.symm.trans hbr''
      have hid : l'.id = l.id :=
        howner'.trans (howner''.owner.trans (owner_of_leaving hl hg))
      cases (has_unique hgone hl' hid).1
  have hnew : after (.call place :: cs) = _ := step_call hcall
  have hstep : (Activity.complete (.boundary g) r).step (after cs).store =
      (after cs).store.completeBoundary g r := rfl
  rw [hstep] at hnew
  obtain ⟨hb, hwork⟩ | hb := boundary_of_offered hg h hl
  · obtain hstays | ⟨place', hplace, hcall'⟩ := call_next hwork (.call place)
    · refine .inl ⟨.inl hstays, .ready ?_⟩
      rw [hnew, record_store, Store.completeBoundary, hb]
      exact Store.boundary?_setBoundary hb
    · cases hplace
      cases hcall.symm.trans hcall'
  · refine .inr (.inl ?_)
    rw [hnew, Store.completeBoundary, hb]
    exact .head _

/-- A loop goes on with the result that is ready for it. -/
theorem ready_next (hl : (after cs).Has (.leaving g) l) (h : (after cs).store.boundary? g = some (.ready r))
    (c : Choice) : (after (c :: cs)).Has (.leaving g) l ∧ (after (c :: cs)).store.boundary? g = some (.ready r) ∨
      (after (c :: cs)).Has (.looking (.result r)) l := by
  obtain hstays | ⟨r', hr', -⟩ := leaves hl c
  · refine .inl ⟨hstays, ready_of_offers hstays ?_⟩
    have htells := tells g cs
    rw [Tells, h] at htells
    obtain ⟨later, hpast⟩ := past_suffix cs [c]
    rw [offers, ← List.singleton_append, ← hpast, List.filterMap_append, List.getLast?_append]
    change (((after cs).offers g).getLast?.or _) = _
    rw [htells.1, Option.some_or]
  · refine .inr ?_
    suffices hr : r' = r from hr ▸ hr'
    change ((after cs).step c).Has _ l at hr'
    cases hr'.moves with
    | stays hstays => cases (has_unique hl hstays rfl).1
    | begins place n link k hx hcall hs hl' =>
      subst hl'
      exact absurd (lt_executions hl) (Nat.lt_irrefl _)
    | turns place s₀ l₀ t fs hx hcall ht hs hl' =>
      subst hl'
      obtain ⟨rfl, -⟩ := has_unique hl (.inl (List.mem_of_getElem? hcall)) rfl
      cases ht
    | goesOn place b r' hx hcall hready hs =>
      cases hs
      cases (has_unique hl (.inl (List.mem_of_getElem? hcall)) rfl).1
      cases hready.symm.trans h
      rfl
    | wakes place b r' hx hcall hparked hs =>
      cases (has_unique hl (.inr ⟨b, rfl, hparked⟩) rfl).1
      cases hparked.symm.trans h

/-- **The result of an acquisition comes to the loop that waits for it.** -/
theorem coming_next (hg : (after cs).store.bracket? g = some br) (hl : (after cs).Has (.leaving g) l)
    (h : (after cs).Coming g r) (c : Choice) :
    (after (c :: cs)).Has (.leaving g) l ∧ (after (c :: cs)).Coming g r ∨
      (after (c :: cs)).Has (.looking (.result r)) l := by
  cases h with
  | offered h => exact offered_next hg hl h c
  | ready h => exact (ready_next hl h c).imp_left fun ⟨hl, h⟩ => ⟨hl, .ready h⟩

/-- When the acquisition has ended, its result is offered to the boundary of the bracket, and a resource is
there. -/
theorem acquired_next {place : Nat} {e : ExecutionId} (hg : (after cs).store.bracket? g = some br)
    (hc : ∀ v, r = .ok v → (after cs).store.isCancelled br.link = false)
    (hcall : (after cs).calls[place]? = some (.deliver e (.acquired g) r)) :
    .complete (.boundary g) r ∈ (after (.call place :: cs)).calls ∧
      0 < (after (.call place :: cs)).deals g (.acquires r.isOk) ∧
      ∀ v, r = .ok v → (after (.call place :: cs)).store.held? g = some v := by
  have hnew : after (.call place :: cs) = _ := step_call hcall
  have hdeals := deals_of_call (g := g) (d := .acquires r.isOk) hcall
  have hdeal : (Activity.deliver e (.acquired g) r).deal g (after cs).store = .acquires r.isOk := if_pos rfl
  rw [if_pos hdeal] at hdeals
  have hstep : (Activity.deliver e (.acquired g) r).step (after cs).store =
      (after cs).store.endAcquire g r := rfl
  rw [hstep] at hnew
  refine ⟨?_, by omega, ?_⟩
  · rw [hnew, record_calls]
    refine List.mem_append_left _ ?_
    cases r with
    | error e' => rw [Store.endAcquire_error hg]; exact List.mem_append_right _ (.head _)
    | ok v => rw [Store.endAcquire_held hg (hc v rfl)]; exact .head _
  · rintro v rfl
    rw [hnew, record_store, Store.endAcquire_held hg (hc v rfl)]
    exact Store.held?_hold hg

/-- **The resource is there until the use has ended**, unless the token of the bracket is run. -/
theorem held_next {ok : Bool} (hl : (after cs).Has s l) (hclaims : g ∈ l.claims)
    (hdone : 0 < (after cs).deals g (.acquires ok)) (hg : (after cs).store.bracket? g = some br)
    (htoken : (after (c :: cs)).deals g (.asks true) = 0)
    (hend : ∀ place r fs, c = .call place → (after cs).calls[place]? = some (.work (.handing r) l) →
      l.stack ≠ .release g :: fs) :
    (after (c :: cs)).store.held? g = (after cs).store.held? g := by
  obtain hsame | ⟨m, hm⟩ := made_or cs c
  · rw [hsame]
  rw [hm.store]
  obtain ⟨i, -, -, hnext⟩ | ⟨place, a, rfl, ha, -, hnext⟩ := hm.how
  · rw [hnext, hm.before]
    exact Store.held?_of_terms_eq (i.step_terms g)
  rw [hnext, hm.before]
  obtain hopens | hacquires | ⟨⟨token, hasks⟩, -⟩ | hheld := a.step_held (after cs).store g
  · obtain ⟨l', acquire, use, release, -, hsize, -⟩ := Activity.of_deal_opens hopens
    exact absurd (lt_of_bracket? hg) (Nat.not_lt.2 (Nat.le_of_eq hsize))
  · obtain ⟨xs, ys, hS, -⟩ := exists_of_place ha
    obtain ⟨htrue, hfalse, -⟩ := acquiring hS hacquires
    cases ok <;> omega
  · cases token with
    | true =>
      have hdeals := deals_of_call (g := g) (d := .asks true) ha
      rw [if_pos hasks] at hdeals
      omega
    | false =>
      obtain ⟨r, fs, rfl, -, hstack⟩ := asks_of_claims hl hclaims ha hasks
      exact absurd hstack (hend place r fs rfl ha)
  · exact hheld

end Session

end CancelableEffects
