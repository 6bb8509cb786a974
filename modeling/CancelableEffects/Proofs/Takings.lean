import CancelableEffects.Proofs.Acquisitions
import CancelableEffects.Proofs.Endings
import CancelableEffects.Proofs.Pauses

/-!
# Takings — a release that was taken is run, or the loop that took it was stopped

* `Store.waiters`: the steps that wait at the gate of a bracket.
* **`Activity.step_waiters`**: who waits at a gate does so until the gate opens, and goes on then.
* **`Session.waits_or_goes_on`**: a step that is live at a gate waits there, or is about to go on.
* `Session.Acquiring`, `Session.ReleaseDue`, `Session.Releasing`: what the past of a bracket leaves to do.
* **`Session.releasing_or_over`**: a release that was begun is at work, or the gate is open.
* **`Session.taken_release_run`**: what becomes of a release once it was taken.
-/

namespace CancelableEffects

/-! ## Who waits at a gate -/

/-- The steps that wait at the gate of the bracket. -/
def Store.waiters (g : BracketId) (σ : Store) : List StepId :=
  match (σ.bracket? g).map Bracket.gate with
  | some (.closed ws) => ws
  | _ => []

/-- The keeper is a bracket with a closed gate at which the step waits. -/
def Keeper.Detains (s : StepId) (x : Keeper) : Prop := ∃ br ws, x = .bracket br ∧ br.gate = .closed ws ∧ s ∈ ws

/-- The edit opens no gate. -/
def Edit.KeepsGates : Edit → Prop
  | .bracket _ f => ∀ br ws, br.gate = .closed ws → ∃ ws', (f br).gate = .closed (ws ++ ws')
  | _ => True

section Waiters

variable {σ : Store} {g : BracketId} {s : StepId} {st : Step}

theorem Store.mem_waiters : s ∈ σ.waiters g ↔ ∃ x, σ.keeper? g = some x ∧ x.Detains s := by
  unfold waiters
  constructor
  · intro h
    split at h
    · rename_i ws hgate
      obtain ⟨br, hg, hws⟩ := Option.map_eq_some_iff.1 hgate
      exact ⟨_, bracket?_eq_some.1 hg, br, ws, rfl, hws, h⟩
    · cases h
  · rintro ⟨_, hg, br, ws, rfl, hws, h⟩
    rw [bracket?_eq_some.2 hg, Option.map_some, hws]
    exact h

theorem Edit.keepsGates_take {g : BracketId} : (Edit.bracket g Bracket.take).KeepsGates := by
  intro br ws hws
  refine ⟨[], ?_⟩
  rw [List.append_nil, ← hws]
  unfold Bracket.take
  split <;> rfl

theorem Edit.keepsGates_await {g : BracketId} {s : StepId} : (Edit.bracket g (Bracket.await s)).KeepsGates := by
  intro br ws hws
  simp only [Bracket.await, hws]
  exact ⟨[s], rfl⟩

/-- Such an edit detains whoever was detained before. -/
theorem Edit.KeepsGates.keeps {e : Edit} (h : e.KeepsGates) : e.Keeps fun b x => b = g ∧ x.Detains s := by
  rintro xs b x hx ⟨rfl, br, ws, rfl, hws, hs⟩
  have hsame : (Keeper.bracket br).Detains s := ⟨br, ws, rfl, hws, hs⟩
  have hmodify : ∀ (b' : BoundaryId) (f : Keeper → Keeper), (b' = b → (f (.bracket br)).Detains s) →
      ∃ x', (xs.modify b' f)[b]? = some x' ∧ b = b ∧ x'.Detains s := fun b' f hf =>
    getElem?_modify (P := fun b x => b = b ∧ x.Detains s) hx ⟨rfl, hsame⟩ fun hb => ⟨rfl, hf hb⟩
  cases e with
  | opens y =>
    obtain ⟨hlt, hx⟩ := Array.getElem?_eq_some_iff.1 hx
    exact ⟨_, Array.getElem?_push_lt hlt, rfl, hx ▸ hsame⟩
  | bracket g' f =>
    obtain ⟨ws', hf⟩ := h br ws hws
    exact hmodify _ _ fun _ => ⟨_, _, rfl, hf, List.mem_append_left _ hs⟩
  | value k side v => cases side <;> exact hmodify _ _ fun _ => hsame
  | _ => exact hmodify _ _ fun _ => hsame

/-- Who waits at a gate that opens goes on. -/
theorem Store.waiters_openGate (g' : BracketId) (h : s ∈ σ.waiters g) :
    s ∈ (σ.openGate g').1.waiters g ∨ .complete (.step s (.gate g)) (.ok .unit) ∈ (σ.openGate g').2 := by
  by_cases hg : g' = g
  · subst hg
    exact .inr (List.mem_map_of_mem h)
  · left
    unfold waiters openGate at *
    rwa [bracket?_modifyBracket, if_neg hg]

/-- **Who waits at a gate does so until it opens, and goes on then.** -/
theorem Activity.step_waiters (a : Activity) (h : s ∈ σ.waiters g) :
    s ∈ (a.step σ).1.waiters g ∨ .complete (.step s (.gate g)) (.ok .unit) ∈ (a.step σ).2 := by
  by_cases hkeeps : ∀ ed ∈ a.edits σ, ed.KeepsGates
  · obtain ⟨x, hx, hs⟩ := Store.mem_waiters.1 h
    obtain ⟨x', hx', -, hs'⟩ := (a.step_does σ).keeps (P := fun b x => b = g ∧ x.Detains s)
      (fun ed hed => (hkeeps ed hed).keeps) hx ⟨rfl, hs⟩
    exact .inl (Store.mem_waiters.2 ⟨x', hx', hs'⟩)
  -- a gate opens at the end of a release, and of an acquisition that failed
  obtain ⟨ed, hed, hopens⟩ : ∃ ed ∈ a.edits σ, ¬ed.KeepsGates := by simpa using hkeeps
  cases a.makes_of_edits hed with
  | @released g' v l fs hl =>
    obtain ⟨e, link, stack, k⟩ := l
    cases hl
    exact (Store.waiters_openGate g' h).imp_right (List.mem_append_left _)
  | @refused g' br e x hg =>
    have hdropped : s ∈ (σ.dropToken br.link).waiters g := h
    change _ ∈ (σ.endAcquire g' (.error x)).1.waiters g ∨ _ ∈ (σ.endAcquire g' (.error x)).2
    rw [Store.endAcquire_error hg]
    exact (Store.waiters_openGate g' hdropped).imp_right (List.mem_append_left _)
  | acquired e v hg => exact absurd (fun br ws hws => ⟨[], by simpa using hws⟩) hopens
  | takes | releases | acquiredLate => exact absurd Edit.keepsGates_take hopens
  | awaits => exact absurd Edit.keepsGates_await hopens
  | _ => exact absurd trivial hopens

/-- No program opens a step that waits at a gate. -/
theorem Prog.opens_no_gate {p : Prog} {e : ExecutionId} {link : Link} (h : p.opens e link σ = some (.step st)) :
    st.source ≠ .gate g := by
  cases p <;> simp only [Prog.opens, Option.some.injEq, Keeper.step.injEq, reduceCtorEq] at h <;>
    subst h <;> simp

/-- Only who comes to a gate opens a step that waits there. -/
theorem Node.of_gate {n : Node} {e : ExecutionId} {link : Link} (hc : σ.isCancelled link = false)
    (hs : (n.step e link σ).store.step? σ.boundaries.size = some st) (hsource : st.source = .gate g) :
    n = .gate g := by
  rcases Node.of_keeper hc (Store.step?_eq_some.1 hs) with ⟨p, -, hopens⟩ | ⟨g', rfl, hst⟩
  · exact absurd hsource (Prog.opens_no_gate hopens)
  · cases hst
    cases hsource
    rfl

/-- Who comes to a gate waits there, or goes on at once. -/
theorem Store.waiters_awaitGate (g : BracketId) (link : Link) (σ : Store) :
    σ.boundaries.size ∈ (σ.awaitGate g link).store.waiters g ∨
      .complete (.step σ.boundaries.size (.gate g)) (.ok .unit) ∈ (σ.awaitGate g link).calls := by
  unfold awaitGate wait
  generalize σ.openStep (.gate g) link = opened
  obtain ⟨σ', pushed⟩ := opened
  have hgoes : ∀ ws, (∀ ws, (σ'.bracket? g).map Bracket.gate ≠ some (.closed ws)) →
      .complete (.step σ.boundaries.size (.gate g)) (.ok .unit) ∈ pushed ++ (match (σ'.bracket? g).map Bracket.gate with
        | some (.closed _) => []
        | _ => completeSteps (.gate g) [σ.boundaries.size]) ++ ws := fun ws hopen => by
    refine List.mem_append_left _ (List.mem_append_right _ ?_)
    split
    · rename_i ws' hclosed
      exact absurd hclosed (hopen ws')
    · exact .head _
  by_cases hclosed : ∃ ws, (σ'.bracket? g).map Bracket.gate = some (.closed ws)
  · obtain ⟨ws, hws⟩ := hclosed
    obtain ⟨br, hg, hgate⟩ := Option.map_eq_some_iff.1 hws
    left
    simp [waiters, bracket?_modifyBracket, hg, Bracket.await, hgate]
  · exact .inr (hgoes _ (not_exists.1 hclosed))

end Waiters

namespace Session

variable {cs : List Choice} {x : Choice} {g : BracketId} {s : StepId} {st : Step}

/-- **A step that is live at a gate waits there, or is about to go on.** -/
theorem waits_or_goes_on (cs : List Choice) : ∀ s st, (after cs).store.step? s = some st → st.source = .gate g →
    st.live = true → s ∈ (after cs).store.waiters g ∨ .complete (.step s (.gate g)) (.ok .unit) ∈ (after cs).calls := by
  refine invariant (P := fun S => ∀ s st, S.store.step? s = some st → st.source = .gate g → st.live = true →
    s ∈ S.store.waiters g ∨ .complete (.step s (.gate g)) (.ok .unit) ∈ S.calls) ?_ ?_ ?_ cs
  · intro s st hs
    simp [Store.step?, Store.keeper?] at hs
  · intro cs i ih s st hs hsource hlive
    rw [record_store, i.step_step?] at hs
    obtain hwaits | hgoes := ih s st hs hsource hlive
    · left
      obtain ⟨x, hx, hdetains⟩ := Store.mem_waiters.1 hwaits
      exact Store.mem_waiters.2 ⟨x, ((i.step_does (after cs).store).keeper? g).trans hx, hdetains⟩
    · exact .inr (List.mem_append_right _ hgoes)
  · intro cs a xs ys hS ih s st' hs' hsource hlive
    rw [record_store] at hs'
    cases hs : (after cs).store.step? s with
    | none =>
      obtain ⟨n, l, rfl, hc, rfl, -, hkeeper⟩ := Activity.of_new_keeper
        (Array.getElem?_eq_none (Nat.le_of_eq ((after cs).store.boundaries.aligned.trans
          (Activity.step_new hs hs').1.symm))) (Store.step?_eq_some.1 hs')
      obtain rfl := Node.of_gate hc (Store.step?_eq_some.2 hkeeper) hsource
      rw [record_store, record_calls, Activity.step, l.step_of_not_cancelled hc]
      refine (Store.waiters_awaitGate g l.link (after cs).store).imp_right fun hgoes => ?_
      exact List.mem_append_left _ (List.mem_append_left _ hgoes)
    | some st =>
      obtain ⟨st'', hst'', hsteps⟩ := a.step_steps hs
      cases hs'.symm.trans hst''
      obtain ⟨hsource', hlive', hending⟩ : st.source = .gate g ∧ st.live = true ∧
          ∀ r, a ≠ .complete (.step s (.gate g)) r := by
        cases hsteps with
        | stays hending hst =>
          subst hst
          refine ⟨hsource, hlive, fun r ha => ?_⟩
          subst ha
          simp [Activity.ending?, Store.completesStep, hs, hsource, hlive] at hending
        | runs l ha hc hst =>
          subst hst ha
          exact ⟨hsource, hlive, fun r ha => by cases ha⟩
        | fills c ha hslot hst =>
          subst hst ha
          exact ⟨hsource, hlive, fun r ha => by cases ha⟩
        | ends r hending hl hst =>
          subst hst
          cases hlive
      obtain hwaits | hgoes := ih s st hs hsource' hlive'
      · exact (a.step_waiters hwaits).imp_right fun hgoes => List.mem_append_left _ hgoes
      · right
        rw [hS] at hgoes
        refine List.mem_append_right _ ?_
        obtain hgoes | hgoes := List.mem_append.1 hgoes
        · exact List.mem_append_left _ hgoes
        · obtain rfl | hgoes := List.mem_cons.1 hgoes
          · exact absurd rfl (hending _)
          · exact List.mem_append_right _ hgoes

/-! ## What the past of a bracket leaves to do -/

/-- The resource of the bracket is being acquired: the acquisition is about to begin or to end, or a loop is at
work on it. -/
def Acquiring (g : BracketId) (S : Session) : Prop :=
  (∃ a ∈ S.calls, AboutAcquisition g a) ∨ ∃ s l, S.Has s l ∧ l.sink = .acquired g

/-- The release of the bracket was taken and is about to begin, in a loop or as an execution of its own. -/
def ReleaseDue (g : BracketId) (S : Session) : Prop :=
  ∃ v x, (∃ l, .work (.looking (.release g v x)) l ∈ S.calls) ∨
    ∃ link k, .start (.release g v x) link k ∈ S.calls

/-- A loop runs the release of the bracket, and opens the gate then, whatever the release ends with. -/
inductive Releasing (g : BracketId) (S : Session) : Prop
  | runs {s : Stage} {l : Loop} {above below : List Frame} {enclosing : Link} (hl : S.Has s l)
    (hstack : l.stack = above ++ .attempt :: .openGate g :: .restore enclosing :: below) : Releasing g S
  | ends {s : Stage} {l : Loop} {v : Value} {below : List Frame} {enclosing : Link} (hl : S.Has s l)
    (hs : s = .looking (.result (.ok v)) ∨ s = .handing (.ok v)) (hstack : l.stack = .openGate g :: .restore enclosing :: below) : Releasing g S

/-- The release of the bracket was dropped: the loop that had taken it was stopped before it began, since its
connection had been cancelled. -/
def Dropped (g : BracketId) (S : Session) : Prop :=
  ∃ m ∈ S.past, ∃ v x l, m.call = some (.work (.looking (.release g v x)) l) ∧ m.before.isCancelled l.link = true

/-- If a session weighs anything, then a call or a loop that waits. -/
theorem exists_of_weight {w : Weight} {S : Session} (h : 0 < w.session S) :
    (∃ a ∈ S.calls, 0 < w.call a) ∨ ∃ b l, S.store.boundary? b = some (.parked l) ∧ 0 < w.loop l := by
  obtain hcalls | hwaiting := Nat.add_pos_iff_pos_or_pos.1 h
  · obtain ⟨n, hn, hpos⟩ := List.sum_pos_iff_exists_pos_nat.1 hcalls
    obtain ⟨a, ha, rfl⟩ := List.mem_map.1 hn
    exact .inl ⟨a, ha, hpos⟩
  · obtain ⟨n, hn, hpos⟩ := List.sum_pos_iff_exists_pos_nat.1 hwaiting
    obtain ⟨y, hy, rfl⟩ := List.mem_map.1 hn
    obtain ⟨b, hb⟩ := Array.getElem?_of_mem (Array.mem_toList_iff.1 hy)
    cases y with
    | parked l => exact .inr ⟨b, l, hb, hpos⟩
    | _ => exact absurd hpos (Nat.lt_irrefl 0)

/-- What weighs as an acquisition is one. -/
theorem acquiring_of_weight {S : Session} (h : 0 < (acquisition g).session S) : S.Acquiring g := by
  have hsink : ∀ k, 0 < (acquisition g).sink k → k = .acquired g := by
    intro k hk
    simp only [acquisition, Weight.dues] at hk
    split at hk
    · split_ifs at hk with hg
      · rw [hg]
      · cases hk
    · split_ifs at hk <;> cases hk
    · cases hk
  have hloop : ∀ l : Loop, 0 < (acquisition g).loop l → l.sink = .acquired g := fun l hl =>
    hsink _ (by simpa [Weight.loop, acquisition] using hl)
  have hnode : ∀ n, (acquisition g).node n = 0 := fun n => by
    simp only [acquisition, Weight.dues]
    split <;> simp
  obtain ⟨a, ha, hpos⟩ | ⟨b, l, hb, hpos⟩ := exists_of_weight h
  · cases a with
    | start n link k =>
      obtain rfl := hsink k (by simpa [Weight.call, hnode] using hpos)
      exact .inl ⟨_, ha, .begins n link⟩
    | work s l =>
      have hstage : (acquisition g).stage s = 0 := by cases s <;> simp [Weight.stage, hnode]
      exact .inr ⟨s, l, .inl ha, hloop l (by simpa [Weight.call, hstage] using hpos)⟩
    | deliver e k r =>
      obtain rfl := hsink k hpos
      exact .inl ⟨_, ha, .ends e r⟩
    | complete k r =>
      exfalso
      cases k <;> simp [Weight.call, acquisition, Weight.dues] at hpos
    | _ => exact absurd hpos (Nat.lt_irrefl 0)
  · exact .inr ⟨_, l, .inr ⟨b, rfl, hb⟩, hloop l hpos⟩

/-- What weighs as a release that was taken is one. -/
theorem releaseDue_of_weight {S : Session} (h : 0 < (Weight.dues g 0 0 0 1).session S) : S.ReleaseDue g := by
  have hnode : ∀ n, 0 < (Weight.dues g 0 0 0 1).node n → ∃ v x, n = .release g v x := by
    intro n hn
    simp only [Weight.dues] at hn
    split at hn
    · split_ifs at hn with hg
      · exact ⟨_, _, by rw [hg]⟩
      · cases hn
    · cases hn
  have hsink : ∀ k, (Weight.dues g 0 0 0 1).sink k = 0 := fun k => by
    simp only [Weight.dues]
    split <;> simp
  have hloop : ∀ l : Loop, (Weight.dues g 0 0 0 1).loop l = 0 := fun l => by simp [Weight.loop, hsink]
  obtain ⟨a, ha, hpos⟩ | ⟨b, l, hb, hpos⟩ := exists_of_weight h
  · cases a with
    | start n link k =>
      obtain ⟨v, x, rfl⟩ := hnode n (by simpa [Weight.call, hsink] using hpos)
      exact ⟨v, x, .inr ⟨link, k, ha⟩⟩
    | work s l =>
      cases s with
      | looking n =>
        obtain ⟨v, x, rfl⟩ := hnode n (by simpa [Weight.call, Weight.stage, hloop] using hpos)
        exact ⟨v, x, .inl ⟨l, ha⟩⟩
      | _ => simp [Weight.call, Weight.stage, hloop] at hpos
    | deliver e k r => simp [Weight.call, hsink] at hpos
    | complete k r => cases k <;> simp [Weight.call, Weight.dues] at hpos
    | _ => exact absurd hpos (Nat.lt_irrefl 0)
  · simp [hloop] at hpos

/-- A bracket whose acquisition has ended is there. -/
theorem bracket_of_acquired {ok : Bool} (h : 0 < (after cs).deals g (.acquires ok)) :
    ∃ br, (after cs).store.bracket? g = some br := by
  have hledger := acquisitions g cs
  cases hg : (after cs).store.bracket? g with
  | some br => exact ⟨br, rfl⟩
  | none =>
    rw [Store.terms_of_none hg] at hledger
    simp only [Option.isSome_none, Bool.false_eq_true, if_false] at hledger
    cases ok <;> omega

/-- The gate of a bracket that is there opens. -/
theorem over_of_openGate {σ : Store} {br : Bracket} (hg : σ.bracket? g = some br) : (σ.openGate g).1.Over g := by
  simp [Store.Over, Store.openGate, Store.bracket?_modifyBracket, hg]

/-- **A release that is at work stays so until the gate is open.** -/
theorem Releasing.next (h : (after cs).Releasing g) (hreleased : 0 < (after cs).deals g .releases) (x : Choice) :
    (after (x :: cs)).Releasing g ∨ (after (x :: cs)).store.Over g := by
  obtain ⟨br, hg⟩ := bracket_of_acquired (Nat.lt_of_lt_of_le hreleased (releases_le g cs).1)
  cases h with
  | @runs s l above below enclosing hl hstack =>
    obtain hstays | ⟨b, r, -, hgone, -⟩ | ⟨place, rfl, hcall, hown⟩ := next_of_has hl x
    · exact .inl (.runs hstays hstack)
    · exact .inl (.runs hgone hstack)
    obtain ⟨n, -, hc⟩ | ⟨r, -, hempty⟩ | ⟨t, fs, ht, hnew⟩ := hown
    · have hmem : Frame.restore enclosing ∈ l.stack :=
        hstack ▸ List.mem_append_right above (.tail _ (.tail _ (.head _)))
      rw [(fits_of_has hl).link_eq_none hmem] at hc
      cases hc
    · simp [hstack] at hempty
    · obtain ⟨above', habove⟩ | ⟨r, rfl, rfl, rfl, rfl⟩ := ht.keeps hstack
      · exact .inl (.runs hnew habove)
      · exact .inl (.ends hnew (.inl rfl) rfl)
  | @ends s l v below enclosing hl hs hstack =>
    have hleaving : ∀ b, s ≠ .leaving b := by
      rintro b rfl
      obtain hs | hs := hs <;> cases hs
    obtain hstays | ⟨b, r, rfl, -⟩ | ⟨place, rfl, hcall, hown⟩ := next_of_has hl x
    · exact .inl (.ends hstays hs hstack)
    · exact absurd rfl (hleaving b)
    obtain ⟨n, -, hc⟩ | ⟨r, -, hempty⟩ | ⟨t, fs, ht, hnew⟩ := hown
    · have hmem : Frame.restore enclosing ∈ l.stack := hstack ▸ .tail _ (.head _)
      rw [(fits_of_has hl).link_eq_none hmem] at hc
      cases hc
    · rw [hstack] at hempty
      cases hempty
    · have hstore := store_of_takes hcall ht
      obtain rfl | rfl := hs
      · cases ht
        exact .inl (.ends hnew (.inr rfl) hstack)
      · cases ht with
        | handing r f fs hf =>
          cases hstack.symm.trans hf
          rw [hstore]
          exact .inr (over_of_openGate hg)

/-- **A release that was begun is at work, or the gate is open.** -/
theorem releasing_or_over (h : 0 < (after cs).deals g .releases) :
    (after cs).Releasing g ∨ (after cs).store.Over g := by
  induction cs with
  | nil => cases h
  | cons x cs ih =>
    obtain hold | ⟨place, a, rfl, ha, hd⟩ := deals_cases (d := .releases) (by decide) h
    · obtain hreleasing | hover := ih hold
      · exact hreleasing.next hold x
      · exact .inr (hover.grows (after_grows cs [x]))
    · obtain ⟨v, y, l, rfl, hc⟩ := Activity.of_deal_releases hd
      have hacquired : 0 < (after (.call place :: cs)).deals g (.acquires true) :=
        Nat.lt_of_lt_of_le h (releases_le g _).1
      have hbefore := deals_of_call (d := .acquires true) (g := g) ha
      rw [hd, if_neg (by simp), Nat.add_zero] at hbefore
      obtain ⟨br, hg⟩ := bracket_of_acquired (hbefore ▸ hacquired)
      have hwork := work_of_takes ha (.looking (.release g v y) hc)
      simp only [Node.step, hg] at hwork
      exact .inl (.runs (.inl hwork) (List.nil_append _).symm)

/-- An acquisition that failed has opened the gate. -/
theorem over_of_failed (h : 0 < (after cs).deals g (.acquires false)) : (after cs).store.Over g := by
  induction cs with
  | nil => cases h
  | cons x cs ih =>
    obtain hold | ⟨place, a, rfl, ha, hd⟩ := deals_cases (d := .acquires false) (by decide) h
    · exact (ih hold).grows (after_grows cs [x])
    · obtain ⟨e, r, rfl, hr⟩ := Activity.of_deal_acquires hd
      cases r with
      | ok v => cases hr
      | error e' =>
        have hstore : (after (.call place :: cs)).store = ((after cs).store.endAcquire g (.error e')).1 :=
          congrArg store (step_call ha)
        obtain ⟨br', hg'⟩ := bracket_of_acquired h
        cases hg : (after cs).store.bracket? g with
        | none =>
          rw [hstore, Store.endAcquire_of_none hg, hg] at hg'
          cases hg'
        | some br =>
          rw [hstore, Store.endAcquire_error hg]
          exact over_of_openGate hg

theorem dropped_iff : (after cs).Dropped g ↔ 0 < (after cs).deals g .drops := by
  rw [deals, List.countP_pos_iff]
  constructor
  · rintro ⟨m, hm, v, x, l, hcall, hc⟩
    exact ⟨m, hm, by simp [Moment.deal, hcall, Activity.deal, Node.deal, hc]⟩
  · rintro ⟨m, hm, hdeal⟩
    have hdeal : Moment.deal g m = .drops := of_decide_eq_true hdeal
    cases hcall : m.call with
    | none =>
      rw [Moment.deal, hcall] at hdeal
      cases hdeal
    | some a =>
      rw [Moment.deal, hcall] at hdeal
      obtain ⟨v, x, l, rfl, hc⟩ := Activity.of_deal_drops hdeal
      exact ⟨m, hm, v, x, l, hcall, hc⟩

/-- **A release that was taken is run, or the loop that took it was stopped.** Take any bracket, whatever its
programs do.
* Once its resource was acquired and is no longer there for the next who asks, its release has begun, or is about
to begin, or was dropped: by a loop that had taken it and was stopped before it began, since its connection had
been cancelled. A release that was dropped never begins; and none is dropped if no connection is cancelled while a
loop is at work under it.
* Once its release has begun, it is at work, or it has ended and the gate is open, whatever it ended with.
* A step that waits at the gate is about to go on, or waits for the acquisition, for the end of the use if the
resource is still there, or for a release that is about to begin or at work, unless that was dropped. -/
theorem taken_release_run (g : BracketId) (cs : List Choice) :
    (0 < (after cs).deals g (.acquires true) → (after cs).store.held? g = none →
      (after cs).deals g .releases = 1 ∨ (after cs).ReleaseDue g ∨ (after cs).Dropped g) ∧
    ((after cs).Dropped g → (after cs).deals g .releases = 0 ∧ ¬CancelsWaiting cs) ∧
    (0 < (after cs).deals g .releases → (after cs).Releasing g ∨ (after cs).store.Over g) ∧
    ∀ s st, (after cs).store.step? s = some st → st.source = .gate g → st.live = true →
      .complete (.step s (.gate g)) (.ok .unit) ∈ (after cs).calls ∨ (after cs).Acquiring g ∨
        (∃ v, (after cs).store.held? g = some v) ∨ (after cs).ReleaseDue g ∨ (after cs).Releasing g ∨
          (after cs).Dropped g := by
  have hresources := resources g cs
  have hle := releases_le g cs
  have htaken : 0 < (after cs).deals g (.acquires true) → (after cs).store.held? g = none →
      (after cs).deals g .releases = 1 ∨ (after cs).ReleaseDue g ∨ (after cs).Dropped g := fun hacquired hheld => by
    rw [hheld] at hresources
    simp only [Option.isSome_none, Bool.false_eq_true, if_false] at hresources
    by_cases hdue : 0 < (Weight.dues g 0 0 0 1).session (after cs)
    · exact .inr (.inl (releaseDue_of_weight hdue))
    · by_cases hdropped : 0 < (after cs).deals g .drops
      · exact .inr (.inr (dropped_iff.2 hdropped))
      · exact .inl (by omega)
  refine ⟨htaken, fun hdropped => ?_, releasing_or_over, fun s st hs hsource hlive => ?_⟩
  · have hpos := dropped_iff.1 hdropped
    refine ⟨by omega, fun hwaiting => ?_⟩
    rw [drops_eq_zero hwaiting] at hpos
    cases hpos
  · obtain hwaits | hgoes := waits_or_goes_on cs s st hs hsource hlive
    · obtain ⟨_, hg, br, ws, rfl, hgate, -⟩ := Store.mem_waiters.1 hwaits
      have hg : (after cs).store.bracket? g = some br := Store.bracket?_eq_some.2 hg
      have hshut : ¬(after cs).store.Over g := fun hover => by
        obtain ⟨br', hg', hopened⟩ := Store.over_iff.1 hover
        cases hg.symm.trans hg'
        cases hgate.symm.trans hopened
      have hledger := acquisitions g cs
      rw [Store.terms_of_some hg, Option.isSome_some, if_pos rfl] at hledger
      by_cases hacquiring : 0 < (acquisition g).session (after cs)
      · exact .inr (.inl (acquiring_of_weight hacquiring))
      have hfailed : ¬0 < (after cs).deals g (.acquires false) := fun hfailed => hshut (over_of_failed hfailed)
      cases hheld : (after cs).store.held? g with
      | some v => exact .inr (.inr (.inl ⟨v, rfl⟩))
      | none =>
        have hacquired : 0 < (after cs).deals g (.acquires true) := by
          unfold acquisition at hacquiring
          omega
        obtain hreleased | hdue | hdropped := htaken hacquired hheld
        · have hreleasing := releasing_or_over (hreleased ▸ Nat.one_pos)
          exact .inr (.inr (.inr (.inr (.inl (hreleasing.resolve_right hshut)))))
        · exact .inr (.inr (.inr (.inl hdue)))
        · exact .inr (.inr (.inr (.inr (.inr hdropped))))
    · exact .inl hgoes

/-- A bracket whose use pushes a token that waits for the first callback, and cancels its own connection without
waiting for that. -/
def cancelsDuringUse : Prog :=
  .bracket .unit (fun _ => .ret (.delay (.push (some 0) (.connected fun _ _ => .ret ())
    (.launch (.cancel (some 0)) (.ret (.ok .unit)))))) (.call fun _ _ => .log "released" (.ret .unit))

/-- It is run, and when nothing more is to be done the callback comes. -/
def answeredLate : List Choice :=
  List.replicate 8 (.call 0) ++ .input (.move (.answer 0 (.ok .unit) (.ret ()))) ::
    (List.replicate 27 (.call 0) ++ [.input (.run cancelsDuringUse none true)])

set_option maxRecDepth 1024 in
/-- The end of the use takes the release and is stopped with it, and so the cancellation waits at the gate for a
release that nobody will ever run. -/
theorem waits_for_dropped :
    (after answeredLate).calls = [] ∧ (after answeredLate).Dropped 0 ∧
      (after answeredLate).deals 0 (.acquires true) = 1 ∧ (after answeredLate).store.held? 0 = none ∧
        ∃ st, (after answeredLate).store.step? 2 = some st ∧ st.source = .gate 0 ∧ st.live = true :=
  ⟨rfl, dropped_iff.2 (by decide +kernel), by decide +kernel, rfl, _, rfl, rfl, rfl⟩

end Session

end CancelableEffects
