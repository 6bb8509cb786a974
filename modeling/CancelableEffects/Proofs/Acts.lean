import CancelableEffects.Proofs.Acquisitions
import CancelableEffects.Proofs.Sequences

/-!
# Acts — what the loops of a bracket do, among the steps of others

* `Moment.act?`: the loop that acts at a moment, and its act.
* `Session.acts`: the acts of the loops of a bracket since it was opened, in order.
* **`Session.fares`**: a loop stays where it is and does not act, or goes on from a boundary, or its own
  step comes.
* `Session.Acquires`: the acquisition of a bracket is where the sequence is.
* **`Session.Acquires.next`**: so it is after each step, until the resource or the error comes to the loop.
-/

namespace CancelableEffects

/-- Whether the sink receives what the acquisition of the bracket ends with. -/
def Sink.isAcquired (g : BracketId) : Sink → Bool
  | .acquired g' => g' == g
  | _ => false

theorem Sink.isAcquired_iff {g : BracketId} {k : Sink} : k.isAcquired g = true ↔ k = .acquired g := by
  cases k <;> simp [isAcquired]

/-- The loop belongs to the bracket `g` of the execution `e`: it is that of the execution, or it acquires
the resource. -/
def Loop.Serves (e : ExecutionId) (g : BracketId) (l : Loop) : Prop := l.id = e ∨ l.sink.isAcquired g = true

instance (e : ExecutionId) (g : BracketId) (l : Loop) : Decidable (l.Serves e g) :=
  inferInstanceAs (Decidable (_ ∨ _))

/-- The call belongs to the bracket `g` of the execution `e`. -/
def Activity.Serves (e : ExecutionId) (g : BracketId) : Activity → Prop
  | .work _ l => l.Serves e g
  | .start _ _ k => k.isAcquired g = true
  | .deliver _ k _ => k.isAcquired g = true
  | .complete (.boundary b) _ => b = g
  | _ => False

namespace Moment

/-- The loop that acts at this moment, its stage, and its act. -/
def act? (m : Moment) : Option (Stage × Loop × Act) :=
  match m.call with
  | some (.work (.leaving b) _) => (m.resumption? b).map fun (r, l) => (.leaving b, l, .got b r)
  | some (.complete (.boundary b) _) => (m.resumption? b).map fun (r, l) => (.leaving b, l, .got b r)
  | some (.work s l) => if s.acts l.stack then some (s, l, .did m.before m.next.1 m.next.2.dropLast) else none
  | _ => none

/-- The acts of the loops of the bracket at this moment, but for the books of the bracket: one, or none. -/
def acts (e : ExecutionId) (g : BracketId) (m : Moment) : List Act :=
  match m.act? with
  | some (s, l, a) => if l.Serves e g ∧ s.serves g l.stack = false then [a] else []
  | none => []

end Moment

namespace Session

/-- The acts of the loops of the bracket since it was opened, in order, but for its books. -/
def acts (e : ExecutionId) (g : BracketId) (S : Session) : List Act :=
  (S.past.takeWhile fun m => m.deal g ≠ .opens).reverse.flatMap (Moment.acts e g)

variable {cs : List Choice} {c : Choice} {m : Moment} {g : BracketId} {br : Bracket} {s : Stage} {l : Loop}
  {e : ExecutionId} {r : Result} {link : Link} {fs : List Frame} {t : Turn}

theorem acts_made (hm : Made cs c m) (hg : (after cs).store.bracket? g = some br) :
    (after (c :: cs)).acts e g = (after cs).acts e g ++ m.acts e g := by
  have hdeal : m.deal g ≠ .opens := by
    obtain ⟨i, -, hcall, -⟩ | ⟨place, a, -, -, hcall, -⟩ := hm.how
    · simp [Moment.deal, hcall]
    · rw [Moment.deal, hcall, hm.before]
      intro hopens
      obtain ⟨l', acquire, use, release, -, hsize, -⟩ := Activity.of_deal_opens hopens
      exact absurd (lt_of_bracket? hg) (Nat.not_lt.2 (Nat.le_of_eq hsize))
  rw [acts, hm.past, List.takeWhile_cons_of_pos (by simpa using hdeal), List.reverse_cons, List.flatMap_append]
  simp [acts]

/-! ## One step of one loop -/

/-- Who acts takes a step of its own, or goes on from a boundary. -/
theorem Made.of_act {a : Act} (hm : Made cs c m) (h : m.act? = some (s, l, a)) :
    (∃ place, c = .call place ∧ (after cs).calls[place]? = some (.work s l) ∧ ∀ b, s ≠ .leaving b) ∨
      ∃ b r, s = .leaving b ∧ (after cs).Has (.leaving b) l ∧ (after (c :: cs)).Has (.looking (.result r)) l := by
  have hresumed : ∀ b, (m.resumption? b).map (fun (r, l) => (Stage.leaving b, l, Act.got b r)) = some (s, l, a) →
      ∃ b r, s = .leaving b ∧ (after cs).Has (.leaving b) l ∧ (after (c :: cs)).Has (.looking (.result r)) l := by
    intro b hb
    obtain ⟨⟨r, l'⟩, hr, hx⟩ := Option.map_eq_some_iff.1 hb
    cases hx
    exact ⟨b, r, rfl, hm.of_resumption hr⟩
  unfold Moment.act? at h
  split at h
  · exact .inr (hresumed _ h)
  · exact .inr (hresumed _ h)
  · rename_i s' l' hleaving hcall
    split at h <;> cases h
    obtain ⟨i, -, hnone, -⟩ | ⟨place, a', hc, ha, hsome, -⟩ := hm.how
    · cases hnone.symm.trans hcall
    · cases hsome.symm.trans hcall
      exact .inl ⟨place, hc, ha, fun b hs => hleaving b (hs ▸ rfl)⟩
  · cases h

/-- Who acts is there as a loop. -/
theorem Made.has_of_act {a : Act} (hm : Made cs c m) (h : m.act? = some (s, l, a)) : (after cs).Has s l := by
  obtain ⟨place, -, hcall, -⟩ | ⟨b, r, rfl, hl, -⟩ := hm.of_act h
  · exact .inl (List.mem_of_getElem? hcall)
  · exact hl

/-- The act of a loop that goes on from a boundary is to get the result. -/
theorem Made.act_of_resumed {b : BoundaryId} (hm : Made cs c m) (h : (after cs).Has (.leaving b) l)
    (h' : (after (c :: cs)).Has (.looking (.result r)) l) : m.act? = some (.leaving b, l, .got b r) := by
  have hresumed := hm.resumption? h h'
  obtain ⟨-, ⟨l', hcall⟩ | ⟨r', hcall⟩⟩ := m.of_resumption? hresumed <;>
    simp only [Moment.act?, hcall, hresumed, Option.map_some]

/-- **A loop stays where it is and does not act, or goes on from a boundary, or a step of its own comes.** -/
theorem fares (h : (after cs).Has s l) (hm : Made cs c m) :
    ((after (c :: cs)).Has s l ∧ (∀ s' l' a, m.act? = some (s', l', a) → l'.id ≠ l.id) ∧
        ∀ place, c = .call place → (after cs).calls[place]? = some (.work s l) → ∃ b, s = .leaving b) ∨
      (∃ b r, s = .leaving b ∧ m.act? = some (s, l, .got b r) ∧ (after (c :: cs)).Has (.looking (.result r)) l) ∨
        ∃ place, c = .call place ∧ (after cs).calls[place]? = some (.work s l) ∧ ∀ b, s ≠ .leaving b := by
  by_cases hown : ∃ place, c = .call place ∧ (after cs).calls[place]? = some (.work s l) ∧ ∀ b, s ≠ .leaving b
  · exact .inr (.inr hown)
  obtain ⟨s', h', rfl | ⟨b, r, rfl, rfl⟩⟩ := has_other h (x := c) fun place s' l' hc hcall hid => by
      obtain ⟨rfl, rfl⟩ := has_unique h (.inl (List.mem_of_getElem? hcall)) hid
      by_contra hne
      exact hown ⟨place, hc, hcall, fun b hb => hne ⟨b, hb⟩⟩
  · refine .inl ⟨h', fun s'' l' a hact hid => ?_, fun place hc hcall => by
      by_contra hne
      exact hown ⟨place, hc, hcall, fun b hb => hne ⟨b, hb⟩⟩⟩
    obtain ⟨place, hc, hcall, hs⟩ | ⟨b, r, rfl, hl, hgone⟩ := hm.of_act hact
    · obtain ⟨rfl, rfl⟩ := has_unique h (.inl (List.mem_of_getElem? hcall)) hid
      exact hown ⟨place, hc, hcall, hs⟩
    · obtain ⟨rfl, rfl⟩ := has_unique h hl hid
      cases (has_unique h' hgone rfl).1
  · exact .inr (.inl ⟨b, r, rfl, hm.act_of_resumed h h', h'⟩)

/-- The act of a loop that takes a turn, if it has one. -/
theorem act_of_takes {place : Nat} (hcall : (after cs).calls[place]? = some (.work s l))
    (ht : l.Takes (after cs).store s t fs) (hm : Made cs (.call place) m) :
    m.act? = if s.acts l.stack then some (s, l, .did (after cs).store t.store t.calls) else none := by
  obtain ⟨hsome, hnext⟩ := hm.of_call hcall
  have hstep : m.next = (t.store, t.calls ++ [.work t.stage (t.loop l fs)]) := hnext.trans ht.step
  have hs : ∀ b, s ≠ .leaving b := by
    rintro b rfl
    cases ht
  unfold Moment.act?
  rw [hsome, hstep, hm.before]
  cases s with
  | leaving b => exact absurd rfl (hs b)
  | _ => simp

/-- The acts at a moment at which a loop of the bracket takes a turn. -/
theorem acts_of_takes {place : Nat} (hcall : (after cs).calls[place]? = some (.work s l))
    (ht : l.Takes (after cs).store s t fs) (hm : Made cs (.call place) m) (hserves : l.Serves e g) :
    m.acts e g = s.shows g l.stack (after cs).store t := by
  rw [Moment.acts, act_of_takes hcall ht hm, Stage.shows, Stage.deed]
  by_cases hacts : s.acts l.stack = true
  · by_cases hbooks : s.serves g l.stack = true
    · simp [hacts, hbooks]
    · simp [hacts, hbooks, hserves]
  · simp [hacts]

/-- A loop that has come to its end does not act. -/
theorem acts_of_end {place : Nat} (hcall : (after cs).calls[place]? = some (.work (.handing r) l))
    (hstack : l.stack = []) (hm : Made cs (.call place) m) : m.acts e g = [] := by
  simp [Moment.acts, Moment.act?, (hm.of_call hcall).1, hstack, Stage.acts]

/-- Nobody of the bracket acts at a moment at which another loop does. -/
theorem acts_of_other (h : ∀ s l a, m.act? = some (s, l, a) → l.Serves e g → s.serves g l.stack = true) :
    m.acts e g = [] := by
  rw [Moment.acts]
  split
  · rename_i s l a hact
    by_cases hserves : l.Serves e g
    · simp [h s l a hact hserves]
    · simp [hserves]
  · rfl

/-! ## The acquisition -/

/-- The acquisition of the bracket is where the sequence is as this strand, which goes on with the frames
`below` after it. -/
inductive Acquires (g : BracketId) (acquire : Prog) (below : List Frame) (S : Session) : Strand → Prop
  /-- It is about to begin. -/
  | begins (h : .start (.program acquire) none (.acquired g) ∈ S.calls) :
    Acquires g acquire below S ⟨.looking (.program acquire), none, below⟩
  /-- A loop is at work. -/
  | works {s : Stage} {l : Loop} (h : S.Has s l) (hsink : l.sink = .acquired g)
    (hunder : l.link.under l.stack = none) (hs : s.Spares g) (hfs : ∀ f ∈ l.stack, f.Spares g) :
    Acquires g acquire below S ⟨s, l.link, l.stack ++ below⟩
  /-- It has ended. -/
  | ends {e : ExecutionId} {r : Result} (h : .deliver e (.acquired g) r ∈ S.calls) :
    Acquires g acquire below S ⟨.handing r, none, below⟩
  /-- Its result is on its way to the loop that opened the bracket. -/
  | comes {r : Result} (h : S.Coming g r) (hdone : 0 < S.deals g (.acquires r.isOk))
    (hheld : ∀ v, r = .ok v → S.store.held? g = some v) :
    Acquires g acquire below S ⟨.handing r, none, below⟩

variable {acquire : Prog} {use : Value → Code Prog Prog} {release : Release Prog} {below rest : List Frame}
  {y : Strand}

/-- While the loop of a bracket waits for it and nobody acquires, none of them acts. -/
theorem acts_of_waiting (hm : Made cs c m) (hl : (after cs).Has (.leaving g) l)
    (hnone : ∀ s' l', (after cs).Has s' l' → l'.sink ≠ .acquired g) : m.acts l.id g = [] := by
  refine acts_of_other fun s' l' a hact hserves => ?_
  have hl' := hm.has_of_act hact
  obtain hid | hsink := hserves
  · rw [(has_unique hl hl' hid).1]
    exact beq_self_eq_true g
  · exact absurd (Sink.isAcquired_iff.1 hsink) (hnone s' l' hl')

/-- A loop with cancellation disabled below its stack is never stopped. -/
theorem not_cancelled_of_under (h : (after cs).Has s l) (hunder : l.link.under l.stack = none) :
    (after cs).store.isCancelled l.link = false := by
  cases hlink : l.link with
  | none => rfl
  | some i =>
    have hrestore : ∀ enclosing, Frame.restore enclosing ∉ l.stack := fun enclosing hmem => by
      cases hlink.symm.trans ((fits_of_has h).link_eq_none hmem)
    rw [Link.under_of_notMem hrestore, hlink] at hunder
    cases hunder

/-- The loop that acquires takes its next step: so does the sequence. -/
theorem Acquires.next_of_works {l' : Loop} (h' : (after cs).Has s l') (hsink : l'.sink = .acquired g)
    (hunder : l'.link.under l'.stack = none) (hs : s.Spares g) (hfs : ∀ f ∈ l'.stack, f.Spares g)
    (hm : Made cs c m) (hl : (after cs).Has (.leaving g) l) (hg : (after cs).store.bracket? g = some br)
    (htoken : (after (c :: cs)).deals g (.asks true) = 0) :
    ∃ y', (after (c :: cs)).Acquires g acquire below y' ∧
      (Strand.mk s l'.link (l'.stack ++ below)).Comes (m.acts l.id g) y' := by
  have hserves : l'.Serves l.id g := .inr (Sink.isAcquired_iff.2 hsink)
  obtain ⟨hstays, hother, -⟩ | ⟨b, r, rfl, hact, hgone⟩ | ⟨place, rfl, hcall, hleaving⟩ := fares h' hm
  · refine ⟨_, .works hstays hsink hunder hs hfs, ?_⟩
    suffices hnone : m.acts l.id g = [] from hnone ▸ .here
    refine acts_of_other fun s' l'' a hact hserves' => ?_
    have hl'' := hm.has_of_act hact
    obtain hid | hsink' := hserves'
    · rw [(has_unique hl hl'' hid).1]
      exact beq_self_eq_true g
    · exact absurd (congrArg Loop.id (acquirer_unique h' hsink hl'' (Sink.isAcquired_iff.1 hsink')).2)
        (hother s' l'' a hact)
  · refine ⟨_, .works hgone hsink hunder ⟨nofun, nofun⟩ hfs, ?_⟩
    have hbooks : (Stage.leaving b).serves g l'.stack = false := beq_eq_false_iff_ne.2 fun hb => hs.1 (hb ▸ rfl)
    have hacts : m.acts l.id g = [.got b r] := by simp [Moment.acts, hact, hserves, hbooks]
    rw [hacts]
    exact (Strand.Does.gets rfl r).comes
  · obtain ⟨n, rfl, hcancelled, -⟩ | ⟨r, rfl, hstack, hstep⟩ | ⟨t, fs, ht⟩ | ⟨b, rfl⟩ :=
      l'.step_takes s (after cs).store
    · cases (not_cancelled_of_under h' hunder).symm.trans hcancelled
    · have hdue : .deliver l'.id (.acquired g) r ∈ (after (.call place :: cs)).calls := by
        have hnew : after (.call place :: cs) = _ := step_call hcall
        rw [hnew, record_calls]
        exact List.mem_append_left _ (by simp only [Activity.step, hstep, hsink, List.mem_singleton])
      have hlink : l'.link = none := by
        rw [hstack] at hunder
        exact hunder
      refine ⟨_, .ends hdue, ?_⟩
      rw [acts_of_end hcall hstack hm, hstack, hlink]
      exact .here
    · have hstack : l'.stack = l'.stack ++ [] ++ [] := by simp
      obtain ⟨above', hfs', hunder', hstage, hframes, hcomes⟩ :=
        ht.within [] hstack hs hfs (lt_of_bracket? hg) (deal_ne_of_call hcall htoken) fun r hr hnil => by
          subst hr
          cases ht with
          | handing r f fs hcons => cases hnil.symm.trans hcons
      rw [List.append_nil, List.append_nil] at hfs'
      subst hfs'
      refine ⟨_, .works (.inl (work_of_takes hcall ht)) hsink ?_ hstage hframes, ?_⟩
      · exact hunder'.trans hunder
      · rw [acts_of_takes hcall ht hm hserves]
        exact hcomes below
    · exact absurd rfl (hleaving b)

/-- **The acquisition is where the sequence is after each step**, and the loop that opened the bracket waits,
until the result comes to that. -/
theorem Acquires.next (h : (after cs).Acquires g acquire below y) (hm : Made cs c m)
    (hl : (after cs).Has (.leaving g) l) (hstack : l.stack = .use g use :: rest)
    (hg : (after cs).store.bracket? g = some br) (hlink : br.link = l.link)
    (hc : (after cs).store.isCancelled l.link = false)
    (htoken : (after (c :: cs)).deals g (.asks true) = 0) :
    (∃ y', (after (c :: cs)).Acquires g acquire below y' ∧ (after (c :: cs)).Has (.leaving g) l ∧
        y.Comes (m.acts l.id g) y') ∨
      ∃ r, (after (c :: cs)).Has (.looking (.result r)) l ∧ y = ⟨.handing r, none, below⟩ ∧
        m.acts l.id g = [] ∧ 0 < (after (c :: cs)).deals g (.acquires r.isOk) ∧
          ∀ v, r = .ok v → (after (c :: cs)).store.held? g = some v := by
  cases h with
  | begins hstart =>
    have habout : AboutAcquisition g (.start (.program acquire) none (.acquired g)) := .begins _ _
    have hwaits := waits_for_acquisition hl hstack (habout.pending hstart) hc c
    rw [acts_of_waiting hm hl fun s' l' hl' => not_acquirer hstart habout hl']
    obtain hstays | ⟨place, rfl, hcall⟩ := call_next hstart c
    · exact .inl ⟨_, .begins hstays, hwaits, .here⟩
    · have hnew : after (.call place :: cs) = _ := step_call hcall
      refine .inl ⟨_, .works (s := .looking (.program acquire))
        (l := ((after cs).store.begin none (.acquired g)).2) (.inl ?_) rfl rfl ⟨nofun, nofun⟩ nofun, hwaits,
          .here⟩
      rw [hnew]
      exact .head _
  | works h' hsink hunder hs hfs =>
    obtain ⟨y', hy', hcomes⟩ := next_of_works h' hsink hunder hs hfs hm hl hg htoken
    exact .inl ⟨y', hy', waits_for_acquisition hl hstack (acquisition_pending h' hsink) hc c, hcomes⟩
  | @ends e r hdue =>
    have habout : AboutAcquisition g (.deliver e (.acquired g) r) := .ends _ _
    have hwaits := waits_for_acquisition hl hstack (habout.pending hdue) hc c
    rw [acts_of_waiting hm hl fun s' l' hl' => not_acquirer hdue habout hl']
    obtain hstays | ⟨place, rfl, hcall⟩ := call_next hdue c
    · exact .inl ⟨_, .ends hstays, hwaits, .here⟩
    · obtain ⟨hoffered, hdone, hheld⟩ := acquired_next hg (fun _ _ => hlink ▸ hc) hcall
      exact .inl ⟨_, .comes (.offered hoffered) hdone hheld, hwaits, .here⟩
  | @comes r hcoming hdone hheld =>
    have hclaims : g ∈ l.claims := Loop.mem_claims (f := .use g use) (hstack ▸ .head _) rfl
    have hkept := held_next hl hclaims hdone hg htoken fun place r fs _ hcall =>
      nomatch (has_unique hl (.inl (List.mem_of_getElem? hcall)) rfl).1
    have hdone' := mono_deals c hdone
    rw [acts_of_waiting hm hl fun s' l' hl' => not_acquirer_of_done hdone hl']
    obtain ⟨hwaits, hcoming'⟩ | hgone := coming_next hg hl hcoming c
    · exact .inl ⟨_, .comes hcoming' hdone' fun v hv => hkept.trans (hheld v hv), hwaits, .here⟩
    · exact .inr ⟨r, hgone, rfl, rfl, hdone', fun v hv => hkept.trans (hheld v hv)⟩

end Session

end CancelableEffects
