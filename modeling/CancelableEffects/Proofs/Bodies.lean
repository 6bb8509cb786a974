import CancelableEffects.Proofs.Balance
import CancelableEffects.Proofs.Order
import CancelableEffects.Proofs.Pauses
import CancelableEffects.Proofs.Reserves

/-!
# Bodies — what runs while a permit is held

* `Session.Uses`, `Session.Unwinds`: the body of a bracket can go on, or a cancellation is ending what is in it.
* `Session.Shielded`: the body was cancelled in an uncancelable region.
* **`not_returned_of_active`**, **`Unwinds.not_returned`**: until then the bracket has not returned its permit.
* **`Ended.returned`**: at the end all permits are back.
* **`permits_bound_bodies`**: as many bodies as there are permits, and then all permits are free.
-/

namespace CancelableEffects

/-- Below some frames a loop has the connection that it has now, or that of the last region that ends there. -/
theorem Link.under_cases (link : Link) (fs : List Frame) : link.under fs = link ∨
    ∃ above enclosing below, fs = above ++ .restore enclosing :: below ∧ link.under fs = enclosing := by
  induction fs generalizing link with
  | nil => exact .inl rfl
  | cons f fs ih =>
    obtain hsame | ⟨above, enclosing, below, rfl, hunder⟩ := ih (f.under link)
    · cases f with
      | restore enclosing => exact .inr ⟨[], enclosing, fs, rfl, hsame⟩
      | _ => exact .inl hsame
    · exact .inr ⟨f :: above, enclosing, below, rfl, hunder⟩

namespace Session

variable {cs cs₀ : List Choice} {x : Choice} {s : Stage} {l : Loop} {g : BracketId} {c : ConnectionId}
  {i : SemaphoreId}

/-! ## Tokens -/

/-- A loop that uses the resource of a bracket has its connection there. -/
theorem bracketLink_of_stack (above : List Frame) {below : List Frame} (hl : (after cs).Has s l)
    (hstack : l.stack = above ++ .release g :: below) :
    (after cs).store.bracketLink g = l.link.under above := by
  have hfits := fits_of_has hl
  rw [hstack, Store.fits_append] at hfits
  obtain ⟨br, hbr, -, hlink⟩ := hfits.2.1
  rw [Store.bracketLink, hbr]
  exact hlink

theorem Claims.mem_claims (h : Claims g s l) : g ∈ l.claims := by
  obtain hrelease | ⟨f, rest, hstack, -⟩ := h
  · exact Loop.mem_claims hrelease rfl
  · exact Loop.mem_claims (f := .use g f) (hstack ▸ .head _) rfl

/-- Who claims a bracket has its token on the connection. -/
theorem Balanced.token_of_claims (h : (after cs).Balanced c) (hl : (after cs).Has s l) (hclaims : Claims g s l)
    (hlink : (after cs).store.bracketLink g = some c) (hnot : (after cs).deals g (.acquires false) = 0) :
    .bracket g ∈ (after cs).store.tokens c := by
  have hunder : ∀ f ∈ l.stack, f.bracket? = some g → l.link.under l.stack = some c := fun f hf hg => by
    obtain ⟨br, hbr, hnone | hunder⟩ := brackets_under cs s l hl f hf g hg
    · simp [Store.bracketLink, hbr, hnone] at hlink
    · rw [← hunder, ← hlink, Store.bracketLink, hbr]
      rfl
  obtain hrelease | ⟨f, rest, hstack, hs⟩ := hclaims
  · rw [h.held s l hl (hunder _ hrelease rfl)]
    refine List.mem_append_right _ (List.mem_flatMap.2 ⟨_, hrelease, ?_⟩)
    simp [Frame.kept, hlink]
  · have hmem : .use g f ∈ l.stack := hstack ▸ .head _
    rw [h.held s l hl (hunder _ hmem rfl)]
    refine List.mem_append_left _ ?_
    obtain rfl | ⟨v, rfl | rfl⟩ := hs
    · obtain ⟨br, hbr, -⟩ := brackets_under cs _ l hl _ hmem g rfl
      have hbracket : br.link = some c := by
        rw [← hlink, Store.bracketLink, hbr]
        rfl
      simp [pending, owed, hbr, hbracket, hnot]
    · simp [pending, hstack, Stage.gives, Except.isOk, Except.toBool, hlink]
    · simp [pending, hstack, Stage.gives, Except.isOk, Except.toBool, hlink]

/-- Who runs the token of a bracket uses it up. -/
theorem spent_of_asked (h : 0 < (after cs).deals g (.asks true)) : 0 < (after cs).spent g := by
  induction cs with
  | nil => cases h
  | cons x cs ih =>
    obtain hold | ⟨place, a, rfl, ha, hd⟩ := deals_cases (d := .asks true) (by decide) h
    · exact Nat.lt_of_lt_of_le (ih hold) (past_suffix_step _ x).sublist.countP_le
    · obtain ⟨l, rfl, hc⟩ := Activity.of_deal_token hd
      refine List.countP_pos_iff.2 ⟨_, ?_, Moment.spends_of_token hc⟩
      rw [show (after (.call place :: cs)).past = _ from past_call ha]
      exact .head _

/-- While the token of a bracket is on its connection, nobody has run it. -/
theorem not_asked_of_token (hlink : (after cs).store.bracketLink g = some c)
    (hmem : .bracket g ∈ (after cs).store.tokens c) : (after cs).deals g (.asks true) = 0 := by
  by_contra hne
  have hspent := spent_of_asked (Nat.pos_of_ne_zero hne)
  have hledger := token_ledger g cs
  have hhand : 0 < (after cs).store.onHand (some c) g := List.count_pos_iff.2 (List.mem_filterMap.2 ⟨_, hmem, rfl⟩)
  rw [hlink] at hledger
  simp only [tokens, hlink, Option.isSome_some, if_true] at hledger
  omega

/-! ## A body that runs -/

/-- A loop uses the resource of the bracket and can go on: it is not stopped. -/
def Uses (g : BracketId) (S : Session) : Prop :=
  ∃ s l, S.Has s l ∧ .release g ∈ l.stack ∧ (S.store.isCancelled l.link = true → ¬s.Halts)

/-- The loop that uses the resource of the bracket is in an uncancelable region, and the connection that it has
there again after the end was cancelled meanwhile. -/
def Shielded (g : BracketId) (S : Session) : Prop :=
  ∃ s l above enclosing below, S.Has s l ∧ l.stack = above ++ .restore enclosing :: below ∧
    .release g ∈ below ∧ S.store.isCancelled enclosing = true

/-- **A bracket in use has not returned its permit** while its connection is active. -/
theorem not_returned_of_active (hl : (after cs).Has s l) (huse : .release g ∈ l.stack)
    (hopened : g ∈ (after cs).openedFor i)
    (hundisturbed : ∀ c, (after cs).store.bracketLink g = some c → Undisturbed c cs)
    (hactive : (after cs).store.isCancelled ((after cs).store.bracketLink g) = false) :
    g ∉ (after cs).returnedFor i := by
  intro hreturned
  have hreleases := released_of_returned hopened hreturned
  have hacquired := releases_le g cs
  have hresources := resources g cs
  obtain hheld | htoken | hasked | hcancelled := held_or_asked g cs (by omega)
  · rw [hheld, if_pos rfl] at hresources
    omega
  · cases hlink : (after cs).store.bracketLink g with
    | none =>
      have hspent := spent_of_asked htoken
      have hledger := token_ledger g cs
      rw [hlink] at hledger
      simp only [Option.isSome_none, Bool.false_eq_true, if_false] at hledger
      omega
    | some c =>
      rw [hlink] at hactive
      have hmem := (balanced cs (hundisturbed c hlink) hactive).token_of_claims hl (.inl huse) hlink
        (not_failed hopened)
      exact Nat.ne_of_gt htoken (not_asked_of_token hlink hmem)
  · exact not_claimed_of_asked cs s l hl hasked (Loop.mem_claims huse rfl)
  · cases hactive.symm.trans hcancelled

/-- A body that runs, and is not shielded from a cancellation, has an active connection. -/
theorem Uses.active (h : (after cs).Uses g) (hwaits : CancelsWaiting cs) (hshielded : ¬(after cs).Shielded g) :
    ∃ s l, (after cs).Has s l ∧ .release g ∈ l.stack ∧
      (after cs).store.isCancelled ((after cs).store.bracketLink g) = false := by
  obtain ⟨s, l, hl, huse, hgoes⟩ := h
  refine ⟨s, l, hl, huse, Bool.eq_false_iff.2 fun hcancelled => ?_⟩
  obtain ⟨above, below, hstack⟩ := List.append_of_mem huse
  rw [bracketLink_of_stack above hl hstack] at hcancelled
  obtain hunder | ⟨above', enclosing, below', rfl, hunder⟩ := l.link.under_cases above
  · rw [hunder] at hcancelled
    exact hgoes hcancelled (halts hwaits hl hcancelled)
  · rw [hunder] at hcancelled
    refine hshielded ⟨s, l, above', enclosing, below' ++ .release g :: below, hl, ?_, ?_, hcancelled⟩
    · rw [hstack, List.append_assoc, List.cons_append]
    · exact List.mem_append_right _ (.head _)

/-! ## A body that is cleaned up -/

/-- The connection of a bracket in use was cancelled, and not all tokens are over that are newer than that of the
bracket: those of brackets and steps in its body. -/
def Unwinds (g : BracketId) (S : Session) : Prop :=
  ∃ m ∈ S.past, ∃ s l c inner outer, m.call = some (.work s l) ∧
    l.Cancels m.before c (inner ++ .bracket g :: outer) s ∧ (m.before.held? g).isSome = true ∧
      (S.finished c).length < inner.length

section Unwinds

variable {place : Nat} {s₀ : Stage} {l₀ : Loop} {inner outer : List Token}

theorem finished_le (c : ConnectionId) (cs : List Choice) (x : Choice) :
    ((after cs).finished c).length ≤ ((after (x :: cs)).finished c).length :=
  ((past_suffix_step _ x).sublist.filterMap _).length_le

/-- Who runs the token of a bracket is the only one who has it, and nobody has run it before. -/
theorem token_alone (hl : .work (.looking (.token (.bracket g))) l ∈ (after cs).calls) :
    (after cs).spent g = 0 ∧ ∀ s' l', (after cs).Has s' l' → (Weight.token g).loop l' = 0 ∧
      (s' = .looking (.token (.bracket g)) ∨ (Weight.token g).stage s' = 0) := by
  have hnode : (Weight.token g).stage (.looking (.token (.bracket g))) = 1 := by
    simp [Weight.stage, Weight.token, Token.count, Token.bracket?]
  have hle := tokens_le g cs
  have hwork := (Weight.token g).call_le_calls hl
  simp only [Weight.call, hnode] at hwork
  unfold tokens Weight.session at hle
  refine ⟨by omega, fun s' l' hl' => ?_⟩
  by_cases hid : l'.id = l.id
  · obtain ⟨rfl, rfl⟩ := has_unique (.inl hl) hl' hid
    exact ⟨by omega, .inl rfl⟩
  · have htwo := two_loops_le (Weight.token g) hl hl' hid
    rw [hnode] at htwo
    unfold Weight.session at htwo
    exact ⟨by omega, .inr (by omega)⟩

/-- **Whoever runs the token of a bracket that a cancellation took has run all newer ones.** -/
theorem finished_of_token (hcall : (after cs₀).calls[place]? = some (.work s₀ l₀))
    (hcancels : l₀.Cancels (after cs₀).store c (inner ++ .bracket g :: outer) s₀)
    (hl : .work (.looking (.token (.bracket g))) l ∈ (after (cs ++ .call place :: cs₀)).calls) :
    inner.length ≤ ((after (cs ++ .call place :: cs₀)).finished c).length := by
  have hmem : .bracket g ∈ inner ++ .bracket g :: outer := List.mem_append_right _ (.head _)
  cases clears hcall hcancels cs with
  | comes h =>
    obtain ⟨-, hs | hzero⟩ := (token_alone hl).2 _ _ h
    · cases hs
    · exact absurd hzero (Nat.ne_of_gt (Token.count_pos hmem))
  | runs s' l' above done rest t first enclosing h hid hts hstack habove hs hbegun hfinished =>
    rw [hfinished, List.length_reverse]
    by_contra hlt
    -- the token of the bracket would be among those that are still to be run
    have hrest : .bracket g ∈ rest := by
      obtain ⟨as, hinner, hrest⟩ | ⟨as, hdone, -⟩ := List.append_eq_append_iff.1 hts.symm
      · obtain _ | ⟨t', as⟩ := as
        · rw [hinner, List.append_nil] at hlt
          exact absurd (Nat.le_refl _) hlt
        · rw [(List.cons.inj hrest).2]
          exact List.mem_append_right _ (.head _)
      · rw [hdone, List.length_append] at hlt
        omega
    have hzero := ((token_alone hl).2 _ _ h).1
    rw [Weight.loop, hstack, Weight.frames_append, Weight.frames_cons] at hzero
    have hpos : 0 < (Weight.token g).frame (.sweep (some c) t rest first) := Token.count_pos hrest
    omega
  | ran hnone hbegun hfinished =>
    rw [hfinished, List.length_reverse, List.length_append]
    exact Nat.le_add_right _ _
  | stopped σ hc hpast =>
    have hspent : 0 < (after (cs ++ .call place :: cs₀)).spent g :=
      List.countP_pos_iff.2 ⟨_, hpast, Moment.spends_of_stopped hmem⟩
    exact absurd (token_alone hl).1 (Nat.ne_of_gt hspent)

theorem acquired_of_held (h : ((after cs).store.held? g).isSome = true) :
    0 < (after cs).deals g (.acquires true) := by
  rw [resources, if_pos h]
  omega

/-- What was acquired is held, or not, until somebody asks for the release. -/
theorem held_next_or_asks (hacquired : 0 < (after cs).deals g (.acquires true)) (x : Choice) :
    (after (x :: cs)).store.held? g = (after cs).store.held? g ∨ (after (x :: cs)).store.held? g = none ∧
      ∃ place a token, x = .call place ∧ (after cs).calls[place]? = some a ∧
        a.deal g (after cs).store = .asks token := by
  obtain hsame | ⟨m, hm⟩ := made_or cs x
  · exact .inl (hsame ▸ rfl)
  rw [hm.store]
  obtain ⟨j, -, -, hnext⟩ | ⟨place, a, rfl, ha, -, hnext⟩ := hm.how
  · rw [hnext, hm.before]
    exact .inl (Store.held?_of_terms_eq (j.step_terms g))
  rw [hnext, hm.before]
  obtain hopens | hacquires | ⟨⟨token, hasks⟩, hnone⟩ | hsame := a.step_held (after cs).store g
  · have hturns := a.step_turns (σ := (after cs).store) g
    rw [hopens] at hturns
    have hsome := terms_of_acquired hacquired
    rw [hturns.1] at hsome
    cases hsome
  · obtain ⟨xs, ys, hS, -⟩ := exists_of_place ha
    have hnever := (acquiring hS hacquires).1
    omega
  · exact .inr ⟨hnone, place, a, token, rfl, ha, hasks⟩
  · exact .inl hsame

/-- Nobody ends the use of a bracket whose connection was cancelled. -/
theorem not_asks_of_cancelled {a : Activity} (hwaits : CancelsWaiting cs) (ha : (after cs).calls[place]? = some a)
    (hcancelled : (after cs).store.isCancelled ((after cs).store.bracketLink g) = true) :
    a.deal g (after cs).store ≠ .asks false := by
  intro hasks
  obtain ⟨r, l, fs, br, rfl, hstack, -, -⟩ := owner_of_asks ha hasks
  have hl : (after cs).Has (.handing r) l := .inl (List.mem_of_getElem? ha)
  rw [bracketLink_of_stack [] hl hstack] at hcancelled
  exact halts hwaits hl hcancelled

/-- Once its connection was cancelled, a resource is held until its token is run. -/
theorem held_or_token (hcall : (after cs₀).calls[place]? = some (.work s₀ l₀))
    (hcancels : l₀.Cancels (after cs₀).store c (inner ++ .bracket g :: outer) s₀)
    (hheld : ((after cs₀).store.held? g).isSome = true) (hwaits : CancelsWaiting (cs ++ .call place :: cs₀)) :
    ((after (cs ++ .call place :: cs₀)).store.held? g).isSome = true ∨
      0 < (after (cs ++ .call place :: cs₀)).deals g (.asks true) := by
  have hlink : (after cs₀).store.bracketLink g = some c :=
    armed_link (hcancels.mem_armed.2 (List.mem_append_right _ (.head _)))
  have hacquired := acquired_of_held hheld
  induction cs with
  | nil =>
    refine .inl (((held_next_or_asks hacquired _).resolve_right ?_).symm ▸ hheld)
    rintro ⟨-, place', a, token, hplace, ha, hasks⟩
    cases hplace
    cases hcall.symm.trans ha
    rw [hcancels.stage] at hasks
    cases hasks
  | cons x cs ih =>
    obtain hold | hasked := ih hwaits.2
    · obtain hsame | ⟨-, place', a, token, rfl, ha, hasks⟩ := held_next_or_asks (acquired_of_held hold) x
      · exact .inl (hsame.symm ▸ hold)
      cases token with
      | true =>
        right
        rw [List.cons_append, deals_of_call ha, if_pos hasks]
        exact Nat.succ_pos _
      | false =>
        refine absurd hasks (not_asks_of_cancelled hwaits.2 ha ?_)
        obtain ⟨br, hbr, -⟩ := Option.bind_eq_some_iff.1 hlink
        have hgrows := after_grows cs₀ (cs ++ [.call place])
        rw [← List.append_cons] at hgrows
        rw [hgrows.bracketLink hbr, hlink]
        exact isCancelled_of_cancels hcall hcancels cs
    · exact .inr (mono_deals x hasked)

/-- The token is run when all newer ones are over. -/
theorem finished_of_asked (hcall : (after cs₀).calls[place]? = some (.work s₀ l₀))
    (hcancels : l₀.Cancels (after cs₀).store c (inner ++ .bracket g :: outer) s₀)
    (hasked : 0 < (after (cs ++ .call place :: cs₀)).deals g (.asks true)) :
    inner.length ≤ ((after (cs ++ .call place :: cs₀)).finished c).length := by
  induction cs with
  | nil =>
    have hspent := spent_of_asked hasked
    have hcount := count_of_cancels (g := g) hcall hcancels
    have hpos := Token.count_pos (g := g) (List.mem_append_right inner (List.Mem.head outer))
    change 0 < (after (.call place :: cs₀)).spent g at hspent
    omega
  | cons x cs ih =>
    have hle := finished_le c (cs ++ .call place :: cs₀) x
    obtain hold | ⟨place', a, rfl, ha, hd⟩ := deals_cases (d := .asks true) (by decide) hasked
    · exact Nat.le_trans (ih hold) hle
    · obtain ⟨l, rfl, -⟩ := Activity.of_deal_token hd
      exact Nat.le_trans (finished_of_token hcall hcancels (List.mem_of_getElem? ha)) hle

end Unwinds

/-- **A bracket in whose body a cancellation is at work has not returned its permit.** -/
theorem Unwinds.not_returned (h : (after cs).Unwinds g) (hwaits : CancelsWaiting cs)
    (hopened : g ∈ (after cs).openedFor i) :
    0 < (after cs).deals g (.acquires true) ∧ g ∉ (after cs).returnedFor i := by
  obtain ⟨m, hm, s, l, c, inner, outer, hcall, hcancels, hheld, hlt⟩ := h
  obtain ⟨later, earlier, hpast⟩ := List.append_of_mem hm
  obtain ⟨cs₂, x, cs₁, rfl, -, hmade⟩ := exists_made hpast
  obtain ⟨j, -, hnone, -⟩ | ⟨place, a, rfl, ha, hsome, -⟩ := hmade.how
  · cases hnone.symm.trans hcall
  cases hsome.symm.trans hcall
  rw [hmade.before] at hcancels hheld
  have hacquired := acquired_of_held hheld
  have hlater := deals_le g (.acquires true) cs₁ (cs₂ ++ [.call place])
  rw [← List.append_cons] at hlater
  refine ⟨Nat.lt_of_lt_of_le hacquired hlater, fun hreturned => ?_⟩
  have hreleases := released_of_returned hopened hreturned
  have hacquires := releases_le g (cs₂ ++ .call place :: cs₁)
  have hresources := resources g (cs₂ ++ .call place :: cs₁)
  obtain hheld' | hasked := held_or_token ha hcancels hheld hwaits
  · rw [if_pos hheld'] at hresources
    omega
  · exact absurd (finished_of_asked ha hcancels hasked) (Nat.not_le.2 hlt)

/-! ## The end -/

/-- All executions that opened brackets to hold permits have ended, no call is pending, and nobody is at work
cancelling a connection. -/
structure Ended (i : SemaphoreId) (S : Session) : Prop where
  calls : S.calls = []
  owners : ∀ g ∈ S.openedFor i, ∀ br, S.store.bracket? g = some br → ∀ s l, S.Has s l → l.id ≠ br.owner
  cancellations : ∀ s l, S.Has s l → ∀ c, ¬l.Sweeps c s

/-- A bracket under a connection that was cancelled was there before. -/
theorem bracket_before_cancelled (hcancelled : (after cs₀).store.isCancelled (some c) = true) (cs : List Choice)
    (hlink : (after (cs ++ cs₀)).store.bracketLink g = some c) : ∃ br, (after cs₀).store.bracket? g = some br := by
  induction cs with
  | nil => exact (Option.bind_eq_some_iff.1 hlink).imp fun _ h => h.1
  | cons x cs ih =>
    obtain ⟨br, hbr, hbracket⟩ := Option.bind_eq_some_iff.1 hlink
    cases hold : (after (cs ++ cs₀)).store.bracket? g with
    | some br' => exact ih (((after_grows _ [x]).bracketLink hold).symm.trans hlink)
    | none =>
      -- who opens a bracket is not cancelled
      obtain ⟨place, acquire, use, release, l, -, -, -, hc, rfl⟩ := opens_of_new hold hbr
      have hlater := (after_grows cs₀ cs).cancelled _ hcancelled
      rw [show l.link = some c from hbracket] at hc
      cases hc.symm.trans hlater

/-- The use of a resource has ended, so that it is no longer held. -/
theorem not_held_of_asked (h : 0 < (after cs).deals g (.asks false)) : (after cs).store.held? g = none := by
  induction cs with
  | nil => cases h
  | cons x cs ih =>
    obtain hold | ⟨place, a, rfl, ha, hd⟩ := deals_cases (d := .asks false) (by decide) h
    · obtain hsame | ⟨hnone, -⟩ := held_next_or_asks (acquired_of_asked hold) x
      · rw [hsame, ih hold]
      · exact hnone
    · have hturns := a.step_turns (σ := (after cs).store) g
      rw [hd] at hturns
      rw [show after (.call place :: cs) = _ from step_call ha]
      exact Store.held?_of_terms_take hturns

/-- When its connection was cancelled and no cancellation is at work, the bracket was released. -/
theorem released_of_cancelled (hwaits : CancelsWaiting cs) (hundisturbed : Undisturbed c cs)
    (hopened : g ∈ (after cs).openedFor i) (hlink : (after cs).store.bracketLink g = some c)
    (hcancelled : (after cs).store.isCancelled (some c) = true) (hasked : (after cs).deals g (.asks false) = 0)
    (hnone : ∀ s l, (after cs).Has s l → ¬l.Sweeps c s) : 0 < (after cs).deals g .releases := by
  obtain ⟨place, cs₁, cs₂, s₀, l₀, ts, rfl, hcall, hcancels⟩ := exists_cancellation hcancelled
  have hgrows := after_grows cs₁ (cs₂ ++ [.call place])
  rw [← List.append_cons] at hgrows
  obtain ⟨br, hbr⟩ : ∃ br, (after cs₁).store.bracket? g = some br := by
    obtain ⟨br, hbr⟩ := bracket_before_cancelled (isCancelled_of_cancels hcall hcancels []) cs₂ hlink
    refine Option.ne_none_iff_exists'.1 fun hold => ?_
    obtain ⟨place', acquire, use, release, l, hplace, hcall', -⟩ := opens_of_new hold hbr
    cases hplace
    cases hcall.symm.trans hcall'
    cases hcancels.stage
  have hlink₁ : (after cs₁).store.bracketLink g = some c := (hgrows.bracketLink hbr).symm.trans hlink
  have hopened₁ : g ∈ (after cs₁).openedFor i := by
    rw [List.append_cons] at hopened
    exact opened_of_lt _ hopened (lt_of_bracket? hbr)
  -- the loop that claims the bracket then has the token on the connection
  have hmem : .bracket g ∈ ts := by
    have hactive := hcancels.active
    rw [List.append_cons] at hasked hundisturbed
    obtain hcancelled₁ | hasked₁ | hfailed | ⟨s, l, hl, hclaims⟩ := claimed_or_asked cs₁ hbr
    · rw [hlink₁] at hcancelled₁
      cases hactive.symm.trans hcancelled₁
    · exact absurd (deals_eq_zero_of_later _ hasked) (Nat.ne_of_gt hasked₁)
    · exact absurd (not_failed hopened₁) (Nat.ne_of_gt hfailed)
    · have htoken := (balanced cs₁ hundisturbed.of_append hactive).token_of_claims hl hclaims hlink₁
        (not_failed hopened₁)
      exact hcancels.mem_armed.1 (List.mem_filterMap.2 ⟨_, htoken, rfl⟩)
  have hserved := all_served hcall hcancels hwaits hnone g hmem
  obtain ⟨-, ⟨-, hreleased⟩ | ⟨hfailed, -⟩⟩ := finished_of_over hserved.2
  · omega
  · exact absurd (not_failed hopened) (by omega)

/-- When no call is pending, no release is pending either. -/
theorem dues_of_no_calls {S : Session} (h : S.calls = []) : (Weight.dues g 0 0 0 1).session S = 0 := by
  rw [Weight.session, h, Weight.calls_nil, Nat.zero_add, Weight.waiting]
  refine List.sum_eq_zero_iff_forall_eq_nat.2 fun n hn => ?_
  obtain ⟨x, -, rfl⟩ := List.mem_map.1 hn
  cases x with
  | parked l =>
    rw [Weight.cell, Weight.loop, Weight.frames_dues, Nat.zero_add]
    cases l.sink <;> simp [Weight.dues]
  | _ => rfl

namespace Ended

/-- At the end all brackets that were opened to hold a permit are released. -/
theorem released (h : Ended i (after cs)) (hwaits : CancelsWaiting cs) (hopened : g ∈ (after cs).openedFor i)
    (hundisturbed : ∀ c, (after cs).store.bracketLink g = some c → Undisturbed c cs) :
    0 < (after cs).deals g .releases := by
  obtain ⟨-, br, hbr, -⟩ := of_opened hopened
  obtain hasked | hasked := Nat.eq_zero_or_pos ((after cs).deals g (.asks false))
  · obtain hcancelled | hasked' | hfailed | ⟨s, l, hl, hclaims⟩ := claimed_or_asked cs hbr
    · cases hlink : (after cs).store.bracketLink g with
      | none =>
        rw [hlink] at hcancelled
        cases hcancelled
      | some c =>
        rw [hlink] at hcancelled
        exact released_of_cancelled hwaits (hundisturbed c hlink) hopened hlink hcancelled hasked
          fun s l hl => h.cancellations s l hl c
    · exact absurd hasked (Nat.ne_of_gt hasked')
    · exact absurd (not_failed hopened) (Nat.ne_of_gt hfailed)
    · obtain ⟨br', hbr', howner⟩ := owner_of_claims hl (Claims.mem_claims hclaims)
      exact absurd howner.symm (h.owners g hopened br' hbr' s l hl)
  · -- the use has ended, and its resource is nowhere but with the release
    have hacquired := acquired_of_asked hasked
    have hresources := resources g cs
    rw [not_held_of_asked hasked, dues_of_no_calls h.calls, drops_eq_zero hwaits] at hresources
    simp only [Option.isSome_none, Bool.false_eq_true, if_false] at hresources
    omega

/-- **At the end all permits are back.** -/
theorem returned (h : Ended i (after cs)) (hwaits : CancelsWaiting cs) (hopened : g ∈ (after cs).openedFor i)
    (hundisturbed : ∀ c, (after cs).store.bracketLink g = some c → Undisturbed c cs) :
    g ∈ (after cs).returnedFor i := by
  obtain hreturned | ⟨s, l, hl, hgate⟩ :=
    returned_or_releasing hopened (h.released hwaits hopened hundisturbed)
  · exact hreturned
  cases returning cs s l hl hopened hgate with
  | returned l below hstack hreturned => exact hreturned
  | opens s l below r hstack hs hreturned => exact hreturned
  | runs s l below hlink hstack hs hnot =>
    -- who runs a release is at work
    obtain hcall | ⟨b, rfl, -⟩ := hl
    · rw [h.calls] at hcall
      cases hcall
    · obtain hs | hs := hs <;> cases hs

end Ended

/-! ## The bound -/

/-- **Permits bound the bodies that run, and come back.** A semaphore is made with `n` permits, and used only by
brackets that hold one permit each. Executions are cancelled only while they wait, and the connections of these
brackets are used only by brackets, steps and cancellations. Then never do more than `n` of the brackets have bodies
that can go on or are being cleaned up, except for a body whose execution was cancelled in an uncancelable region.
Once the executions have ended and the cancellations are over, all permits are free and nobody waits. -/
theorem permits_bound_bodies (n : Nat) (cs₀ cs : List Choice) :
    let i := (after cs₀).store.semaphores.size
    let all := cs ++ .input (.semaphore n) :: cs₀
    Reserved i (after all).past → CancelsWaiting all →
      (∀ g ∈ (after all).openedFor i, ∀ c ∈ (after all).store.bracketLink g, Undisturbed c all) →
        (∀ gs : List BracketId, gs.Nodup → (∀ g ∈ gs, g ∈ (after all).openedFor i ∧
          ((after all).Uses g ∧ ¬(after all).Shielded g ∨ (after all).Unwinds g)) → gs.length ≤ n) ∧
        (Ended i (after all) → (after all).store.semaphores[i]? = some ⟨n, []⟩) := by
  intro i all hreserved hwaits hundisturbed
  have hserves : (after all).Serves i n := serves n cs₀ cs
  have hwakes : (after all).Wakes i n := wakes n cs₀ cs
  refine ⟨fun gs hnodup hgs => ?_, fun hended =>
    all_returned hserves hwakes hreserved fun g hg => hended.returned hwaits hg (hundisturbed g hg)⟩
  refine Nat.le_of_add_right_le (holders_le hserves hwakes hreserved hnodup fun g hg => ?_)
  obtain ⟨hopened, ⟨huses, hshielded⟩ | hunwinds⟩ := hgs g hg
  · obtain ⟨s, l, hl, huse, hactive⟩ := huses.active hwaits hshielded
    exact ⟨hopened, (acquired all s l hl).1 g huse,
      not_returned_of_active hl huse hopened (hundisturbed g hopened) hactive⟩
  · exact ⟨hopened, hunwinds.not_returned hwaits hopened⟩

/-- Of two executions that use the only permit one waits in its body, and the other for the permit. -/
def onePermit : List Choice :=
  List.replicate 8 (.call 0) ++ .input (.run (.withPermit 0 .never) none true) ::
    (List.replicate 24 (.call 0) ++ [.input (.run (.withPermit 0 .never) none true)])

/-- Then first the one that waits for the permit is cancelled, and then the other. -/
def bothCancelled : List Choice :=
  List.replicate 62 (.call 0) ++ .input (.run (.cancel (some 0)) none false) ::
    (List.replicate 8 (.call 0) ++ .input (.run (.cancel (some 1)) none false) :: onePermit)

/-- No loop waits at the boundary. -/
def isVacant : Boundary → Bool
  | .parked _ => false
  | _ => true

theorem onePermit_bounds_and_returns :
    ¬((after (onePermit ++ .input (.semaphore 1) :: [])).Uses 3 ∧
        ¬(after (onePermit ++ .input (.semaphore 1) :: [])).Shielded 3) ∧
      (after (bothCancelled ++ .input (.semaphore 1) :: [])).store.semaphores[0]? = some ⟨1, []⟩ := by
  constructor
  · intro hsecond
    have hfirst : (after (onePermit ++ .input (.semaphore 1) :: [])).Uses 0 :=
      ⟨.leaving 2, ⟨0, some 0, [.release 0], .observer 0⟩, .inr ⟨2, rfl, rfl⟩, .head _, by rintro ⟨⟩⟩
    have hactive : ∀ k ∈ (after (onePermit ++ .input (.semaphore 1) :: [])).store.connections,
        k.isCancelled = false := by
      decide +kernel
    have hnot : ¬(after (onePermit ++ .input (.semaphore 1) :: [])).Shielded 0 := by
      rintro ⟨s, l, above, _ | c, below, -, -, -, hc⟩
      · cases hc
      cases hk : (after (onePermit ++ .input (.semaphore 1) :: [])).store.connections[c]? with
      | none => simp [Store.isCancelled, hk] at hc
      | some k => simp [Store.isCancelled, hk, hactive k (Array.mem_of_getElem? hk)] at hc
    have hbound := (permits_bound_bodies 1 [] onePermit (by decide +kernel) (by decide +kernel)
      (by decide +kernel)).1 [0, 3] (by decide) fun g hg => ?_
    · exact absurd hbound (by decide)
    obtain rfl | hg := List.mem_cons.1 hg
    · exact ⟨by decide +kernel, .inl ⟨hfirst, hnot⟩⟩
    · obtain rfl := List.mem_singleton.1 hg
      exact ⟨by decide +kernel, .inl hsecond⟩
  · refine (permits_bound_bodies 1 [] bothCancelled (by decide +kernel) (by decide +kernel)
      (by decide +kernel)).2 ?_
    have hidle : (after (bothCancelled ++ .input (.semaphore 1) :: [])).store.boundaries.cells.all isVacant := by
      decide +kernel
    have hcalls : (after (bothCancelled ++ .input (.semaphore 1) :: [])).calls = [] := by
      rw [← List.isEmpty_iff]
      decide +kernel
    have hnone : ∀ s l, ¬(after (bothCancelled ++ .input (.semaphore 1) :: [])).Has s l := by
      rintro s l (hcall | ⟨b, -, hb⟩)
      · rw [hcalls] at hcall
        cases hcall
      · rw [Array.all_eq_true_iff_forall_mem] at hidle
        cases hidle _ (Array.mem_of_getElem? hb)
    exact ⟨hcalls, fun _ _ _ _ s l hl => absurd hl (hnone s l), fun s l hl => absurd hl (hnone s l)⟩

end Session

end CancelableEffects
