import CancelableEffects.Proofs.Cancellations

/-!
# Order — a cancellation runs the releases one after the other

* `Loop.Takes.of_release`: a loop comes to a release by the token of the bracket or at the end of its
  use.
* `Session.releasing`: who is about to run a release.
* `Session.of_token`: whoever runs a token that a cancellation took is that cancellation, and all
  tokens before it have been served.
* **`Session.releases_in_order`**: once a connection was cancelled, the release of a bracket under it
  starts when those of all brackets whose tokens were newer are over.
-/

namespace CancelableEffects

/-! ## Coming to a release -/

section Takes

variable {l : Loop} {σ : Store} {s : Stage} {t : Turn} {fs : List Frame} {g : BracketId} {v : Value}
  {x : ExitCase} {e : ExecutionId} {link : Link}

theorem Store.takeRelease_eq_release {g' : BracketId} {x' : ExitCase}
    (h : (σ.takeRelease g' x').2 = .release g v x) : g' = g ∧ x' = x := by
  simp only [Store.takeRelease] at h
  split at h
  · cases h
    exact ⟨rfl, rfl⟩
  · cases h

theorem Prog.step_stage_ne_release (p : Prog) :
    (p.step e link σ).stage ≠ .looking (.release g v x) := by
  unfold Prog.step
  split <;> (try split) <;> simp [Store.fork, Store.awaitOutcome, Store.awaitPermits,
    Store.awaitJob, Store.wait]

theorem Token.begin_release {t : Token} (h : (t.begin link σ).stage = .looking (.release g v x)) :
    t = .bracket g ∧ x = .cancelled := by
  cases t with
  | bracket g' =>
    obtain ⟨rfl, rfl⟩ := Store.takeRelease_eq_release (Stage.looking.inj h)
    exact ⟨rfl, rfl⟩
  | cleanup c =>
    cases c with
    | program i =>
      simp only [Token.begin, Cleanup.begin] at h
      split at h <;> simp at h
    | _ => simp [Token.begin, Cleanup.begin] at h
  | _ =>
    revert h
    unfold Token.begin
    dsimp only
    (try split) <;> simp

/-- A node comes to a release only as the token of the bracket. -/
theorem Node.step_release {n : Node} (h : (n.step e link σ).stage = .looking (.release g v x)) :
    n = .token (.bracket g) ∧ x = .cancelled := by
  cases n with
  | program p => exact absurd h p.step_stage_ne_release
  | token t =>
    obtain ⟨rfl, rfl⟩ := Token.begin_release h
    exact ⟨rfl, rfl⟩
  | sweep of ts => cases ts <;> simp [Node.step, Store.sweep] at h
  | release g' v' x' =>
    simp only [Node.step] at h
    split at h <;> simp at h
  | result r => simp [Node.step] at h
  | gate g' => simp [Node.step, Store.awaitGate, Store.wait] at h

/-- A frame comes to a release only at the end of the use. -/
theorem Frame.resume_release {f : Frame} {r : Result}
    (h : (f.resume r link σ).stage = .looking (.release g v x)) : f = .release g := by
  cases f with
  | release g' =>
    obtain ⟨rfl, -⟩ := Store.takeRelease_eq_release (Stage.looking.inj h)
    rfl
  | sweep of t ts first => cases ts <;> simp [Frame.resume, Store.sweep] at h
  | _ =>
    revert h
    unfold Frame.resume
    dsimp only
    repeat' split
    all_goals simp

/-- A closure comes to no release. -/
theorem Code.turn_release {α : Type} {again : Code Prog α → Stage} {done : Except String α → Stage}
    (ha : ∀ c, again c ≠ .looking (.release g v x)) (hd : ∀ o, done o ≠ .looking (.release g v x))
    (c : Code Prog α) : (c.turn again done link σ).stage ≠ .looking (.release g v x) := by
  simp only [Code.turn]
  split
  · exact hd _
  · exact ha _

/-- A loop comes to a release by the token of the bracket, or at the end of its use. -/
theorem Loop.Takes.of_release (h : l.Takes σ s t fs) (ht : t.stage = .looking (.release g v x)) :
    t.link = l.link ∧ (s = .looking (.token (.bracket g)) ∧ x = .cancelled ∨
      l.stack = .release g :: fs) := by
  cases h with
  | looking n hc =>
    obtain ⟨rfl, rfl⟩ := Node.step_release ht
    exact ⟨rfl, .inl ⟨rfl, rfl⟩⟩
  | handing r f fs hl =>
    obtain rfl := Frame.resume_release ht
    exact ⟨rfl, .inr hl⟩
  | delaying c =>
    refine absurd ht (Code.turn_release (by simp) ?_ c)
    rintro (m | r) <;> simp [Stage.delayed]
  | suspending c =>
    refine absurd ht (Code.turn_release (by simp) ?_ c)
    rintro (m | p) <;> simp [Stage.suspended]
  | mapping c =>
    refine absurd ht (Code.turn_release (by simp) ?_ c)
    rintro (m | w) <;> simp [Stage.mapped]

end Takes

namespace Session

/-- **Who is about to run a release** came to it by the token, or is the execution that opened the
bracket, under the same connection, or does it for an acquisition that ended too late. -/
theorem releasing (cs : List Choice) : ∀ s l, (after cs).Has s l → ∀ g v x,
    s = .looking (.release g v x) → 0 < (after cs).spent g ∧ x = .cancelled ∨
      (Frame.release g).Fits (after cs).store l.id l.link ∨ l.sink = .lateRelease g := by
  refine each (P := fun S s l => ∀ g v x, s = .looking (.release g v x) →
    0 < S.spent g ∧ x = .cancelled ∨ (Frame.release g).Fits S.store l.id l.link ∨
      l.sink = .lateRelease g) ?_ ?_ ?_ ?_ cs
  · intro S call next others s l hgrows h g v x hs
    obtain ⟨hspent, hx⟩ | hown | hlate := h g v x hs
    · exact .inl ⟨Nat.lt_of_lt_of_le hspent spent_le_record, hx⟩
    · exact .inr (.inl (hown.grows hgrows))
    · exact .inr (.inr hlate)
  · intro cs n link k others hstart g v x hn
    cases hn
    exact .inr (.inr ((fits cs).2 _ hstart).2.1)
  · intro cs s l t fs others hcall h ht g v x hstage
    obtain ⟨hlink, ⟨rfl, hx⟩ | hstack⟩ := ht.of_release hstage
    · exact .inl ⟨ht.spent, hx⟩
    · have hfits := ((fits cs).2 _ hcall).2
      rw [hstack, ← hlink] at hfits
      exact .inr (.inl (hfits.1.grows ht.grows))
  · intro S b l r hripe h g v x hs
    cases hs

end Session

/-! ## The tokens of a cancellation -/

/-- Where the token of a bracket is that a cancellation took and that was not used up. -/
theorem Sweeping.token {S : Session} {c : ConnectionId} {ts : List Token} {s : Stage}
    {l₀ l : Loop} {g : BracketId} (h : Sweeping S.AllServed (some c) ts l₀ s l) (htends : l.Tends S s)
    (hg : .bracket g ∈ ts) (hspent : S.spent g = 0) :
    (∃ done rest, s = .looking (.token (.bracket g)) ∧ ts = done ++ .bracket g :: rest ∧
        S.AllServed done) ∨
      s = .looking (.sweep (some c) ts) ∨ 0 < (Weight.token g).loop l := by
  have hserved : ∀ ts', S.AllServed ts' → .bracket g ∉ ts' := fun ts' h hg =>
    absurd (h g hg).1 (by omega)
  cases h with
  | takes => exact .inr (.inl rfl)
  | ends s l h => exact absurd hg (hserved ts h)
  | runs s l above done rest t first enclosing hts hstack hdone =>
    obtain hg | hg := List.mem_append.1 (hts ▸ hg)
    · exact absurd hg (hserved done hdone)
    obtain rfl | hg := List.mem_cons.1 hg
    · obtain ⟨-, -, ⟨hs, -⟩ | hused⟩ := htends above c g rest first _ hstack
      · exact .inl ⟨done, rest, hs, hts, hdone⟩
      · omega
    · have hcount : (Weight.token g).frame (.sweep (some c) t rest first) = Token.count g rest := rfl
      have hpos := Token.count_pos hg
      refine .inr (.inr ?_)
      rw [Weight.loop, hstack, Weight.frames_append, Weight.frames_cons]
      omega

namespace Session

variable {cs₀ : List Choice} {place : Nat} {c : ConnectionId} {ts pre post : List Token}
  {s₀ : Stage} {l₀ : Loop} {g : BracketId}

/-- There is at most one token of a bracket. -/
theorem tokens_le (g : BracketId) (cs : List Choice) :
    (after cs).tokens g + (after cs).spent g ≤ 1 := by
  rw [token_ledger]
  split <;> omega

/-- A cancellation takes at most one token of a bracket, which was not used up. -/
theorem count_of_cancels (hcall : (after cs₀).calls[place]? = some (.work s₀ l₀))
    (hcancels : l₀.Cancels (after cs₀).store c ts s₀) :
    Token.count g ts + (after (.call place :: cs₀)).spent g ≤ 1 := by
  have hwork := (Weight.token g).call_le_calls (work_of_cancels hcall hcancels)
  have hle := tokens_le g (.call place :: cs₀)
  change Token.count g ts + _ ≤ _ at hwork
  unfold tokens Weight.session at hle
  omega

/-- **Whoever runs a token that a cancellation took is that cancellation**, and all tokens before it
have been served. -/
theorem of_token (hcall : (after cs₀).calls[place]? = some (.work s₀ l₀))
    (hcancels : l₀.Cancels (after cs₀).store c ts s₀) (hts : ts = pre ++ .bracket g :: post)
    (cs : List Choice) {l : Loop}
    (hl : .work (.looking (.token (.bracket g))) l ∈ (after (cs ++ .call place :: cs₀)).calls) :
    (after (cs ++ .call place :: cs₀)).AllServed pre := by
  have hg : .bracket g ∈ ts := by simp [hts]
  have hnode : (Weight.token g).stage (.looking (.token (.bracket g))) = 1 := by
    simp [Weight.stage, Weight.token, Token.count, Token.bracket?]
  have hwork := (Weight.token g).call_le_calls hl
  have hle := tokens_le g (cs ++ .call place :: cs₀)
  unfold tokens Weight.session at hle
  simp only [Weight.call, hnode] at hwork
  have hspent : (after (cs ++ .call place :: cs₀)).spent g = 0 := by omega
  obtain hserved | ⟨s', l', hl', hid'⟩ | hstopped := cancelling_stays hcall hcancels cs
  · exact absurd (hserved g hg).1 (by omega)
  · have htoken := (cancelling hcall hcancels cs s' l' hl' hid').token (tends _ s' l' hl') hg hspent
    by_cases hid : l'.id = l.id
    · -- the loop of the cancellation itself runs the token
      obtain ⟨rfl, rfl⟩ := has_unique (.inl hl) hl' hid
      obtain ⟨done, rest, -, hdone, hserved⟩ | hs | hloop := htoken
      · have hcount := count_of_cancels (g := g) hcall hcancels
        subst hts
        exact Token.eq_of_count_le hdone (by omega) ▸ hserved
      · cases hs
      · omega
    · -- two loops would have the token
      have htwo := two_loops_le (Weight.token g) hl hl' hid
      rw [hnode] at htwo
      have hpos := Token.count_pos hg
      unfold Weight.session at htwo
      obtain ⟨done, rest, rfl, -, -⟩ | rfl | hloop := htoken
      · rw [hnode] at htwo
        omega
      · have hsweep : (Weight.token g).stage (.looking (.sweep (some c) ts)) = Token.count g ts := rfl
        omega
      · omega
  · -- the loop was stopped, and its tokens were lost
    obtain ⟨σ, -, hm⟩ := hstopped
    have hlost := List.countP_pos_iff.2 ⟨_, hm, Moment.spends_of_stopped hg⟩
    exact absurd hspent (Nat.ne_of_gt hlost)

/-- **Once a connection was cancelled, whoever is about to run a release of a bracket with a token on
it** is stopped, or does it for an acquisition that ended too late, or came to the token after all
newer ones. -/
theorem releasing_cancelled (hcall : (after cs₀).calls[place]? = some (.work s₀ l₀))
    (hcancels : l₀.Cancels (after cs₀).store c ts s₀) (hts : ts = pre ++ .bracket g :: post)
    (cs : List Choice) : ∀ s l, (after (cs ++ .call place :: cs₀)).Has s l → ∀ v x,
      s = .looking (.release g v x) →
        (after (cs ++ .call place :: cs₀)).store.isCancelled l.link = true ∨
          l.sink = .lateRelease g ∨
            x = .cancelled ∧ (after (cs ++ .call place :: cs₀)).AllServed pre := by
  have hg : .bracket g ∈ ts := by simp [hts]
  -- the bracket was opened under the connection, which is cancelled from now on
  have hopened : (after (.call place :: cs₀)).store.Opened g (some c) :=
    ((fits _).2 _ (work_of_cancels hcall hcancels)).1 g hg
  have hown : ∀ cs link, (after (cs ++ .call place :: cs₀)).store.Opened g link →
      (after (cs ++ .call place :: cs₀)).store.isCancelled link = true := fun cs link h => by
    rw [h.unique (hopened.grows (after_grows _ cs))]
    exact isCancelled_of_cancels hcall hcancels cs
  refine each_from (P := fun S s l => ∀ v x, s = .looking (.release g v x) →
    S.store.isCancelled l.link = true ∨ l.sink = .lateRelease g ∨ x = .cancelled ∧ S.AllServed pre)
    ?_ ?_ ?_ ?_ ?_ cs
  · intro s l hl v x hs
    have hcount := count_of_cancels (g := g) hcall hcancels
    have hpos := Token.count_pos hg
    obtain ⟨hspent, -⟩ | ⟨br, hbr, -, hlink⟩ | hlate := releasing _ s l hl g v x hs
    · omega
    · exact .inl (hown [] _ ⟨br, hbr, hlink⟩)
    · exact .inr (.inl hlate)
  · intro S call next others s l hgrows h v x hs
    obtain hc | hlate | ⟨hx, hserved⟩ := h v x hs
    · exact .inl (hgrows.cancelled _ hc)
    · exact .inr (.inl hlate)
    · exact .inr (.inr ⟨hx, hserved.record hgrows⟩)
  · intro cs n link k others hstart v x hn
    cases hn
    exact .inr (.inl ((fits _).2 _ hstart).2.1)
  · intro cs s l t fs others hwork h ht v x hstage
    obtain ⟨hlink, ⟨rfl, rfl⟩ | hstack⟩ := ht.of_release hstage
    · exact .inr (.inr ⟨rfl, (of_token hcall hcancels hts cs hwork).record ht.grows⟩)
    · have hfits := ((fits _).2 _ hwork).2
      rw [hstack] at hfits
      obtain ⟨br, hbr, -, hunder⟩ := hfits.1
      have hc := hown cs t.link ⟨br, hbr, hunder.trans hlink.symm⟩
      exact .inl (ht.grows.cancelled _ hc)
  · intro S b l r hripe h v x hs
    cases hs

/-- A resource comes too late only under a cancelled connection. -/
theorem late_cancelled (g : BracketId) (cs : List Choice) :
    (Weight.dues g 0 1 0 0).session (after cs) = 0 ∨
      (after cs).store.isCancelled ((after cs).store.bracketLink g) = true := by
  refine invariant (P := fun S => (Weight.dues g 0 1 0 0).session S = 0 ∨
    S.store.isCancelled (S.store.bracketLink g) = true) (.inl rfl) ?_ ?_ cs
  · intro cs i ih
    rw [dues_input _ _ _ _ fun _ => rfl, record_store, Store.bracketLink_eq, i.step_terms,
      ← Store.bracketLink_eq]
    exact ih.imp_right ((i.step_grows _).cancelled _)
  · intro cs x xs ys hS ih
    have hdues := dues_call (g := g) 0 1 0 0 hS fun _ => rfl
    by_cases hd : x.deal g (after cs).store = .opens
    · have hturns := x.step_turns (σ := (after cs).store) g
      rw [hd] at hdues hturns
      simp only [Weight.Settles] at hdues
      rw [Store.bracketLink_eq, hturns.1] at ih
      exact .inl (hdues.trans (ih.resolve_right (by simp [Store.isCancelled])))
    · rw [record_store, bracketLink_step hS hd]
      obtain ih | ih := ih
      · rw [ih] at hdues
        revert hdues hd
        cases x.deal g (after cs).store with
        | opens => exact fun _ hd => absurd rfl hd
        | acquires ok =>
          intro hdues _
          simp only [Weight.Settles, Weight.leftBy] at hdues
          split at hdues
          · exact .inl (by omega)
          · rename_i br hbr
            split at hdues
            · rename_i hlate
              refine .inr ((x.step_grows _).cancelled _ ?_)
              rw [Store.bracketLink_eq, hbr]
              exact hlate.2
            · exact .inl (by omega)
        | _ =>
          intro hdues _
          simp only [Weight.Settles, ite_self] at hdues
          exact .inl (by omega)
      · exact .inr ((x.step_grows _).cancelled _ ih)

/-- No resource of a bracket comes too late any more once one was acquired under an active
connection. -/
theorem late_eq_zero {cs₀ : List Choice} (hacquired : (after cs₀).deals g (.acquires true) = 1)
    (hactive : (after cs₀).store.isCancelled ((after cs₀).store.bracketLink g) = false)
    (cs : List Choice) : (Weight.dues g 0 1 0 0).session (after (cs ++ cs₀)) = 0 := by
  have hbase := (late_cancelled g cs₀).resolve_right (by simp [hactive])
  refine (invariant_from (P := fun S => S.deals g (.acquires true) = 1 ∧
    (Weight.dues g 0 1 0 0).session S = 0) ⟨hacquired, hbase⟩ ?_ ?_ cs).2
  · intro cs i ⟨hdeals, hweight⟩
    rw [dues_input _ _ _ _ fun _ => rfl, deals_input (by simp)]
    exact ⟨hdeals, hweight⟩
  · intro cs x xs ys hS ⟨hdeals, hweight⟩
    have hdues := dues_call (g := g) 0 1 0 0 hS fun _ => rfl
    have hacquiring : ∀ ok, x.deal g (after (cs ++ cs₀)).store = .acquires ok → _ :=
      fun ok => acquiring hS
    rw [deals_call]
    revert hdues hacquiring
    cases x.deal g (after (cs ++ cs₀)).store with
    | acquires ok =>
      intro _ hacquiring
      exact absurd (hacquiring ok rfl).1 (by omega)
    | _ =>
      simp only [Weight.Settles, reduceCtorEq, if_false, ite_self]
      intro hdues _
      exact ⟨hdeals, by omega⟩

/-- A resource that was acquired while its connection was active does not come too late. -/
theorem not_late {cs₀ : List Choice} {link : Link}
    (hacquired : (after cs₀).deals g (.acquires true) = 1)
    (hopened : (after cs₀).store.Opened g link)
    (hactive : (after cs₀).store.isCancelled link = false) (cs : List Choice) {s : Stage} {l : Loop}
    (hwork : .work s l ∈ (after (cs ++ cs₀)).calls) : l.sink ≠ .lateRelease g := by
  intro hlate
  have hlink : (after cs₀).store.bracketLink g = link := by
    obtain ⟨br, hbr, rfl⟩ := hopened
    rw [Store.bracketLink, hbr]
    rfl
  have hzero := late_eq_zero hacquired (hlink ▸ hactive) cs
  have hweight := (Weight.dues g 0 1 0 0).call_le_calls hwork
  have hsink : (Weight.dues g 0 1 0 0).sink l.sink = 1 := by simp [hlate, Weight.dues]
  simp only [Weight.call, Weight.loop, hsink] at hweight
  unfold Weight.session at hzero
  omega

/-- **Under a cancellation releases are run one after the other**: one of a resource that was there
when the tokens were taken starts with the exit of cancellation, and when those of all brackets with
a newer token are over. -/
theorem releases_in_order (hcall : (after cs₀).calls[place]? = some (.work s₀ l₀))
    (hcancels : l₀.Cancels (after cs₀).store c ts s₀) (hts : ts = pre ++ .bracket g :: post)
    (hacquired : (after cs₀).deals g (.acquires true) = 1) (cs : List Choice) {a : Activity}
    (ha : a ∈ (after (cs ++ .call place :: cs₀)).calls)
    (hd : a.deal g (after (cs ++ .call place :: cs₀)).store = .releases) :
    (∃ v l, a = .work (.looking (.release g v .cancelled)) l) ∧
      (after (cs ++ .call place :: cs₀)).AllServed pre := by
  obtain ⟨v, x, l, rfl, hc⟩ := Activity.of_deal_releases hd
  obtain hstopped | hlate | ⟨rfl, hserved⟩ :=
    releasing_cancelled hcall hcancels hts cs _ l (.inl ha) v x rfl
  · cases hc.symm.trans hstopped
  · have hg : .bracket g ∈ ts := by simp [hts]
    have hopened := (fits cs₀).1.armed c g (hcancels.mem_armed.2 hg)
    rw [List.append_cons] at ha
    exact (not_late hacquired hopened hcancels.active _ ha hlate).elim
  · exact ⟨⟨v, l, rfl⟩, hserved⟩

end Session

end CancelableEffects
