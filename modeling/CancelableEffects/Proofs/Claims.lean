import CancelableEffects.Proofs.Stops

/-!
# Claims — a bracket is ended by the loop that opened it, or by a cancellation

* **`Session.next_of_has`**: what becomes of a loop with the next choice.
* **`Session.always_from`**: what holds of every loop, where more may be used of the steps.
* `Frame.claims?`: the bracket that a frame is going to use or to release.
* `Session.not_claimed_of_asked`: nobody claims a bracket after the end of its use.
* `Session.acquired_of_release`: what is in use was acquired.
* **`Session.held_or_asked`**: a resource that was acquired is held until the release is asked for.
* **`Session.claimed_or_asked`**: until then, a loop claims the bracket.
-/

namespace CancelableEffects

/-! ## What becomes of a loop -/

namespace Session

variable {cs : List Choice} {x : Choice} {place : Nat} {s : Stage} {l : Loop}

/-- The session after a loop has taken a turn. -/
theorem after_takes {t : Turn} {fs : List Frame} (hcall : (after cs).calls[place]? = some (.work s l))
    (ht : l.Takes (after cs).store s t fs) :
    after (.call place :: cs) = (after cs).record (some (.work s l))
      (t.store, t.calls ++ [.work t.stage (t.loop l fs)]) ((after cs).calls.eraseIdx place) := by
  change (after cs).step (.call place) = _
  rw [step_call hcall, Activity.step, ht.step]

theorem store_of_takes {t : Turn} {fs : List Frame} (hcall : (after cs).calls[place]? = some (.work s l))
    (ht : l.Takes (after cs).store s t fs) : (after (.call place :: cs)).store = t.store := by
  rw [after_takes hcall ht, record_store]

/-- **A loop stays where it is, or goes on from a boundary, or a step of its own comes**: it is stopped,
or has come to its end, or takes a turn. -/
theorem next_of_has (h : (after cs).Has s l) (x : Choice) :
    (after (x :: cs)).Has s l ∨
      (∃ b r, s = .leaving b ∧ (after (x :: cs)).Has (.looking (.result r)) l ∧ (after cs).Answers b r) ∨
      ∃ place, x = .call place ∧ (after cs).calls[place]? = some (.work s l) ∧
        ((∃ n, s = .looking n ∧ (after cs).store.isCancelled l.link = true) ∨
          (∃ r, s = .handing r ∧ l.stack = []) ∨
          ∃ t fs, l.Takes (after cs).store s t fs ∧
            (after (x :: cs)).Has t.stage (t.loop l fs)) := by
  have hleaving : ∀ b, s = .leaving b → _ := fun b hs => leaves (hs ▸ h) x
  by_cases hown : ∃ place, x = .call place ∧ (after cs).calls[place]? = some (.work s l)
  · obtain ⟨place, rfl, hcall⟩ := hown
    obtain ⟨n, hs, hc, -⟩ | ⟨r, hs, hstack, -⟩ | ⟨t, fs, ht⟩ | ⟨b, hs⟩ := l.step_takes s (after cs).store
    · exact .inr (.inr ⟨place, rfl, hcall, .inl ⟨n, hs, hc⟩⟩)
    · exact .inr (.inr ⟨place, rfl, hcall, .inr (.inl ⟨r, hs, hstack⟩)⟩)
    · exact .inr (.inr ⟨place, rfl, hcall, .inr (.inr ⟨t, fs, ht, .inl (work_of_takes hcall ht)⟩)⟩)
    · obtain hstays | ⟨r, hr, hanswers⟩ := hleaving b hs
      · exact .inl (hs ▸ hstays)
      · exact .inr (.inl ⟨b, r, hs, hr, hanswers⟩)
  · obtain ⟨s', h', rfl | ⟨b, -, hs, -⟩⟩ := has_other h (x := x) fun place s' l' hx hcall hid => by
      obtain ⟨rfl, rfl⟩ := has_unique h (.inl (List.mem_of_getElem? hcall)) hid
      exact absurd ⟨place, hx, hcall⟩ hown
    · exact .inl h'
    · obtain hstays | ⟨r, hr, hanswers⟩ := hleaving b hs
      · exact .inl (hs ▸ hstays)
      · exact .inr (.inl ⟨b, r, hs, hr, hanswers⟩)

/-! ## Every loop -/

section Always

variable {H : List Choice → Prop} {P : Session → Stage → Loop → Prop} {cs₀ : List Choice}

/-- **What holds of every loop from then on**, as long as the choices are such that `H` holds, if it is
kept while others take their steps, holds when an execution begins, and is kept by the turns of the loop
itself and when it goes on from a boundary. -/
theorem always_from (hH : ∀ x cs, H (x :: cs) → H cs)
    (base : ∀ s l, (after cs₀).Has s l → P (after cs₀) s l)
    (kept : ∀ {x cs s l}, H (x :: cs) → (after (cs ++ cs₀)).Has s l →
      (after (x :: (cs ++ cs₀))).Has s l → P (after (cs ++ cs₀)) s l →
        P (after (x :: (cs ++ cs₀))) s l)
    (begun : ∀ {cs place n link k}, H (.call place :: cs) →
      (after (cs ++ cs₀)).calls[place]? = some (.start n link k) →
        P (after (.call place :: (cs ++ cs₀))) (.looking n) ((after (cs ++ cs₀)).store.begin link k).2)
    (turned : ∀ {cs place s l t fs}, H (.call place :: cs) →
      (after (cs ++ cs₀)).calls[place]? = some (.work s l) → P (after (cs ++ cs₀)) s l →
        l.Takes (after (cs ++ cs₀)).store s t fs →
          P (after (.call place :: (cs ++ cs₀))) t.stage (t.loop l fs))
    (resumed : ∀ {x cs b l r}, H (x :: cs) → (after (cs ++ cs₀)).Has (.leaving b) l →
      (after (cs ++ cs₀)).Answers b r → (after (cs ++ cs₀)).store.Ripe b r →
        P (after (cs ++ cs₀)) (.leaving b) l → P (after (x :: (cs ++ cs₀))) (.looking (.result r)) l)
    (cs : List Choice) (h : H cs) :
    ∀ s l, (after (cs ++ cs₀)).Has s l → P (after (cs ++ cs₀)) s l := by
  induction cs with
  | nil => exact base
  | cons x cs ih =>
    intro s l hl
    have hapt := apt (cs ++ cs₀)
    have horderly := orderly (cs ++ cs₀)
    have hl' : ((after (cs ++ cs₀)).step x).Has s l := hl
    cases hl'.moves with
    | stays hold => exact kept h hold hl (ih (hH x cs h) s l hold)
    | begins place n link k hx hcall hs heq =>
      subst hx hs heq
      exact begun h hcall
    | turns place s₀ l₀ t fs hx hcall ht hs heq =>
      subst hx hs heq
      exact turned h hcall (ih (hH _ cs h) s₀ l₀ (.inl (List.mem_of_getElem? hcall))) ht
    | goesOn place b r hx hcall hready hs =>
      subst hs
      have hold : (after (cs ++ cs₀)).Has (.leaving b) l := .inl (List.mem_of_getElem? hcall)
      exact resumed h hold (horderly.ready b r hready) (hapt.1.ready b r hready)
        (ih (hH x cs h) _ l hold)
    | wakes place b r hx hcall hparked hs =>
      subst hs
      have hold : (after (cs ++ cs₀)).Has (.leaving b) l := .inr ⟨b, rfl, hparked⟩
      have hmem := List.mem_of_getElem? hcall
      exact resumed h hold (horderly.completes b r (List.mem_flatMap.2 ⟨_, hmem, .head _⟩))
        (hapt.2 _ hmem) (ih (hH x cs h) _ l hold)

/-- **What holds of every loop**, whatever happens. -/
theorem always
    (kept : ∀ {x cs s l}, (after cs).Has s l → (after (x :: cs)).Has s l → P (after cs) s l →
      P (after (x :: cs)) s l)
    (begun : ∀ {cs place n link k}, (after cs).calls[place]? = some (.start n link k) →
      P (after (.call place :: cs)) (.looking n) ((after cs).store.begin link k).2)
    (turned : ∀ {cs place s l t fs}, (after cs).calls[place]? = some (.work s l) → P (after cs) s l →
      l.Takes (after cs).store s t fs → P (after (.call place :: cs)) t.stage (t.loop l fs))
    (resumed : ∀ {x cs b l r}, (after cs).Has (.leaving b) l → (after cs).Answers b r →
      P (after cs) (.leaving b) l → P (after (x :: cs)) (.looking (.result r)) l)
    (cs : List Choice) : ∀ s l, (after cs).Has s l → P (after cs) s l := by
  have h := @always_from (fun _ => True) P [] (fun _ _ _ => trivial)
    (by simp [Has, after, Store.boundary?])
    (fun {x cs s l} _ => by simpa only [List.append_nil] using kept)
    (fun {cs place n link k} _ => by simpa only [List.append_nil] using begun)
    (fun {cs place s l t fs} _ => by simpa only [List.append_nil] using turned)
    (fun {x cs b l r} _ hl ha _ => by
      rw [List.append_nil] at hl ha ⊢
      exact resumed hl ha) cs trivial
  rwa [List.append_nil] at h

end Always

/-! ## Deals -/

variable {g : BracketId} {d : Deal}

theorem deals_le (g : BracketId) (d : Deal) (cs₀ cs : List Choice) :
    (after cs₀).deals g d ≤ (after (cs ++ cs₀)).deals g d :=
  (past_suffix cs₀ cs).sublist.countP_le

theorem deals_eq_zero_of_later {cs₀ : List Choice} (cs : List Choice)
    (h : (after (cs ++ cs₀)).deals g d = 0) : (after cs₀).deals g d = 0 :=
  Nat.le_zero.1 (Nat.le_trans (deals_le g d cs₀ cs) (Nat.le_of_eq h))

/-- A deal that was made was made with one of the choices. -/
theorem exists_of_deal (hd : d ≠ .nothing) (h : 0 < (after cs).deals g d) :
    ∃ cs₂ place a cs₁, cs = cs₂ ++ .call place :: cs₁ ∧ (after cs₁).calls[place]? = some a ∧
      a.deal g (after cs₁).store = d := by
  obtain ⟨m, hm, hdeal⟩ := List.countP_pos_iff.1 h
  obtain ⟨later, earlier, hpast⟩ := List.append_of_mem hm
  obtain ⟨cs₂, x, cs₁, rfl, -, hmade⟩ := exists_made hpast
  have hdeal : Moment.deal g m = d := of_decide_eq_true hdeal
  obtain ⟨i, -, hnone, -⟩ | ⟨place, a, rfl, ha, hcall, -⟩ := hmade.how
  · rw [Moment.deal, hnone] at hdeal
    exact absurd hdeal.symm hd
  · rw [Moment.deal, hcall, hmade.before] at hdeal
    exact ⟨cs₂, place, a, cs₁, rfl, ha, hdeal⟩

theorem deals_of_call {a : Activity} (ha : (after cs).calls[place]? = some a) :
    (after (.call place :: cs)).deals g d =
      (after cs).deals g d + if a.deal g (after cs).store = d then 1 else 0 := by
  change ((after cs).step (.call place)).deals g d = _
  rw [step_call ha, deals_call]

/-- Who takes a step does not make a deal that is not made. -/
theorem deal_ne_of_call {a : Activity} (ha : (after cs).calls[place]? = some a)
    (h : (after (.call place :: cs)).deals g d = 0) : a.deal g (after cs).store ≠ d := fun hd => by
  rw [deals_of_call ha, if_pos hd] at h
  exact Nat.succ_ne_zero _ h

end Session

/-! ## Claims -/

/-- The bracket that the frame is going to use or to release. -/
def Frame.claims? : Frame → Option BracketId
  | .use g _ | .release g => some g
  | _ => none

/-- The brackets that the loop is going to use or to release, the innermost first. -/
def Loop.claims (l : Loop) : List BracketId := l.stack.filterMap Frame.claims?

section Claims

variable {l : Loop} {σ : Store} {s : Stage} {t : Turn} {fs : List Frame} {g : BracketId}

theorem Frame.filterMap_claims? {fs : List Frame} (h : ∀ f ∈ fs, f.bracket? = none) :
    fs.filterMap Frame.claims? = [] := by
  rw [List.filterMap_eq_nil_iff]
  intro f hf
  cases f <;> first | rfl | exact nomatch h _ hf

theorem Loop.mem_claims {f : Frame} (hf : f ∈ l.stack) (hg : f.claims? = some g) : g ∈ l.claims :=
  List.mem_filterMap.2 ⟨f, hf, hg⟩

/-- A turn ends the claim on top, or adds that of a new bracket, or leaves them as they are. -/
theorem Loop.Takes.claims (ht : l.Takes σ s t fs) :
    (t.loop l fs).claims = l.claims ∨ l.claims = l.claims.head?.toList ++ (t.loop l fs).claims ∨
      (∃ acquire use release, s = .looking (.program (.bracket acquire use release))) ∧
        (t.loop l fs).claims = σ.boundaries.size :: l.claims := by
  cases ht with
  | looking n hc =>
    obtain hframes | ⟨acquire, use, release, rfl⟩ := n.step_frames l.id l.link σ
    · left
      rw [Loop.claims, Turn.loop, List.filterMap_append, Frame.filterMap_claims? hframes]
      rfl
    · exact .inr (.inr ⟨⟨acquire, use, release, rfl⟩, rfl⟩)
  | handing r f fs hstack =>
    have hold : l.claims = f.claims?.toList ++ fs.filterMap Frame.claims? := by
      rw [Loop.claims, hstack, List.filterMap_cons]
      cases f.claims? <;> rfl
    have hnew : ∀ gs : List Frame, (f.resume r l.link σ).frames = gs →
        ((f.resume r l.link σ).loop l fs).claims = gs.filterMap Frame.claims? ++ fs.filterMap Frame.claims? :=
      fun gs h => by rw [Loop.claims, Turn.loop, h, List.filterMap_append]
    obtain hframes | ⟨g, u, v, rfl, rfl, hframes⟩ | ⟨g, rfl, hframes⟩ := f.resume_frames r l.link σ
    · rw [hold, hnew _ rfl, Frame.filterMap_claims? hframes]
      cases f.claims? with
      | none => exact .inl rfl
      | some g => exact .inr (.inl rfl)
    · rw [hold, hnew _ hframes]
      exact .inl rfl
    · rw [hold, hnew _ hframes]
      exact .inr (.inl rfl)
  | _ => exact .inl rfl

/-- Whoever claims a bracket has opened it. -/
theorem Store.Fits.owner {e : ExecutionId} {link : Link} {fs : List Frame} (h : σ.Fits e link fs)
    {f : Frame} (hf : f ∈ fs) (hg : f.claims? = some g) :
    ∃ br, σ.bracket? g = some br ∧ br.owner = e := by
  obtain ⟨link', hfit⟩ := h.of_mem hf
  cases f with
  | use g' u | release g' =>
    cases hg
    exact hfit.imp fun _ h => ⟨h.1, h.2.1⟩
  | _ => cases hg

/-- A loop that has its connection has opened the brackets that it claims under it. -/
theorem Store.Fits.bracketLink {e : ExecutionId} {c : ConnectionId} {fs : List Frame}
    (h : σ.Fits e (some c) fs) {f : Frame} (hf : f ∈ fs) (hg : f.claims? = some g) :
    σ.bracketLink g = some c := by
  induction fs with
  | nil => cases hf
  | cons f' fs ih =>
    obtain rfl | hbelow := List.mem_cons.1 hf
    · cases f with
      | use g' u | release g' =>
        cases hg
        obtain ⟨br, hbr, -, hlink⟩ := h.1
        rw [Store.bracketLink, hbr]
        exact hlink
      | _ => cases hg
    · cases f' with
      | restore enclosing =>
        have hnone : some c = none := h.1
        cases hnone
      | _ => exact ih h.2 hbelow

/-- After a turn the use of a bracket is on top of the stack only if the bracket was just opened, or if a
result comes to it. -/
theorem Loop.Takes.of_use {f : Value → Code Prog Prog} {rest : List Frame} (ht : l.Takes σ s t fs)
    (hbears : s.Bears l.stack) (hstack : (t.loop l fs).stack = .use g f :: rest) :
    (∃ b, t.stage = .leaving b) ∨ ∃ r, s = .looking (.result r) ∧ σ.isCancelled l.link = false ∧
      t.stage = .handing r ∧ l.stack = .use g f :: rest := by
  cases ht with
  | looking n hc =>
    obtain hframes | ⟨acquire, use, release, rfl⟩ := n.step_frames l.id l.link σ
    · cases hnew : (n.step l.id l.link σ).frames with
      | nil =>
        rw [Turn.loop, hnew] at hstack
        have hold : l.stack = .use g f :: rest := hstack
        rw [hold] at hbears
        obtain hs | ⟨r, hs | hs⟩ := hbears.1 <;> cases hs
        exact .inr ⟨r, rfl, hc, rfl, hold⟩
      | cons f' gs =>
        rw [Turn.loop, hnew] at hstack
        obtain rfl : f' = .use g f := (List.cons.inj hstack).1
        cases hframes _ (hnew ▸ List.mem_cons_self)
    · exact .inl ⟨_, rfl⟩
  | handing r f' fs hold =>
    rw [hold] at hbears
    cases hnew : (f'.resume r l.link σ).frames with
    | nil =>
      rw [Turn.loop, hnew] at hstack
      have hfs : fs = .use g f :: rest := hstack
      rw [hfs] at hbears
      exact hbears.2.1.elim
    | cons f'' gs =>
      rw [Turn.loop, hnew] at hstack
      obtain rfl : f'' = .use g f := (List.cons.inj hstack).1
      obtain hframes | ⟨g', u, v, rfl, rfl, hframes⟩ | ⟨g', rfl, hframes⟩ := f'.resume_frames r l.link σ
      · cases hframes _ (hnew ▸ List.mem_cons_self)
      · cases hnew.symm.trans hframes
      · cases hnew.symm.trans hframes
  | _ =>
    have hold : l.stack = .use g f :: rest := hstack
    rw [hold] at hbears
    obtain hs | ⟨r, hs | hs⟩ := hbears.1 <;> cases hs

/-- Who asks for the release at the end of the use has claimed the bracket. -/
theorem Activity.of_deal_asks {a : Activity} (h : a.deal g σ = .asks false) :
    ∃ r l fs, a = .work (.handing r) l ∧ l.stack = .release g :: fs := by
  unfold Activity.deal Node.deal Frame.deal Sink.deal at h
  grind

end Claims

namespace Session

variable {cs : List Choice} {x : Choice} {s : Stage} {l : Loop} {g : BracketId}

/-- Whoever claims a bracket has opened it. -/
theorem owner_of_claims (h : (after cs).Has s l) (hg : g ∈ l.claims) :
    ∃ br, (after cs).store.bracket? g = some br ∧ br.owner = l.id := by
  obtain ⟨f, hf, hclaims⟩ := List.mem_filterMap.1 hg
  exact (fits_of_has h).owner hf hclaims

theorem lt_of_bracket? {σ : Store} {br : Bracket} (h : σ.bracket? g = some br) : g < σ.boundaries.size := by
  have hx := Store.bracket?_eq_some.1 h
  have hlt := (Array.getElem?_eq_some_iff.1 hx).1
  rwa [σ.boundaries.aligned] at hlt

/-- **A loop claims a bracket once.** -/
theorem claims_nodup (cs : List Choice) : ∀ s l, (after cs).Has s l → l.claims.Nodup := by
  refine always (P := fun _ _ l => l.claims.Nodup) (fun _ _ h => h) (fun _ => List.nodup_nil) ?_
    (fun _ _ h => h) cs
  intro cs place s l t fs hcall h ht
  obtain heq | heq | ⟨-, heq⟩ := ht.claims
  · rwa [heq]
  · rw [heq] at h
    exact h.of_append_right
  · rw [heq, List.nodup_cons]
    refine ⟨fun hmem => ?_, h⟩
    obtain ⟨br, hbr, -⟩ := owner_of_claims (.inl (List.mem_of_getElem? hcall)) hmem
    exact Nat.lt_irrefl _ (lt_of_bracket? hbr)

/-- A deal that was made was made before, or with the last choice. -/
theorem deals_cases {d : Deal} (hd : d ≠ .nothing) (h : 0 < (after (x :: cs)).deals g d) :
    0 < (after cs).deals g d ∨
      ∃ place a, x = .call place ∧ (after cs).calls[place]? = some a ∧ a.deal g (after cs).store = d := by
  obtain hsame | ⟨m, hm⟩ := made_or cs x
  · exact .inl (hsame ▸ h)
  rw [deals, hm.past] at h
  by_cases hdeal : m.deal g = d
  · right
    obtain ⟨i, rfl, hcall, -⟩ | ⟨place, a, rfl, ha, hcall, -⟩ := hm.how
    · rw [Moment.deal, hcall] at hdeal
      exact absurd hdeal.symm hd
    · rw [Moment.deal, hcall, hm.before] at hdeal
      exact ⟨place, a, rfl, ha, hdeal⟩
  · rw [List.countP_cons_of_neg (by simpa using hdeal)] at h
    exact .inl h

/-- Whoever asks for the release at the end of the use has opened the bracket. -/
theorem owner_of_asks {place : Nat} {a : Activity} (ha : (after cs).calls[place]? = some a)
    (hd : a.deal g (after cs).store = .asks false) :
    ∃ r l fs br, a = .work (.handing r) l ∧ l.stack = .release g :: fs ∧
      (after cs).store.bracket? g = some br ∧ br.owner = l.id := by
  obtain ⟨r, l, fs, rfl, hstack⟩ := Activity.of_deal_asks hd
  have hg : g ∈ l.claims := Loop.mem_claims (hstack ▸ List.mem_cons_self) rfl
  obtain ⟨br, hbr, howner⟩ := owner_of_claims (.inl (List.mem_of_getElem? ha)) hg
  exact ⟨r, l, fs, br, rfl, hstack, hbr, howner⟩

theorem lt_of_asked (h : 0 < (after cs).deals g (.asks false)) : g < (after cs).store.boundaries.size := by
  obtain ⟨cs₂, place, a, cs₁, rfl, ha, hd⟩ := exists_of_deal (by simp) h
  obtain ⟨r, l, fs, br, -, -, hbr, -⟩ := owner_of_asks ha hd
  have hgrows := after_grows cs₁ (cs₂ ++ [.call place])
  rw [List.append_assoc] at hgrows
  obtain ⟨br', hbr', -⟩ := hgrows.bracket g br hbr
  exact lt_of_bracket? hbr'

/-- While a loop takes no turn, nobody else asks for the release of a bracket that it claims. -/
theorem asks_of_claims {place : Nat} {a : Activity} (h : (after cs).Has s l) (hg : g ∈ l.claims)
    (ha : (after cs).calls[place]? = some a) (hd : a.deal g (after cs).store = .asks false) :
    ∃ r fs, a = .work (.handing r) l ∧ s = .handing r ∧ l.stack = .release g :: fs := by
  obtain ⟨r, l', fs, br', rfl, hstack, hbr', howner'⟩ := owner_of_asks ha hd
  obtain ⟨br, hbr, howner⟩ := owner_of_claims h hg
  cases hbr.symm.trans hbr'
  obtain ⟨rfl, rfl⟩ := has_unique h (.inl (List.mem_of_getElem? ha)) (howner'.symm.trans howner)
  exact ⟨r, fs, rfl, rfl, hstack⟩

/-- **Nobody claims a bracket after the end of its use.** -/
theorem not_claimed_of_asked (cs : List Choice) : ∀ s l, (after cs).Has s l →
    0 < (after cs).deals g (.asks false) → g ∉ l.claims := by
  refine always (P := fun S _ l => 0 < S.deals g (.asks false) → g ∉ l.claims) ?_
    (fun _ _ => List.not_mem_nil) ?_ (fun {x cs b l r} hl _ h hasked hg => ?_) cs
  · intro x cs s l hold hnew h hasked hg
    obtain hasked | ⟨place, a, rfl, ha, hd⟩ := deals_cases (by simp) hasked
    · exact h hasked hg
    obtain ⟨r, fs, rfl, rfl, hstack⟩ := asks_of_claims hold hg ha hd
    have ht := Loop.Takes.handing (l := l) (σ := (after cs).store) r _ fs hstack
    obtain ⟨-, hl⟩ := has_unique hnew (.inl (work_of_takes ha ht)) rfl
    have hnew : (Frame.attempt :: .endBracket g r :: fs) = l.stack := congrArg Loop.stack hl
    cases hnew.trans hstack
  · intro cs place s l t fs hcall h ht hasked hg
    have hl : (after cs).Has s l := .inl (List.mem_of_getElem? hcall)
    obtain hasked | ⟨place', a, hplace, ha, hd⟩ := deals_cases (by simp) hasked
    · obtain heq | heq | ⟨-, heq⟩ := ht.claims
      · exact h hasked (heq ▸ hg)
      · exact h hasked (heq ▸ List.mem_append_right _ hg)
      · rw [heq] at hg
        obtain rfl | hg := List.mem_cons.1 hg
        · exact Nat.lt_irrefl _ (lt_of_asked hasked)
        · exact h hasked hg
    · cases hplace
      cases hcall.symm.trans ha
      obtain ⟨r, l', fs', heq, hstack⟩ := Activity.of_deal_asks hd
      cases heq
      cases ht with
      | handing r f fs hstack' =>
        cases hstack'.symm.trans hstack
        have hnodup := claims_nodup cs _ _ hl
        rw [Loop.claims, hstack] at hnodup
        exact (List.nodup_cons.1 hnodup).1 hg
  · obtain hasked | ⟨place, a, rfl, ha, hd⟩ := deals_cases (by simp) hasked
    · exact h hasked hg
    · obtain ⟨r', fs, -, hs, -⟩ := asks_of_claims hl hg ha hd
      cases hs

/-! ## What is in use was acquired -/

theorem mono_deals {d : Deal} (x : Choice) (h : 0 < (after cs).deals g d) :
    0 < (after (x :: cs)).deals g d :=
  Nat.lt_of_lt_of_le h (deals_le g d cs [x])

/-- What comes to a loop that is about to use the resource of a bracket. -/
theorem stage_of_use {f : Value → Code Prog Prog} {rest : List Frame} (h : (after cs).Has s l)
    (hstack : l.stack = .use g f :: rest) :
    s = .leaving g ∨ ∃ r, s = .looking (.result r) ∨ s = .handing r := by
  have hbears := bears cs s l h
  rw [hstack] at hbears
  exact hbears.1

/-- A value that comes to the use of a bracket is its resource, or the loop is stopped. -/
theorem acquired_of_answers {r : Result} (hl : (after cs).Has (.leaving g) l)
    {f : Value → Code Prog Prog} {rest : List Frame} (hstack : l.stack = .use g f :: rest)
    (h : (after cs).Answers g r) :
    0 < (after cs).deals g (.acquires r.isOk) ∨
      (after cs).store.isCancelled ((after cs).store.bracketLink g) = true ∧
        (after cs).store.isCancelled l.link = true := by
  obtain (hsettled | ⟨br, hbr, hc⟩) | ⟨-, hdeals⟩ := h
  · obtain ⟨br, hbr, -⟩ := brackets_under cs _ l hl (.use g f) (hstack ▸ List.mem_cons_self) g rfl
    cases hbr.symm.trans hsettled.bracket?
  · refine .inr ⟨by rw [Store.bracketLink, hbr]; exact hc, ?_⟩
    cases hlink : br.link with
    | none => rw [hlink] at hc; cases hc
    | some c =>
      have hkeeper : (after cs).store.keeperLink g = some c := by
        rw [Store.keeperLink, Store.bracket?_eq_some.1 hbr]
        exact hlink
      rw [link_of_has hl hkeeper, ← hlink]
      exact hc
  · exact .inl hdeals

/-- **What is in use was acquired**, and so was what is about to be used. -/
theorem acquired (cs : List Choice) : ∀ s l, (after cs).Has s l →
    (∀ g, .release g ∈ l.stack → 0 < (after cs).deals g (.acquires true)) ∧
      ∀ g f rest v, l.stack = .use g f :: rest →
        (s = .handing (.ok v) → 0 < (after cs).deals g (.acquires true)) ∧
          (s = .looking (.result (.ok v)) → 0 < (after cs).deals g (.acquires true) ∨
            (after cs).store.isCancelled l.link = true) := by
  refine always (P := fun S s l => (∀ g, .release g ∈ l.stack → 0 < S.deals g (.acquires true)) ∧
    ∀ g f rest v, l.stack = .use g f :: rest →
      (s = .handing (.ok v) → 0 < S.deals g (.acquires true)) ∧
        (s = .looking (.result (.ok v)) → 0 < S.deals g (.acquires true) ∨
          S.store.isCancelled l.link = true)) ?_ ?_ ?_ ?_ cs
  · intro x cs s l _ _ h
    refine ⟨fun g hg => mono_deals x (h.1 g hg), fun g f rest v hstack => ?_⟩
    obtain ⟨hhanding, hlooking⟩ := h.2 g f rest v hstack
    exact ⟨fun hs => mono_deals x (hhanding hs), fun hs => (hlooking hs).imp (mono_deals x)
      ((after_grows cs [x]).cancelled _)⟩
  · intro cs place n link k hcall
    exact ⟨fun g hg => (List.not_mem_nil hg).elim, fun g f rest v hstack => nomatch hstack⟩
  · intro cs place s l t fs hcall h ht
    have hl : (after cs).Has s l := .inl (List.mem_of_getElem? hcall)
    have hbears := bears cs s l hl
    refine ⟨fun g hg => mono_deals _ ?_, fun g f rest v hstack => ?_⟩
    · cases ht with
      | looking n hc =>
        obtain hg | hg := List.mem_append.1 hg
        · obtain hframes | ⟨acquire, use, release, rfl⟩ := n.step_frames l.id l.link (after cs).store
          · cases hframes _ hg
          · cases List.mem_singleton.1 hg
        · exact h.1 g hg
      | handing r f fs hstack =>
        obtain hg | hg := List.mem_append.1 hg
        · obtain hframes | ⟨g', u, v, rfl, rfl, hframes⟩ | ⟨g', rfl, hframes⟩ :=
            f.resume_frames r l.link (after cs).store
          · cases hframes _ hg
          · rw [hframes] at hg
            cases List.mem_singleton.1 hg
            exact (h.2 g u fs v hstack).1 rfl
          · rw [hframes] at hg
            simp at hg
        · exact h.1 g (hstack ▸ List.mem_cons_of_mem _ hg)
      | _ => exact h.1 g hg
    · obtain ⟨b, hstage⟩ | ⟨r, rfl, hc, hstage, hold⟩ := ht.of_use hbears hstack
      · rw [hstage]
        exact ⟨nofun, nofun⟩
      · rw [hstage]
        refine ⟨fun hs => mono_deals _ ?_, nofun⟩
        cases hs
        obtain hdeals | hcancelled := (h.2 g f rest v hold).2 rfl
        · exact hdeals
        · exact absurd hcancelled (by simp [hc])
  · intro x cs b l r hl hanswers h
    refine ⟨fun g hg => mono_deals x (h.1 g hg), fun g f rest v hstack => ⟨nofun, fun hs => ?_⟩⟩
    cases hs
    obtain hb | ⟨r, hb | hb⟩ := stage_of_use hl hstack <;> cases hb
    exact (acquired_of_answers hl hstack hanswers).imp (mono_deals x)
      fun hc => (after_grows cs [x]).cancelled _ hc.2

end Session

/-! ## What was acquired is held -/

/-- A resource is there until somebody asks for the release. -/
theorem Activity.step_held (a : Activity) (σ : Store) (g : BracketId) :
    a.deal g σ = .opens ∨ a.deal g σ = .acquires true ∨
      (∃ token, a.deal g σ = .asks token) ∧ (a.step σ).1.held? g = none ∨
        (a.step σ).1.held? g = σ.held? g := by
  have hturns := a.step_turns (σ := σ) g
  cases hd : a.deal g σ with
  | opens => exact .inl rfl
  | acquires ok =>
    cases ok with
    | true => exact .inr (.inl rfl)
    | false =>
      rw [hd] at hturns
      exact .inr (.inr (.inr (Store.held?_of_terms_eq hturns)))
  | asks token =>
    rw [hd] at hturns
    exact .inr (.inr (.inl ⟨⟨token, rfl⟩, Store.held?_of_terms_take hturns⟩))
  | _ =>
    rw [hd] at hturns
    exact .inr (.inr (.inr (Store.held?_of_terms_eq hturns)))

namespace Session

variable {cs : List Choice} {g : BracketId}

/-- Only a bracket that is there was acquired. -/
theorem terms_of_acquired (h : 0 < (after cs).deals g (.acquires true)) :
    ((after cs).store.terms g).isSome = true := by
  have haccount := acquisitions g cs
  by_contra hnone
  rw [if_neg hnone] at haccount
  omega

/-- **A resource that was acquired is held until the release is asked for**, by the token of the bracket
or at the end of the use, or it comes too late. -/
theorem held_or_asked (g : BracketId) (cs : List Choice) (h : 0 < (after cs).deals g (.acquires true)) :
    ((after cs).store.held? g).isSome = true ∨ 0 < (after cs).deals g (.asks true) ∨
      0 < (after cs).deals g (.asks false) ∨
        (after cs).store.isCancelled ((after cs).store.bracketLink g) = true := by
  revert h
  refine invariant (P := fun S => 0 < S.deals g (.acquires true) → (S.store.held? g).isSome = true ∨
    0 < S.deals g (.asks true) ∨ 0 < S.deals g (.asks false) ∨
      S.store.isCancelled (S.store.bracketLink g) = true) (fun h => absurd h (Nat.lt_irrefl 0)) ?_ ?_ cs
  · intro cs i ih h
    rw [deals_input (by simp)] at h ⊢
    rw [deals_input (by simp)]
    have hterms := i.step_terms (σ := (after cs).store) g
    rw [record_store, Store.held?_of_terms_eq hterms, Store.bracketLink_eq, hterms, ← Store.bracketLink_eq]
    exact (ih h).imp_right (.imp_right (.imp_right ((i.step_grows _).cancelled _)))
  · intro cs a xs ys hS ih h
    have hgrows := a.step_grows (after cs).store
    rw [deals_call] at h ⊢
    rw [deals_call]
    by_cases hacquires : a.deal g (after cs).store = .acquires true
    · obtain ⟨-, -, br, hbr⟩ := acquiring hS hacquires
      have hturns := a.step_turns (σ := (after cs).store) g
      rw [hacquires] at hturns
      obtain ⟨v, hterms⟩ := hturns br hbr
      rw [record_store, Store.held?_eq_terms, Store.bracketLink_eq, hterms]
      by_cases hc : (after cs).store.isCancelled br.link
      · exact .inr (.inr (.inr (hgrows.cancelled _ hc)))
      · simp [hc]
    rw [if_neg hacquires, Nat.add_zero] at h
    have hopens : a.deal g (after cs).store ≠ .opens := fun hopens => by
      have hturns := a.step_turns (σ := (after cs).store) g
      rw [hopens] at hturns
      have hsome := terms_of_acquired h
      rw [hturns.1] at hsome
      cases hsome
    rw [record_store, bracketLink_step hS hopens]
    obtain hopen | hacquire | ⟨⟨token, hasks⟩, -⟩ | hheld := a.step_held (after cs).store g
    · exact absurd hopen hopens
    · exact absurd hacquire hacquires
    · right
      cases token with
      | false => exact .inr (.inl (by rw [if_pos hasks]; exact Nat.succ_pos _))
      | true => exact .inl (by rw [if_pos hasks]; exact Nat.succ_pos _)
    · rw [hheld]
      exact (ih h).imp_right (.imp (Nat.lt_of_lt_of_le · (Nat.le_add_right _ _))
        (.imp (Nat.lt_of_lt_of_le · (Nat.le_add_right _ _)) (hgrows.cancelled _)))

/-- The use of a resource has ended only if it was acquired. -/
theorem acquired_of_asked (h : 0 < (after cs).deals g (.asks false)) :
    0 < (after cs).deals g (.acquires true) := by
  obtain ⟨cs₂, place, a, cs₁, rfl, ha, hd⟩ := exists_of_deal (by simp) h
  obtain ⟨r, l, fs, br, rfl, hstack, -, -⟩ := owner_of_asks ha hd
  have hacquired := (acquired cs₁ _ _ (.inl (List.mem_of_getElem? ha))).1 g
    (hstack ▸ List.mem_cons_self)
  have hle := deals_le g (.acquires true) cs₁ (cs₂ ++ [.call place])
  rw [List.append_assoc] at hle
  exact Nat.lt_of_lt_of_le hacquired hle

/-! ## Who claims a bracket -/

/-- The loop uses the resource of the bracket, or is going to. -/
def Claims (g : BracketId) (s : Stage) (l : Loop) : Prop :=
  .release g ∈ l.stack ∨ ∃ f rest, l.stack = .use g f :: rest ∧
    (s = .leaving g ∨ ∃ v, s = .looking (.result (.ok v)) ∨ s = .handing (.ok v))

/-- A claim is kept by a turn, unless that ends the use. -/
theorem Claims.takes {s : Stage} {l : Loop} {σ : Store} {t : Turn} {fs : List Frame} (h : Claims g s l)
    (ht : l.Takes σ s t fs) :
    Claims g t.stage (t.loop l fs) ∨ (Activity.work s l).deal g σ = .asks false := by
  obtain hrelease | ⟨f, rest, hstack, rfl | ⟨v, rfl | rfl⟩⟩ := h
  · obtain ⟨above, below, hstack⟩ := List.append_of_mem hrelease
    obtain ⟨above', hnew⟩ | ⟨r, rfl, rfl, rfl, -⟩ := ht.keeps hstack
    · exact .inl (.inl (hnew ▸ List.mem_append_right _ List.mem_cons_self))
    · right
      rw [Activity.deal, hstack]
      exact if_pos rfl
  · cases ht
  · cases ht
    exact .inl (.inr ⟨f, rest, hstack, .inr ⟨v, .inr rfl⟩⟩)
  · cases ht with
    | handing r f' fs hold =>
      cases hold.symm.trans hstack
      exact .inl (.inl List.mem_cons_self)

/-- A bracket that comes up was opened by a loop, under its connection. -/
theorem opens_of_new {x : Choice} {br : Bracket} (hnone : (after cs).store.bracket? g = none)
    (h : (after (x :: cs)).store.bracket? g = some br) :
    ∃ place acquire use release l, x = .call place ∧
      (after cs).calls[place]? = some (.work (.looking (.program (.bracket acquire use release))) l) ∧
        g = (after cs).store.boundaries.size ∧ (after cs).store.isCancelled l.link = false ∧
          br = { owner := l.id, link := l.link, release } := by
  have hterms : ((after (x :: cs)).store.terms g).isSome = true := by rw [Store.terms_of_some h]; rfl
  have hzero := Store.terms_of_none hnone
  obtain hsame | ⟨m, hm⟩ := made_or cs x
  · rw [hsame, hzero] at hterms
    cases hterms
  rw [hm.store] at hterms
  obtain ⟨i, -, -, hnext⟩ | ⟨place, a, rfl, ha, -, hnext⟩ := hm.how <;> rw [hnext, hm.before] at hterms
  · rw [i.step_terms, hzero] at hterms
    cases hterms
  have hturns := a.step_turns (σ := (after cs).store) g
  have hsame : (a.step (after cs).store).1.terms g ≠ (after cs).store.terms g := fun heq => by
    rw [heq, hzero] at hterms
    cases hterms
  cases hd : a.deal g (after cs).store with
  | opens =>
    obtain ⟨l, acquire, use, release, rfl, rfl, hc⟩ := Activity.of_deal_opens hd
    refine ⟨place, acquire, use, release, l, rfl, ha, rfl, hc, ?_⟩
    rw [store_of_takes ha (.looking _ hc), Store.bracket?_eq_some] at h
    have hnew : ((after cs).store.newBoundary
      (.bracket { owner := l.id, link := l.link, release })).1.keeper? _ = some (.bracket br) := h
    rw [Store.keeper?_newBoundary, if_pos rfl] at hnew
    cases hnew
    rfl
  | acquires ok =>
    obtain ⟨xs, ys, hS, -⟩ := exists_of_place ha
    obtain ⟨-, -, br, hbr⟩ := acquiring hS hd
    cases hzero.symm.trans hbr
  | asks token =>
    rw [hd] at hturns
    refine absurd (hturns.trans ?_) hsame
    rw [hzero]
    rfl
  | _ =>
    rw [hd] at hturns
    exact absurd hturns hsame

/-- Who opens a bracket claims it. -/
theorem claims_of_new {x : Choice} {br : Bracket} (hnone : (after cs).store.bracket? g = none)
    (h : (after (x :: cs)).store.bracket? g = some br) :
    ∃ s l, (after (x :: cs)).Has s l ∧ Claims g s l := by
  obtain ⟨place, acquire, use, release, l, rfl, ha, rfl, hc, -⟩ := opens_of_new hnone h
  exact ⟨_, _, .inl (work_of_takes ha (.looking _ hc)), .inr ⟨use, l.stack, rfl, .inl rfl⟩⟩

/-- **A bracket that is there is claimed by a loop**, until the use has ended or its acquisition has
failed or its connection is cancelled. -/
theorem claimed_or_asked (cs : List Choice) {br : Bracket} (h : (after cs).store.bracket? g = some br) :
    (after cs).store.isCancelled ((after cs).store.bracketLink g) = true ∨
      0 < (after cs).deals g (.asks false) ∨ 0 < (after cs).deals g (.acquires false) ∨
        ∃ s l, (after cs).Has s l ∧ Claims g s l := by
  induction cs generalizing br with
  | nil => cases h
  | cons x cs ih =>
    cases hold : (after cs).store.bracket? g with
    | none => exact .inr (.inr (.inr (claims_of_new hold h)))
    | some br₀ =>
      have hgrows := after_grows cs [x]
      have hcancelled : (after cs).store.isCancelled ((after cs).store.bracketLink g) = true →
          (after (x :: cs)).store.isCancelled ((after (x :: cs)).store.bracketLink g) = true := by
        intro hc
        have hlink : (after (x :: cs)).store.bracketLink g = _ := hgrows.bracketLink hold
        rw [hlink]
        exact hgrows.cancelled _ hc
      obtain hc | hasked | hfailed | ⟨s, l, hl, hclaims⟩ := ih hold
      · exact .inl (hcancelled hc)
      · exact .inr (.inl (mono_deals x hasked))
      · exact .inr (.inr (.inl (mono_deals x hfailed)))
      obtain hstays | ⟨b, r, rfl, hr, hanswers⟩ | ⟨place, rfl, hcall, hown⟩ := next_of_has hl x
      · exact .inr (.inr (.inr ⟨s, l, hstays, hclaims⟩))
      · obtain hrelease | ⟨f, rest, hstack, hs⟩ := hclaims
        · exact .inr (.inr (.inr ⟨_, l, hr, .inl hrelease⟩))
        obtain rfl : b = g := by obtain hs | ⟨v, hs | hs⟩ := hs <;> cases hs; rfl
        obtain hdeals | ⟨hc, -⟩ := acquired_of_answers hl hstack hanswers
        · cases r with
          | ok v => exact .inr (.inr (.inr ⟨_, l, hr, .inr ⟨f, rest, hstack, .inr ⟨v, .inl rfl⟩⟩⟩))
          | error e => exact .inr (.inr (.inl (mono_deals x hdeals)))
        · exact .inl (hcancelled hc)
      obtain ⟨n, rfl, hc⟩ | ⟨r, rfl, hstack⟩ | ⟨t, fs, ht, hnew⟩ := hown
      · -- whoever is stopped has its connection, under which it opened what it claims
        obtain ⟨f, hf, hg⟩ : ∃ f ∈ l.stack, f.claims? = some g := by
          obtain hrelease | ⟨f, rest, hstack, -⟩ := hclaims
          · exact ⟨_, hrelease, rfl⟩
          · exact ⟨_, hstack ▸ List.mem_cons_self, rfl⟩
        cases hlink : l.link with
        | none => rw [hlink] at hc; cases hc
        | some c =>
          have hfits := fits_of_has hl
          rw [hlink] at hfits hc
          exact .inl (hcancelled (by rw [hfits.bracketLink hf hg]; exact hc))
      · obtain hrelease | ⟨f, rest, hold, -⟩ := hclaims
        · rw [hstack] at hrelease
          cases hrelease
        · cases hold.symm.trans hstack
      · obtain hclaims | hasks := hclaims.takes ht
        · exact .inr (.inr (.inr ⟨_, _, hnew, hclaims⟩))
        · refine .inr (.inl ?_)
          rw [deals_of_call hcall, if_pos hasks]
          exact Nat.succ_pos _

end Session

end CancelableEffects
