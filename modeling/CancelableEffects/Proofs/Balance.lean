import CancelableEffects.Proofs.Accounts

/-!
# Balance — a program leaves the tokens of its connection as it found them

* `Frame.kept`, `Session.pending`: the tokens that a loop has on the connection of its execution, for the
  brackets on its stack and for the boundary to which it has come.
* `Session.Balanced`: the connection of an execution has the tokens of its loop, newest first.
* `Undisturbed`: no code that was given a connection has used it.
* **`Session.balanced`**: such a connection is balanced until it is cancelled.
* **`Session.token_balance`**: a program that ends leaves the tokens as they were when it began, and
  whoever takes back a token finds it on top.
-/

namespace CancelableEffects

/-! ## The tokens of a loop -/

/-- The tokens that the frame keeps on the connection until it has received a result. -/
def Frame.kept (c : ConnectionId) (σ : Store) : Frame → List Token
  | .release g | .endBracket g _ => if σ.bracketLink g = some c then [.bracket g] else []
  | _ => []

/-- A value is on its way to the frames. -/
def Stage.gives : Stage → Bool
  | .looking (.result r) | .handing r => r.isOk
  | _ => false

theorem Frame.kept_of_bracket? {c : ConnectionId} {σ : Store} {fs : List Frame}
    (h : ∀ f ∈ fs, f.bracket? = none) : fs.flatMap (Frame.kept c σ) = [] := by
  rw [List.flatMap_eq_nil_iff]
  intro f hf
  cases f <;> first | rfl | exact nomatch h _ hf

theorem Store.Grows.bracketLink {σ σ' : Store} (h : σ.Grows σ') {g : BracketId} {br : Bracket}
    (hg : σ.bracket? g = some br) : σ'.bracketLink g = σ.bracketLink g := by
  obtain ⟨br', hg', hlike⟩ := h.bracket g br hg
  simp [Store.bracketLink, hg, hg', hlike.link]

/-- Frames of brackets that are there keep the same tokens. -/
theorem Frame.kept_grows {c : ConnectionId} {σ σ' : Store} (hσ : σ.Grows σ') {fs : List Frame}
    (h : ∀ f ∈ fs, ∀ g, f.bracket? = some g → ∃ br, σ.bracket? g = some br) :
    fs.flatMap (Frame.kept c σ') = fs.flatMap (Frame.kept c σ) := by
  refine List.flatMap_congr fun f hf => ?_
  cases f with
  | release g =>
    obtain ⟨br, hg⟩ := h _ hf g rfl
    simp only [Frame.kept, hσ.bracketLink hg]
  | endBracket g r =>
    obtain ⟨br, hg⟩ := h _ hf g rfl
    simp only [Frame.kept, hσ.bracketLink hg]
  | _ => rfl

namespace Session

variable {cs : List Choice} {c : ConnectionId}

/-- The token at the boundary to which the loop has come, or of the resource that its bracket is about
to use. -/
def pending (c : ConnectionId) (S : Session) (fs : List Frame) (s : Stage) : List Token :=
  match s, fs with
  | .leaving b, _ => S.owed c b
  | s, .use g _ :: _ => if s.gives ∧ S.store.bracketLink g = some c then [.bracket g] else []
  | _, _ => []

/-- The tokens that a loop has on the connection, newest first. -/
def holds (c : ConnectionId) (S : Session) (s : Stage) (fs : List Frame) : List Token :=
  S.pending c fs s ++ fs.flatMap (Frame.kept c S.store)

theorem pending_of_head {S : Session} {s : Stage} {fs : List Frame} (hs : ∀ b, s ≠ .leaving b)
    (h : ∀ g f rest, fs ≠ .use g f :: rest) : S.pending c fs s = [] := by
  unfold pending
  split
  · exact absurd rfl (hs _)
  · exact absurd rfl (h _ _ _)
  · rfl

theorem pending_of_free {S : Session} {s : Stage} {fs : List Frame} (h : Frame.Free fs)
    (hs : ∀ b, s ≠ .leaving b) : S.pending c fs s = [] :=
  pending_of_head hs fun g f rest hfs => by
    rw [hfs] at h
    exact h.1

/-- On top of the stack there is the same token at stages that bring the same. -/
theorem pending_congr {S S' : Session} {s s' : Stage} {fs : List Frame} (hs : ∀ b, s ≠ .leaving b)
    (hs' : ∀ b, s' ≠ .leaving b) (hgives : s'.gives = s.gives)
    (hlinks : ∀ f ∈ fs, ∀ g, f.bracket? = some g → S'.store.bracketLink g = S.store.bracketLink g) :
    S'.pending c fs s' = S.pending c fs s := by
  have huse : ∀ g f rest, fs = .use g f :: rest → S'.pending c fs s' = S.pending c fs s := by
    rintro g f rest rfl
    have hlink := hlinks _ (.head _) g rfl
    cases s <;> cases s' <;>
      first | exact absurd rfl (hs _) | exact absurd rfl (hs' _) | simp only [pending, hgives, hlink]
  cases fs with
  | nil => cases s <;> cases s' <;> first | exact absurd rfl (hs _) | exact absurd rfl (hs' _) | rfl
  | cons f rest =>
    cases f with
    | use g f => exact huse g f rest rfl
    | _ => cases s <;> cases s' <;> first | exact absurd rfl (hs _) | exact absurd rfl (hs' _) | rfl

/-- The frames of a loop keep the same tokens in a store that has grown. -/
theorem kept_of_has {s : Stage} {l : Loop} {σ : Store} (h : (after cs).Has s l)
    (hσ : (after cs).store.Grows σ) {fs : List Frame} (hfs : ∀ f ∈ fs, f ∈ l.stack) :
    fs.flatMap (Frame.kept c σ) = fs.flatMap (Frame.kept c (after cs).store) :=
  Frame.kept_grows hσ fun f hf g hg =>
    (brackets_under cs s l h f (hfs f hf) g hg).imp fun _ hbr => hbr.1

/-- A new boundary has no failed acquisition. -/
theorem deals_of_new {a : Activity} {next : Next} {others : List Activity}
    (ha : ∀ e g r, a ≠ .deliver e (.acquired g) r) :
    ((after cs).record (some a) next others).deals (after cs).store.boundaries.size (.acquires false) = 0 := by
  have h := acquisitions (after cs).store.boundaries.size cs
  rw [Store.terms_size] at h
  simp only [Option.isSome_none, Bool.false_eq_true, if_false] at h
  rw [deals_call, if_neg (deal_ne ha _)]
  omega

section Turn

variable {l : Loop} {S' : Session}

/-- A loop that looks at a node gives the tokens that it has to the boundary it opens. -/
theorem holds_looking {n : Node} (hcall : .work (.looking n) l ∈ (after cs).calls)
    (hc : (after cs).store.isCancelled l.link = false) (hunder : l.link.under l.stack = some c)
    (hmeddles : ¬(Activity.work (.looking n) l).Meddles c)
    (hold : (after cs).store.tokens c = (after cs).holds c (.looking n) l.stack)
    (hstore : S'.store = (n.step l.id l.link (after cs).store).store)
    (hnew : S'.deals (after cs).store.boundaries.size (.acquires false) = 0)
    (hactive : S'.store.isCancelled (some c) = false) :
    S'.store.tokens c = S'.holds c (n.step l.id l.link (after cs).store).stage
      ((n.step l.id l.link (after cs).store).frames ++ l.stack) := by
  have hkept : l.stack.flatMap (Frame.kept c S'.store) = l.stack.flatMap (Frame.kept c (after cs).store) :=
    kept_of_has (.inl hcall) (hstore ▸ n.step_grows l.id l.link (after cs).store) fun _ hf => hf
  by_cases hn : ∃ r, n = .result r
  · obtain ⟨r, rfl⟩ := hn
    have hpending : S'.pending c l.stack (.handing r) = (after cs).pending c l.stack (.looking (.result r)) :=
      pending_congr (by simp) (by simp) rfl fun f hf g hg => by rw [hstore]; rfl
    have hsame : S'.store.tokens c = (after cs).store.tokens c := by rw [hstore]; rfl
    rw [hsame, hold, holds, ← hpending, ← hkept]
    rfl
  have hfree : Frame.Free l.stack := by
    refine (bears cs _ l (.inl hcall)).free (by simp) (fun r hr => hn ⟨r, ?_⟩) (by simp)
    simpa using hr
  have htokens : (after cs).store.tokens c = l.stack.flatMap (Frame.kept c S'.store) := by
    rw [hold, holds, pending_of_free hfree (by simp), hkept, List.nil_append]
  have hoperates := n.step_operates l.id l.link (after cs).store
  rw [hstore] at hactive
  -- only the boundary that is opened has a token more
  have hsame : (∀ t, n.operation l.link (after cs).store ≠ some (some c, .push t)) →
      S'.store.tokens c = l.stack.flatMap (Frame.kept c S'.store) := by
    intro hpush
    rw [← htokens, hstore]
    refine hoperates.tokens_eq (fun op hop => ?_) hactive
    cases op with
    | push t => exact absurd hop (hpush t)
    | pop => exact absurd (Node.of_operation_pop hop) hmeddles
    | cancel => rfl
  have hframes : (n.step l.id l.link (after cs).store).frames.flatMap (Frame.kept c S'.store) = [] := by
    obtain hframes | ⟨acquire, use, release, rfl⟩ := n.step_frames l.id l.link (after cs).store
    · exact Frame.kept_of_bracket? hframes
    · rfl
  rw [holds, List.flatMap_append, hframes, List.nil_append]
  obtain ⟨hstays, hnone⟩ | ⟨hleaves, -, x, hx, ⟨hnone, hpledges⟩ | ⟨t, ht, hpledges⟩⟩ := n.step_pledges hc l.id
  · obtain hloose | ⟨acquire, use, release, rfl⟩ := n.step_frames l.id l.link (after cs).store
    · rw [pending_of_free (hfree.append (Frame.loose_of_bracket? hloose)) hstays]
      exact hsame fun t => hnone _ t
    · exact absurd rfl (hstays _)
  · rw [hleaves]
    refine (hsame (by simp [hnone])).trans ?_
    rw [pending, owed_of_not_pledges (hstore ▸ hx) (hpledges c), List.nil_append]
  · rw [hleaves]
    by_cases hlink : l.link = some c
    · rw [pending, owed_of_pledges (hstore ▸ hx) hnew ((hpledges c t).2 ⟨hlink, rfl⟩),
        List.singleton_append, ← htokens, hstore]
      have hop : n.operation l.link (after cs).store = some (some c, .push t) := hlink ▸ ht
      exact (hop ▸ hoperates).tokens_of_push (hlink ▸ hc) (under_lt (.inl hcall) hunder)
    · refine (hsame (by simp [ht, hlink])).trans ?_
      rw [pending, owed_of_not_pledges (hstore ▸ hx) fun t' h => hlink ((hpledges c t').1 h).1,
        List.nil_append]

/-- A frame that receives a result hands on the token of its bracket, or takes it back at the end. -/
theorem holds_handing {r : Result} {f : Frame} {fs : List Frame}
    (hcall : .work (.handing r) l ∈ (after cs).calls) (hstack : l.stack = f :: fs)
    (hold : (after cs).store.tokens c = (after cs).holds c (.handing r) l.stack)
    (hstore : S'.store = (f.resume r l.link (after cs).store).store)
    (hactive : S'.store.isCancelled (some c) = false) :
    S'.store.tokens c = S'.holds c (f.resume r l.link (after cs).store).stage
      ((f.resume r l.link (after cs).store).frames ++ fs) := by
  have hbears : (Stage.handing r).Bears (f :: fs) := hstack ▸ bears cs _ l (.inl hcall)
  have hgrows : (after cs).store.Grows S'.store := hstore ▸ f.resume_grows r l.link (after cs).store
  have hkept : fs.flatMap (Frame.kept c S'.store) = fs.flatMap (Frame.kept c (after cs).store) :=
    kept_of_has (.inl hcall) hgrows fun f' hf' => hstack ▸ .tail _ hf'
  -- no use of a bracket comes to the top of the stack
  have hpending : S'.pending c ((f.resume r l.link (after cs).store).frames ++ fs)
      (f.resume r l.link (after cs).store).stage = [] := by
    refine pending_of_head (f.resume_stays r l.link _) fun g u rest hfs => ?_
    obtain hframes | ⟨g', u', v, -, -, hframes⟩ | ⟨g', -, hframes⟩ :=
      f.resume_frames r l.link (after cs).store
    · cases hnew : (f.resume r l.link (after cs).store).frames with
      | nil =>
        rw [hnew, List.nil_append] at hfs
        exact (hfs ▸ hbears.2).1
      | cons f' gs =>
        rw [hnew] at hframes hfs
        cases hfs
        exact nomatch hframes _ (.head _)
    · simp [hframes] at hfs
    · simp [hframes] at hfs
  rw [hstack, holds, List.flatMap_cons, ← hkept] at hold
  rw [holds, hpending, List.nil_append, List.flatMap_append]
  have hoperates := f.resume_operates r l.link (after cs).store
  -- what stands in the place of the frame keeps what the frame had, if that is not taken back
  have hkeeps : (∀ t, f.withdrawal r (after cs).store ≠ some (some c, t)) →
      (after cs).pending c (f :: fs) (.handing r) ++ f.kept c (after cs).store =
        (f.resume r l.link (after cs).store).frames.flatMap (Frame.kept c S'.store) →
      S'.store.tokens c = (f.resume r l.link (after cs).store).frames.flatMap (Frame.kept c S'.store) ++
        fs.flatMap (Frame.kept c S'.store) := by
    intro hother hframes
    have hsame : S'.store.tokens c = (after cs).store.tokens c := by
      rw [hstore] at hactive ⊢
      refine hoperates.tokens_eq (fun op hop => ?_) hactive
      obtain ⟨⟨link, t⟩, ht, hop⟩ := Option.map_eq_some_iff.1 hop
      cases hop
      exact absurd ht (hother t)
    rw [hsame, hold, ← hframes, List.append_assoc]
  have hlink : ∀ g, f.bracket? = some g →
      S'.store.bracketLink g = (after cs).store.bracketLink g := fun g hg => by
    obtain ⟨br, hbr, -⟩ := brackets_under cs _ l (.inl hcall) f (hstack ▸ .head _) g hg
    exact hgrows.bracketLink hbr
  cases f with
  | use g u =>
    cases r with
    | ok v =>
      refine hkeeps (by simp [Frame.withdrawal]) ?_
      simp [Frame.resume, pending, Stage.gives, Frame.kept, hlink g rfl, Except.isOk, Except.toBool]
    | error e => exact hkeeps (by simp [Frame.withdrawal]) rfl
  | release g =>
    refine hkeeps (by simp [Frame.withdrawal]) ?_
    simp [Frame.resume, pending, Frame.kept, hlink g rfl]
  | endBracket g used =>
    -- the release comes to its end with a value, whether it failed or not
    obtain ⟨v, h | h⟩ := hbears.1 <;> cases h
    have hwithdrawal : (Frame.endBracket g used).withdrawal (.ok v) (after cs).store =
        some ((after cs).store.bracketLink g, .bracket g) := rfl
    by_cases hc : (after cs).store.bracketLink g = some c
    · rw [hwithdrawal, hc] at hoperates
      rw [hstore, hoperates.tokens_of_pop, hold, ← hstore, Frame.kept, if_pos hc]
      rfl
    · refine hkeeps (by simp [hwithdrawal, hc]) ?_
      rw [Frame.kept, if_neg hc]
      rfl
  | _ =>
    refine hkeeps (by simp [Frame.withdrawal]) ?_
    obtain hframes | ⟨g, u, v, h, -⟩ | ⟨g, h, -⟩ := Frame.resume_frames _ r l.link (after cs).store
    · exact (Frame.kept_of_bracket? hframes).symm
    · cases h
    · cases h

/-- A turn leaves on the connection the tokens that the loop has then. -/
theorem holds_turn {s : Stage} {t : Turn} {fs : List Frame} (hcall : .work s l ∈ (after cs).calls)
    (ht : l.Takes (after cs).store s t fs) (hunder : l.link.under l.stack = some c)
    (hmeddles : ¬(Activity.work s l).Meddles c)
    (hold : (after cs).store.tokens c = (after cs).holds c s l.stack) (hstore : S'.store = t.store)
    (hnew : S'.deals (after cs).store.boundaries.size (.acquires false) = 0)
    (hactive : S'.store.isCancelled (some c) = false) :
    S'.store.tokens c = S'.holds c t.stage (t.loop l fs).stack := by
  have hgrows : (after cs).store.Grows S'.store := hstore ▸ ht.grows
  -- code that does not use the connection changes nothing
  have hcode : ∀ {α : Type} {again : Code Prog α → Stage} {done : Except String α → Stage}
      {x : Code Prog α}, Frame.Free l.stack → (∀ b, s ≠ .leaving b) → ¬x.Pushes c →
      (∀ y b, again y ≠ .leaving b) → (∀ o b, done o ≠ .leaving b) →
      S'.store = (x.turn again done l.link (after cs).store).store →
      S'.store.tokens c = S'.holds c (x.turn again done l.link (after cs).store).stage l.stack := by
    intro α again done x hfree hs hpushes hagain hdone hstore
    have hsame : S'.store.tokens c = (after cs).store.tokens c := by
      rw [hstore] at hactive ⊢
      exact (x.move_operates (after cs).store).tokens_eq
        (fun op hop => absurd (Code.of_operation hop).1 hpushes) hactive
    rw [hsame, hold, holds, holds, pending_of_free hfree hs,
      pending_of_free hfree (x.turn_stays hagain hdone l.link _),
      kept_of_has (.inl hcall) hgrows fun _ hf => hf]
  have hfree := (bears cs s l (.inl hcall)).free
  cases ht with
  | looking n hc => exact holds_looking hcall hc hunder hmeddles hold hstore hnew hactive
  | handing r f fs hstack => exact holds_handing hcall hstack hold hstore hactive
  | delaying x =>
    exact hcode (hfree (by simp) (by simp) (by simp)) (by simp) hmeddles (by simp)
      (by rintro (m | r) b <;> simp [Stage.delayed]) hstore
  | suspending x =>
    exact hcode (hfree (by simp) (by simp) (by simp)) (by simp) hmeddles (by simp)
      (by rintro (m | p) b <;> simp [Stage.suspended]) hstore
  | mapping x =>
    exact hcode (hfree (by simp) (by simp) (by simp)) (by simp) hmeddles (by simp)
      (by rintro (m | v) b <;> simp [Stage.mapped]) hstore

end Turn

section Stays

variable {s : Stage} {l : Loop} {b : BoundaryId} {r : Result} {S' : Session}

/-- A loop comes to the boundary of a bracket with the use of that bracket on top of its stack. -/
theorem stands (h : (after cs).Has (.leaving b) l) :
    (after cs).store.KeptOtherwise b ∨ ∃ f fs, l.stack = .use b f :: fs := by
  obtain h | ⟨b', hb, hl⟩ := h
  · exact ((fits cs).2 _ h).1
  · cases hb
    exact ((fits cs).1.parked b l hl).1

/-- The boundary to which a loop has come is there. -/
theorem keeper_of_has (h : (after cs).Has (.leaving b) l) :
    ∃ x, (after cs).store.keeper? b = some x := by
  obtain ⟨x, hx, -⟩ | ⟨f, fs, hstack⟩ := stands h
  · exact ⟨x, hx⟩
  · obtain ⟨br, hbr, -⟩ := brackets_under cs _ l h (.use b f) (hstack ▸ .head _) b rfl
    exact ⟨_, Store.bracket?_eq_some.1 hbr⟩

theorem links_of_has (h : (after cs).Has s l) (hgrows : (after cs).store.Grows S'.store) :
    ∀ f ∈ l.stack, ∀ g, f.bracket? = some g →
      S'.store.bracketLink g = (after cs).store.bracketLink g := fun f hf g hg => by
  obtain ⟨br, hbr, -⟩ := brackets_under cs s l h f hf g hg
  exact hgrows.bracketLink hbr

/-- A loop that stays where it is has the same tokens, but for what happens to its boundary. -/
theorem holds_stays (h : (after cs).Has s l) (hgrows : (after cs).store.Grows S'.store)
    (howed : ∀ b, s = .leaving b → S'.owed c b = (after cs).owed c b) :
    S'.holds c s l.stack = (after cs).holds c s l.stack := by
  have hpending : S'.pending c l.stack s = (after cs).pending c l.stack s := by
    by_cases hs : ∃ b, s = .leaving b
    · obtain ⟨b, rfl⟩ := hs
      exact howed b rfl
    · have hs' : ∀ b, s ≠ .leaving b := fun b hb => hs ⟨b, hb⟩
      exact pending_congr hs' hs' rfl (links_of_has h hgrows)
  rw [holds, holds, hpending, kept_of_has h hgrows fun _ hf => hf]

/-- A loop that goes on has the token that its boundary had: that of a bracket whose resource it is
about to use. -/
theorem pending_of_answers (h : (after cs).Has (.leaving b) l) (hanswers : (after cs).Answers b r)
    (hgrows : (after cs).store.Grows S'.store)
    (hactive : (after cs).store.isCancelled (some c) = false) :
    S'.pending c l.stack (.looking (.result r)) = (after cs).owed c b := by
  have hother : ∀ br, (after cs).store.bracket? b = some br →
      (after cs).store.isCancelled br.link = true → br.link ≠ some c := fun br _ hc hlink => by
    cases hactive.symm.trans (hlink ▸ hc)
  obtain ⟨x, hx, hkept⟩ | ⟨f, fs, hstack⟩ := stands h
  · -- at any other boundary nothing is left
    have hbr : ∀ br, (after cs).store.bracket? b ≠ some br := fun br hbr => by
      cases hx.symm.trans (Store.bracket?_eq_some.1 hbr)
      exact hkept br rfl
    have howed : (after cs).owed c b = [] := by
      obtain (hsettled | ⟨br, h, -⟩) | ⟨⟨br, h⟩, -⟩ := hanswers
      · exact owed_of_settled hsettled
      · exact absurd h (hbr br)
      · exact absurd h (hbr br)
    rw [howed]
    refine pending_of_head (by simp) fun g f fs hstack => ?_
    have hbears : (Stage.leaving b).Bears (.use g f :: fs) := hstack ▸ bears cs _ l h
    obtain hg | ⟨r', hg | hg⟩ := hbears.1
    · cases hg
      obtain ⟨br, h, -⟩ := brackets_under cs _ l h (.use b f) (hstack ▸ .head _) b rfl
      exact hbr br h
    · cases hg
    · cases hg
  · obtain ⟨br, hbr, -⟩ := brackets_under cs _ l h (.use b f) (hstack ▸ .head _) b rfl
    have hlink : S'.store.bracketLink b = br.link := by
      rw [hgrows.bracketLink hbr]
      simp [Store.bracketLink, hbr]
    simp only [hstack, pending, Stage.gives, hlink, owed, hbr]
    obtain (hsettled | ⟨br', hbr', hc⟩) | ⟨-, hdeals⟩ := hanswers
    · cases hsettled.bracket?.symm.trans hbr
    · cases hbr.symm.trans hbr'
      simp [hother br hbr hc]
    · -- the acquisition has ended once, with or without a resource
      have hone := acquisitions b cs
      have hterms : ((after cs).store.terms b).isSome := by simp [Store.terms, hbr]
      rw [if_pos hterms] at hone
      cases hr : r.isOk with
      | true =>
        rw [hr] at hdeals
        have hzero : (after cs).deals b (.acquires false) = 0 := by omega
        simp [hzero]
      | false =>
        rw [hr] at hdeals
        simp [Nat.pos_iff_ne_zero.1 hdeals]

end Stays

end Session

/-! ## Undisturbed connections -/

/-- With this choice, code that was given the connection uses it. -/
def Choice.Meddles (c : ConnectionId) (S : Session) : Choice → Prop
  | .call place => ∃ a, S.calls[place]? = some a ∧ a.Meddles c
  | .input i => i.Meddles c

/-- Nobody uses the connection but the machine: so it is when no program hands it to code. -/
def Undisturbed (c : ConnectionId) : List Choice → Prop
  | [] => True
  | x :: cs => ¬x.Meddles c (Session.after cs) ∧ Undisturbed c cs

instance Choice.decidableMeddles (c : ConnectionId) (S : Session) :
    ∀ x : Choice, Decidable (x.Meddles c S)
  | .call place =>
    match h : S.calls[place]? with
    | some a => if hm : a.Meddles c then isTrue ⟨a, h, hm⟩ else
        isFalse fun ⟨_, h', hm'⟩ => hm (Option.some.inj (h.symm.trans h') ▸ hm')
    | none => isFalse fun ⟨_, h', _⟩ => nomatch h.symm.trans h'
  | .input i => inferInstanceAs (Decidable (i.Meddles c))

instance Undisturbed.decidable (c : ConnectionId) : ∀ cs : List Choice, Decidable (Undisturbed c cs)
  | [] => isTrue trivial
  | _ :: cs => @instDecidableAnd _ _ _ (Undisturbed.decidable c cs)

theorem Undisturbed.of_append {c : ConnectionId} {cs cs₀ : List Choice} (h : Undisturbed c (cs ++ cs₀)) :
    Undisturbed c cs₀ := by
  induction cs with
  | nil => exact h
  | cons x cs ih => exact ih h.2

namespace Session

variable {cs : List Choice} {c : ConnectionId} {a : Activity} {place : Nat} {s : Stage} {l : Loop}

/-- Nobody pops the tokens of an undisturbed connection. -/
theorem not_popped (h : Undisturbed c cs) {m : Moment} (hm : m ∈ (after cs).past) (l : Loop) :
    m.call ≠ some (.work (.looking (.program (.pop (some c)))) l) := by
  intro hl
  induction cs with
  | nil => exact List.not_mem_nil hm
  | cons x cs ih =>
    obtain hsame | ⟨m', hm'⟩ := made_or cs x
    · exact ih h.2 (hsame ▸ hm)
    rw [hm'.past] at hm
    obtain _ | ⟨_, hm⟩ := hm
    · obtain ⟨i, -, hnone, -⟩ | ⟨place, a, rfl, ha, hsome, -⟩ := hm'.how
      · cases hnone.symm.trans hl
      · cases hsome.symm.trans hl
        exact h.1 ⟨_, ha, rfl⟩
    · exact ih h.2 hm

theorem not_drawn (h : Undisturbed c cs) (hactive : (after cs).store.isCancelled (some c) = false) :
    ¬(after cs).Drawn c := by
  rintro (hc | ⟨m, hm, l, hl⟩)
  · cases hactive.symm.trans hc
  · exact not_popped h hm l hl

/-! ## Balance -/

/-- The connection has the tokens of the loop whose execution runs under it, and the loop waits at every
boundary that is open on it. -/
structure Balanced (c : ConnectionId) (S : Session) : Prop where
  held : ∀ s l, S.Has s l → l.link.under l.stack = some c → S.store.tokens c = S.holds c s l.stack
  idle : (∀ s l, S.Has s l → l.link.under l.stack ≠ some c) → S.store.tokens c = []
  waits : ∀ b, S.Awaits c b → ∃ l, S.Has (.leaving b) l ∧ l.link = some c

/-- The connection that a loop has is that of its execution. -/
theorem under_of_link (h : (after cs).Has s l) (hlink : l.link = some c) :
    l.link.under l.stack = some c := by
  obtain hnone | hunder := (fits_of_has h).link_cases
  · cases hlink.symm.trans hnone
  · exact hunder.symm.trans hlink

/-- An execution keeps its connection. -/
theorem under_of_id {s₀ : Stage} {l₀ : Loop} (h₀ : (after cs).Has s₀ l₀) (cs' : List Choice)
    (h : (after (cs' ++ cs)).Has s l) (hid : l.id = l₀.id) :
    l.link.under l.stack = l₀.link.under l₀.stack :=
  follow (P := fun _ _ l => l.link.under l.stack = l₀.link.under l₀.stack) h₀ rfl (fun _ h => h)
    (fun _ _ h ht => ht.under.trans h) (fun _ h => h) cs' s l h hid

section Effect

variable {S' : Session}

/-- The loop of the connection waits at every boundary that is open on it. -/
theorem Balanced.of_awaits {b : BoundaryId} (h : (after cs).Balanced c) (hb : (after cs).Awaits c b)
    (hl : (after cs).Has s l) (hunder : l.link.under l.stack = some c) : s = .leaving b := by
  obtain ⟨l', hl', hlink⟩ := h.waits b hb
  exact (has_unique_under hl' hl (under_of_link hl' hlink) hunder).1

/-- While it stays where it is, a loop has the tokens on its connection. -/
theorem Balanced.stays (h : (after cs).Balanced c) (heffect : Effect c (after cs) S')
    (hgrows : (after cs).store.Grows S'.store) (hl : (after cs).Has s l)
    (hunder : l.link.under l.stack = some c) : S'.store.tokens c = S'.holds c s l.stack := by
  have hkept : l.stack.flatMap (Frame.kept c S'.store) = l.stack.flatMap (Frame.kept c (after cs).store) :=
    kept_of_has hl hgrows fun _ hf => hf
  have hold := h.held s l hl hunder
  cases heffect with
  | apart htokens howed =>
    rw [htokens, hold, holds_stays hl hgrows fun b hs => ?_]
    subst hs
    obtain ⟨x, hx⟩ := keeper_of_has hl
    exact howed b x hx
  | returns b t hawaits howed htokens hafter =>
    obtain rfl := h.of_awaits hawaits hl hunder
    rw [htokens, hold, holds, holds, pending, pending, howed, hafter, hkept]
    rfl
  | pledges b t hawaits howed htokens hafter =>
    obtain rfl := h.of_awaits hawaits hl hunder
    rw [htokens (under_lt hl hunder), hold, holds, holds, pending, pending, howed, hafter, hkept]
    rfl

/-- When it goes on from a boundary, a loop has the tokens on its connection. -/
theorem Balanced.goesOn {b : BoundaryId} {r : Result} (h : (after cs).Balanced c)
    (heffect : Effect c (after cs) S') (hgrows : (after cs).store.Grows S'.store)
    (hl : (after cs).Has (.leaving b) l) (hunder : l.link.under l.stack = some c)
    (hanswers : (after cs).Answers b r) (hactive : (after cs).store.isCancelled (some c) = false) :
    S'.store.tokens c = S'.holds c (.looking (.result r)) l.stack := by
  have hclosed : ∀ b', ¬(after cs).Awaits c b' := fun b' hawaits => by
    cases h.of_awaits hawaits hl hunder
    exact hanswers.not_awaits hactive hawaits
  cases heffect with
  | apart htokens howed =>
    rw [htokens, h.held _ l hl hunder, holds, holds, pending_of_answers hl hanswers hgrows hactive,
      kept_of_has hl hgrows fun _ hf => hf]
    rfl
  | returns b' t hawaits => exact absurd hawaits (hclosed b')
  | pledges b' t hawaits => exact absurd hawaits (hclosed b')

/-- A connection without a loop gets no tokens. -/
theorem Balanced.rests (h : (after cs).Balanced c) (heffect : Effect c (after cs) S')
    (hnone : ∀ s l, (after cs).Has s l → l.link.under l.stack ≠ some c) : S'.store.tokens c = [] := by
  have hclosed : ∀ b, ¬(after cs).Awaits c b := fun b hawaits => by
    obtain ⟨l, hl, hlink⟩ := h.waits b hawaits
    exact hnone _ l hl (under_of_link hl hlink)
  cases heffect with
  | apart htokens howed => rw [htokens, h.idle hnone]
  | returns b t hawaits => exact absurd hawaits (hclosed b)
  | pledges b t hawaits => exact absurd hawaits (hclosed b)

end Effect

/-- What the outside world does leaves an undisturbed connection balanced. -/
theorem Balanced.input (h : (after cs).Balanced c) {i : Input} (hmeddles : ¬i.Meddles c)
    (hactive : (i.step (after cs).store).1.isCancelled (some c) = false) :
    ((after cs).record none (i.step (after cs).store) (after cs).calls).Balanced c := by
  let S' := (after cs).record none (i.step (after cs).store) (after cs).calls
  have htokens : S'.store.tokens c = (after cs).store.tokens c :=
    (i.step_operates _).tokens_eq (fun op hop => absurd (Input.of_operation hop).1 hmeddles) hactive
  have hkeeper : ∀ b, S'.store.keeper? b = (after cs).store.keeper? b := (i.step_does _).keeper?
  have hbracket : ∀ b, S'.store.bracket? b = (after cs).store.bracket? b := fun b => by
    rw [Store.bracket?, Store.bracket?, hkeeper]
  have howes : ∀ b, S'.store.owes c b = (after cs).store.owes c b := fun b => by
    rw [Store.owes, Store.owes, hkeeper]
  have hdeals : ∀ b ok, S'.deals b (.acquires ok) = (after cs).deals b (.acquires ok) := fun b ok =>
    deals_input (by simp)
  have howed : ∀ b, S'.owed c b = (after cs).owed c b := fun b => by
    simp only [owed, hbracket, howes, hdeals]
  have hhas : ∀ {s l}, S'.Has s l → (after cs).Has s l := fun h =>
    h.of_aside (i.step_aside _) fun _ ha => ha
  have hhas' : ∀ {s l}, (after cs).Has s l → S'.Has s l := by
    rintro s l (h | ⟨b, hs, hl⟩)
    · exact .inl (List.mem_append_right _ h)
    · exact .inr ⟨b, hs, ((i.step_aside _).boundary? b).trans hl⟩
  refine ⟨fun s l hl hunder => ?_, fun hnone => ?_, fun b hb => ?_⟩
  · exact h.stays (.apart htokens fun b _ _ => howed b) (i.step_grows _) (hhas hl) hunder
  · exact htokens.trans (h.idle fun s l hl => hnone s l (hhas' hl))
  · have hb' : (after cs).Awaits c b := by
      cases hb with
      | owes t ht => exact .owes t ((howes b).symm.trans ht)
      | acquires br hbr hlink hnever =>
        exact .acquires br ((hbracket b).symm.trans hbr) hlink fun ok => (hdeals b ok).symm.trans (hnever ok)
      | ties hm => exact .ties (matters_input _ i ▸ hm)
    obtain ⟨l, hl, hlink⟩ := h.waits b hb'
    exact ⟨l, hhas' hl, hlink⟩

theorem exists_of_place (ha : (after cs).calls[place]? = some a) : ∃ xs ys,
    (after cs).calls = xs ++ a :: ys ∧
      after (.call place :: cs) = (after cs).record (some a) (a.step (after cs).store) (xs ++ ys) := by
  obtain ⟨hlt, rfl⟩ := List.getElem?_eq_some_iff.1 ha
  refine ⟨(after cs).calls.take place, (after cs).calls.drop (place + 1), ?_, ?_⟩
  · rw [← List.drop_eq_getElem_cons hlt, List.take_append_drop]
  · rw [← List.eraseIdx_eq_take_drop_succ]
    exact step_call ha

/-- Whatever a call does, loops wait at the boundaries that are open. -/
theorem Balanced.waits_call (h : (after cs).Balanced c) (ha : (after cs).calls[place]? = some a)
    (hactive : (after cs).store.isCancelled (some c) = false) {b : BoundaryId}
    (hb : (after (.call place :: cs)).Awaits c b) :
    ∃ l, (after (.call place :: cs)).Has (.leaving b) l ∧ l.link = some c := by
  obtain ⟨xs, ys, hS, hnext⟩ := exists_of_place ha
  obtain hold | ⟨n, l, rfl, hc, hlink, hleaves⟩ := awaits_call hS (hnext ▸ hb)
  · -- the loop does not go on from a boundary that is open
    obtain ⟨l, hl, hlink⟩ := h.waits b hold
    obtain hstill | ⟨r, -, hanswers⟩ := leaves hl (.call place)
    · exact ⟨l, hstill, hlink⟩
    · exact absurd hold (hanswers.not_awaits hactive)
  · have hnew := work_of_takes ha (.looking n hc)
    rw [hleaves] at hnew
    refine ⟨_, .inl hnew, ?_⟩
    obtain ⟨hstays, -⟩ | ⟨-, hsame, -⟩ := n.step_pledges hc l.id
    · exact absurd hleaves (hstays b)
    · exact hsame.trans hlink

/-- A turn of its loop leaves a connection balanced. -/
theorem Balanced.turn {t : Turn} {fs : List Frame} (h : (after cs).Balanced c)
    (hcall : (after cs).calls[place]? = some (.work s l)) (ht : l.Takes (after cs).store s t fs)
    (hunder : l.link.under l.stack = some c) (hmeddles : ¬(Activity.work s l).Meddles c)
    (hactive : (after (.call place :: cs)).store.isCancelled (some c) = false) :
    (after (.call place :: cs)).store.tokens c =
      (after (.call place :: cs)).holds c t.stage (t.loop l fs).stack := by
  have hmem := List.mem_of_getElem? hcall
  obtain ⟨xs, ys, hS, hnext⟩ := exists_of_place hcall
  rw [hnext] at hactive ⊢
  refine holds_turn hmem ht hunder hmeddles (h.held s l (.inl hmem) hunder) ?_ (deals_of_new (by simp)) hactive
  rw [record_store, Activity.step, ht.step]

/-- A call leaves an undisturbed connection balanced. -/
theorem Balanced.call (h : (after cs).Balanced c) (ha : (after cs).calls[place]? = some a)
    (hmeddles : ¬a.Meddles c) (hdrawn : ¬(after cs).Drawn c)
    (hactive : (after (.call place :: cs)).store.isCancelled (some c) = false) :
    (after (.call place :: cs)).Balanced c := by
  have hgrows : (after cs).store.Grows (after (.call place :: cs)).store := after_grows cs [.call place]
  have hactive₀ : (after cs).store.isCancelled (some c) = false := by
    rw [← Bool.not_eq_true] at hactive ⊢
    exact fun hc => hactive (hgrows.cancelled _ hc)
  have hwaits : ∀ b, (after (.call place :: cs)).Awaits c b →
      ∃ l, (after (.call place :: cs)).Has (.leaving b) l ∧ l.link = some c := fun b hb =>
    h.waits_call ha hactive₀ hb
  by_cases hturn : ∃ s l t fs, a = .work s l ∧ l.Takes (after cs).store s t fs ∧
      l.link.under l.stack = some c
  · obtain ⟨s, l, t, fs, rfl, ht, hunder⟩ := hturn
    have hl : (after (.call place :: cs)).Has t.stage (t.loop l fs) := .inl (work_of_takes ha ht)
    have hunder' : (t.loop l fs).link.under (t.loop l fs).stack = some c := ht.under.trans hunder
    refine ⟨fun s' l' hl' hunder'' => ?_, fun hnone => absurd hunder' (hnone _ _ hl), hwaits⟩
    obtain ⟨rfl, rfl⟩ := has_unique_under hl hl' hunder' hunder''
    exact h.turn ha ht hunder hmeddles hactive
  have hother : ∀ s l t fs, a = .work s l → l.Takes (after cs).store s t fs →
      l.link.under l.stack ≠ some c := fun s l t fs ha ht hunder => hturn ⟨s, l, t, fs, ha, ht, hunder⟩
  have heffect : Effect c (after cs) (after (.call place :: cs)) := by
    obtain ⟨xs, ys, hS, hnext⟩ := exists_of_place ha
    rw [hnext] at hactive ⊢
    exact effect hS hmeddles hdrawn hactive hother
  refine ⟨fun s l hl hunder => ?_, fun hnone => ?_, hwaits⟩
  · have hl' : ((after cs).step (.call place)).Has s l := hl
    cases hl'.moves with
    | stays hstays => exact h.stays heffect hgrows hstays hunder
    | begins place' n link k hx hcall hs hl₀ =>
      cases hx
      cases ha.symm.trans hcall
      subst hs hl₀
      -- the connection was for no other execution
      rw [h.rests heffect fun s₀ l₀ h₀ hunder₀ => ?_]
      · rfl
      obtain ⟨s₁, h₁, -⟩ := has_other (x := .call place) h₀ fun place' s' l' hx hcall' _ => by
        cases hx
        cases hcall.symm.trans hcall'
      obtain ⟨-, rfl⟩ := has_unique_under h₁ hl hunder₀ hunder
      exact absurd (lt_executions h₀) (Nat.lt_irrefl _)
    | turns place' s₀ l₀ t fs hx hcall ht hs hl₀ =>
      cases hx
      cases ha.symm.trans hcall
      subst hl₀
      exact absurd (ht.under.symm.trans hunder) (hother s₀ l₀ t fs rfl ht)
    | goesOn place' b r hx hcall hready hs =>
      subst hs
      exact h.goesOn heffect hgrows (.inl (List.mem_of_getElem? hcall)) hunder
        ((orderly cs).ready b r hready) hactive₀
    | wakes place' b r hx hcall hparked hs =>
      subst hs
      exact h.goesOn heffect hgrows (.inr ⟨b, rfl, hparked⟩) hunder
        ((orderly cs).completes b r (List.mem_flatMap.2 ⟨_, List.mem_of_getElem? hcall, .head _⟩)) hactive₀
  · by_cases hsome : ∃ s l, (after cs).Has s l ∧ l.link.under l.stack = some c
    · obtain ⟨s, l, hl, hunder⟩ := hsome
      obtain ⟨s', l', hl', hid⟩ | ⟨place', hx, hcall, ⟨n, rfl, hc⟩ | ⟨r, rfl, hstack⟩⟩ :=
        has_next hl (.call place)
      · exact absurd ((under_of_id hl [.call place] hl' hid).trans hunder) (hnone s' l' hl')
      · -- only a cancelled execution is stopped
        obtain hlink | hlink := (fits_of_has hl).link_cases
        · rw [hlink] at hc
          cases hc
        · cases hactive₀.symm.trans (hunder ▸ hlink ▸ hc)
      · rw [h.stays heffect hgrows hl hunder, holds, hstack]
        rfl
    · exact h.rests heffect fun s l hl hunder => hsome ⟨s, l, hl, hunder⟩

/-- **An undisturbed connection is balanced** until it is cancelled. -/
theorem balanced (cs : List Choice) (h : Undisturbed c cs)
    (hactive : (after cs).store.isCancelled (some c) = false) : (after cs).Balanced c := by
  induction cs with
  | nil =>
    have hnone : ∀ s l, ¬(after []).Has s l := by simp [Has, after, Store.boundary?]
    refine ⟨fun s l hl => absurd hl (hnone s l), fun _ => rfl, fun b hb => ?_⟩
    cases hb with
    | owes t ht => cases ht
    | acquires br hbr => cases hbr
    | ties hm => exact (List.not_mem_nil hm).elim
  | cons x cs ih =>
    have hactive₀ : (after cs).store.isCancelled (some c) = false := by
      rw [← Bool.not_eq_true] at hactive ⊢
      exact fun hc => hactive ((after_grows cs [x]).cancelled _ hc)
    have hbalanced := ih h.2 hactive₀
    cases x with
    | input i => exact hbalanced.input h.1 hactive
    | call place =>
      cases ha : (after cs).calls[place]? with
      | none =>
        have hsame : after (.call place :: cs) = after cs := by
          change (after cs).step (.call place) = after cs
          simp only [step, ha]
        rwa [hsame]
      | some a => exact hbalanced.call ha (fun hm => h.1 ⟨a, ha, hm⟩) (not_drawn h.2 hactive₀) hactive

/-- Whoever takes back a token from a balanced connection finds it on top. -/
theorem Balanced.withdraws (h : (after cs).Balanced c) (hcall : a ∈ (after cs).calls) {t : Token}
    (ht : a.withdrawal (after cs).store = some (some c, t)) :
    ∃ ts, (after cs).store.tokens c = t :: ts ∧ (a.step (after cs).store).1.tokens c = ts := by
  have htop : ∃ ts, (after cs).store.tokens c = t :: ts := by
    obtain ⟨b, hawaits, howed⟩ | ⟨v, l, g, used, fs, rfl, hstack, hlink, rfl⟩ := of_withdrawal hcall ht
    · obtain ⟨l, hl, hlink⟩ := h.waits b hawaits
      refine ⟨l.stack.flatMap (Frame.kept c (after cs).store), ?_⟩
      rw [h.held _ l hl (under_of_link hl hlink), holds, pending, howed]
      rfl
    · obtain ⟨br, hbr, hunder⟩ := brackets_under cs _ l (.inl hcall) (.endBracket g used)
        (hstack ▸ .head _) g rfl
      obtain ⟨br', hbr', hc⟩ := Option.bind_eq_some_iff.1 hlink
      cases hbr.symm.trans hbr'
      have hunder : l.link.under l.stack = some c := by
        obtain hnone | hunder := hunder
        · cases hc.symm.trans hnone
        · exact hunder.symm.trans hc
      refine ⟨fs.flatMap (Frame.kept c (after cs).store), ?_⟩
      rw [h.held _ l (.inl hcall) hunder, holds, hstack, List.flatMap_cons, Frame.kept, if_pos hlink]
      rfl
  obtain ⟨ts, hts⟩ := htop
  have hoperates := a.step_operates (after cs).store
  rw [Activity.operation_of_withdrawal ht] at hoperates
  exact ⟨ts, hts, by rw [hoperates.tokens_of_pop, hts]; rfl⟩

/-- **Token balance.** Take a connection that no code has used and that has not been cancelled. When a
program that was started on it has ended with a result, the tokens are those that were there when it
began, in the same order; and whoever takes back the token of a step, a bracket, a fork or a duel finds
that token on top. -/
theorem token_balance (c : ConnectionId) (cs₀ cs : List Choice) (hundisturbed : Undisturbed c (cs ++ cs₀))
    (hactive : (after (cs ++ cs₀)).store.isCancelled (some c) = false) :
    (∀ p l₀ r l, (after cs₀).Has (.looking (.program p)) l₀ → l₀.link = some c →
      (after (cs ++ cs₀)).Has (.handing r) l → l.id = l₀.id → l.stack = l₀.stack →
        (after (cs ++ cs₀)).store.tokens c = (after cs₀).store.tokens c) ∧
      ∀ a ∈ (after (cs ++ cs₀)).calls, ∀ t,
        a.withdrawal (after (cs ++ cs₀)).store = some (some c, t) →
          ∃ ts, (after (cs ++ cs₀)).store.tokens c = t :: ts ∧
            (a.step (after (cs ++ cs₀)).store).1.tokens c = ts := by
  have hgrows : (after cs₀).store.Grows (after (cs ++ cs₀)).store := after_grows cs₀ cs
  have hactive₀ : (after cs₀).store.isCancelled (some c) = false := by
    rw [← Bool.not_eq_true] at hactive ⊢
    exact fun hc => hactive (hgrows.cancelled _ hc)
  have hbefore : (after cs₀).Balanced c := balanced cs₀ hundisturbed.of_append hactive₀
  have hafter : (after (cs ++ cs₀)).Balanced c := balanced (cs ++ cs₀) hundisturbed hactive
  refine ⟨fun p l₀ r l h₀ hlink h hid hstack => ?_, fun a ha t ht => hafter.withdraws ha ht⟩
  have hunder₀ : l₀.link.under l₀.stack = some c := under_of_link h₀ hlink
  have hunder : l.link.under l.stack = some c := (under_of_id h₀ cs h hid).trans hunder₀
  -- under a program there is no bracket about to be used
  have hfree : Frame.Free l₀.stack := (bears cs₀ _ l₀ h₀).free (by simp) (by simp) (by simp)
  rw [hafter.held _ l h hunder, hbefore.held _ l₀ h₀ hunder₀, holds, holds, hstack,
    pending_of_free hfree (by simp), pending_of_free hfree (by simp), kept_of_has h₀ hgrows fun _ hf => hf]

/-- A bracket whose resource is used by a race, up to some step of its run. -/
def raceInUse (steps : Nat) : List Choice :=
  List.replicate steps (.call 0) ++ [.input (.run (.bracket (.pure .unit)
    (fun _ => .ret (.race (.pure .unit) (.pure .unit) .immediate))
    (.call fun _ _ => .ret (.pure .unit))) none true)]

/-- The race begins after 12 steps and ends after 33; after 17 its first side takes the token back. -/
theorem token_balance_of_race :
    (Undisturbed 0 (raceInUse 33) ∧ (after (raceInUse 33)).store.isCancelled (some 0) = false ∧
        (after (raceInUse 12)).store.tokens 0 = [.bracket 0] ∧
        (after (raceInUse 33)).store.tokens 0 = (after (raceInUse 12)).store.tokens 0) ∧
      Undisturbed 0 (raceInUse 17) ∧ (after (raceInUse 17)).store.isCancelled (some 0) = false ∧
        ∃ a ∈ (after (raceInUse 17)).calls, ∃ ts,
          (after (raceInUse 17)).store.tokens 0 = .connections (some 1) (some 2) :: ts ∧
            (a.step (after (raceInUse 17)).store).1.tokens 0 = ts := by
  have hundisturbed : Undisturbed 0 (raceInUse 33) := by decide +kernel
  have hundisturbed' : Undisturbed 0 (raceInUse 17) := by decide +kernel
  have hactive : (after (raceInUse 33)).store.isCancelled (some 0) = false := by decide +kernel
  have hactive' : (after (raceInUse 17)).store.isCancelled (some 0) = false := by decide +kernel
  obtain ⟨hends, -⟩ := token_balance 0 (raceInUse 12) (List.replicate 21 (.call 0)) hundisturbed hactive
  obtain ⟨-, hwithdraws⟩ := token_balance 0 (raceInUse 12) (List.replicate 5 (.call 0)) hundisturbed' hactive'
  refine ⟨⟨hundisturbed, hactive, rfl, hends _ _ _ _ (.inl List.mem_cons_self) rfl
    (.inl List.mem_cons_self) rfl rfl⟩, hundisturbed', hactive', ?_⟩
  exact ⟨_, List.mem_cons_self, hwithdraws _ List.mem_cons_self _ rfl⟩

end Session

end CancelableEffects
