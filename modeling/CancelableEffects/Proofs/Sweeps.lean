import CancelableEffects.Proofs.Loops
import CancelableEffects.Proofs.Tokens

/-!
# Sweeps — a cancellation comes to its next token when the bracket of the last one is over

* `Tending`: what a loop does for the token of a bracket that a cancellation has come to.
* `Tending.node`, `Tending.hand`, `Tending.resumed`: its steps.
* `Node.sweep_frames`, `Frame.sweep_frames`: a cancellation comes to its first token, and to the next
  one.
* `Sweeping`: how far a loop has come with some tokens.
* **`Session.tends`**: a loop in which a cancellation has come to the token of a bracket does nothing
  else until the gate of that bracket is open.
-/

namespace CancelableEffects

/-! ## What is done for a token -/

/-- What a loop does, without a connection, for the token of a bracket, with the frames `above` the
rest of the cancellation: it runs the release if nobody has taken that, and then opens the gate, or
waits at the gate. -/
inductive Tending (σ : Store) (g : BracketId) : Stage → List Frame → Prop
  | begins : Tending σ g (.looking (.token (.bracket g))) []
  | releases (v : Value) (x : ExitCase) : Tending σ g (.looking (.release g v x)) []
  | comes : Tending σ g (.looking (.gate g)) []
  | waits (b : BoundaryId) (st : Step) (hs : σ.step? b = some st) (hsource : st.source = .gate g)
    (hlink : st.link = none) : Tending σ g (.leaving b) []
  | runs (s : Stage) (above : List Frame) :
    Tending σ g s (above ++ [.attempt, .openGate g, .restore none])
  | ended (v : Value) : Tending σ g (.looking (.result (.ok v))) [.openGate g, .restore none]
  | opens (v : Value) : Tending σ g (.handing (.ok v)) [.openGate g, .restore none]
  | passes (r : Result) (h : σ.Over g) : Tending σ g (.looking (.result r)) [.restore none]
  | restores (r : Result) (h : σ.Over g) : Tending σ g (.handing r) [.restore none]
  | rests (r : Result) (h : σ.Over g) : Tending σ g (.looking (.result r)) []
  | hands (r : Result) (h : σ.Over g) : Tending σ g (.handing r) []

section Tending

variable {σ σ' : Store} {g : BracketId} {s : Stage} {above : List Frame}

theorem Tending.grows (h : Tending σ g s above) (hσ : σ.Grows σ') : Tending σ' g s above := by
  cases h with
  | begins => exact .begins
  | releases v x => exact .releases v x
  | comes => exact .comes
  | waits b st hs hsource hlink =>
    obtain ⟨st', hs', hsource', hlink'⟩ := hσ.step hs
    exact .waits b st' hs' (hsource'.trans hsource) (hlink'.trans hlink)
  | runs s above => exact .runs s above
  | ended v => exact .ended v
  | opens v => exact .opens v
  | passes r h => exact .passes r (h.grows hσ)
  | restores r h => exact .restores r (h.grows hσ)
  | rests r h => exact .rests r (h.grows hσ)
  | hands r h => exact .hands r (h.grows hσ)

/-- A step that comes to a gate is there. -/
theorem Store.step?_awaitGate (g : BracketId) (link : Link) (σ : Store) :
    ∃ st, (σ.awaitGate g link).store.step? σ.boundaries.size = some st ∧
      st.source = .gate g ∧ st.link = link :=
  (Store.Alike.await g σ.boundaries.size).grows.step (σ.step?_openStep (.gate g) link)

/-- A node is interpreted for the token. -/
theorem Tending.node {n : Node} {link : Link} (h : Tending σ g (.looking n) above)
    (hg : ∃ br, σ.bracket? g = some br) (hlink : above = [] → link = none) (e : ExecutionId) :
    Tending (n.step e link σ).store g (n.step e link σ).stage ((n.step e link σ).frames ++ above) := by
  cases h with
  | begins =>
    obtain rfl := hlink rfl
    change Tending (σ.takeRelease g .cancelled).1 g (.looking (σ.takeRelease g .cancelled).2) []
    cases hheld : σ.held? g with
    | some v =>
      rw [Store.takeRelease_of_held hheld]
      exact .releases v .cancelled
    | none =>
      rw [Store.takeRelease_of_not_held hheld]
      exact .comes
  | releases v x =>
    obtain rfl := hlink rfl
    obtain ⟨br, hbr⟩ := hg
    simp only [Node.step, hbr]
    exact .runs _ []
  | comes =>
    obtain rfl := hlink rfl
    obtain ⟨st, hs, hsource, hnone⟩ := σ.step?_awaitGate g none
    exact .waits _ st hs hsource hnone
  | runs s above =>
    rw [← List.append_assoc]
    exact .runs _ _
  | ended v => exact .opens v
  | passes r h => exact .restores r h
  | rests r h => exact .hands r h

/-- A frame above the rest of the cancellation receives a result. -/
theorem Tending.hand {r : Result} {f : Frame} (h : Tending σ g (.handing r) (f :: above))
    (hg : ∃ br, σ.bracket? g = some br) (link : Link) :
    Tending (f.resume r link σ).store g (f.resume r link σ).stage
      ((f.resume r link σ).frames ++ above) := by
  generalize hstack : f :: above = stack at h
  cases h with
  | runs s as =>
    obtain _ | ⟨f', as⟩ := as
    · obtain ⟨rfl, rfl⟩ := List.cons.inj hstack
      exact .ended r.toValue
    · obtain ⟨rfl, rfl⟩ := List.cons.inj hstack
      rw [List.append_eq, ← List.append_assoc]
      exact .runs _ _
  | opens v =>
    obtain ⟨rfl, rfl⟩ := List.cons.inj hstack
    obtain ⟨br, hbr⟩ := hg
    refine .passes v.toResult ?_
    simp only [Frame.resume, Store.Over, Store.openGate, Store.bracket?_modifyBracket, if_pos, hbr,
      Option.map_some]
  | restores r h =>
    obtain ⟨rfl, rfl⟩ := List.cons.inj hstack
    exact .rests r h
  | hands r h => cases hstack

/-- When the token hands its result to the rest of the cancellation, the gate is open. -/
theorem Tending.over_of_handing {r : Result} (h : Tending σ g (.handing r) []) : σ.Over g := by
  generalize habove : ([] : List Frame) = above at h
  cases h with
  | hands r h => exact h
  | runs s above => simp at habove
  | opens v => cases habove
  | restores r h => cases habove

/-- A loop that goes on from a boundary that was ripe. -/
theorem Tending.resumed {b : BoundaryId} {r : Result} (h : Tending σ g (.leaving b) above)
    (hb : σ.Ripe b r) : Tending σ g (.looking (.result r)) above := by
  cases h with
  | waits b st hs hsource hlink =>
    obtain ⟨x, hx, hripe⟩ := hb
    cases (Store.step?_eq_some.1 hs).symm.trans hx
    have hdue : st.source.Due σ r := hripe hlink
    rw [hsource] at hdue
    exact .rests r hdue
  | runs s above => exact .runs _ above

/-- While a closure is at work, the release is running. -/
theorem Tending.of_closure (h : Tending σ g s above) (hl : ∀ n, s ≠ .looking n)
    (hh : ∀ r, s ≠ .handing r) (hb : ∀ b, s ≠ .leaving b) (s' : Stage) : Tending σ' g s' above := by
  cases h with
  | runs s above => exact .runs _ above
  | begins => exact absurd rfl (hl _)
  | releases v x => exact absurd rfl (hl _)
  | comes => exact absurd rfl (hl _)
  | waits b st hs hsource hlink => exact absurd rfl (hb b)
  | ended v => exact absurd rfl (hl _)
  | opens v => exact absurd rfl (hh _)
  | passes r h => exact absurd rfl (hl _)
  | restores r h => exact absurd rfl (hh _)
  | rests r h => exact absurd rfl (hl _)
  | hands r h => exact absurd rfl (hh _)

end Tending

/-! ## Cancellations come to their tokens -/

section Frames

variable {σ : Store} {e : ExecutionId} {link of : Link} {current : Token} {rest : List Token}
  {first : Option Error} {above below : List Frame}

/-- A cancellation comes to its first token. -/
theorem Node.sweep_frames {n : Node}
    (h : (n.step e link σ).frames = above ++ .sweep of current rest first :: below) :
    n = .sweep of (current :: rest) ∧ above = [] ∧ first = none ∧ below = [.restore link] := by
  rw [Node.frames_eq] at h
  have hmem : .sweep of current rest first ∈ n.frames link σ := by simp [h]
  cases n with
  | program p => cases p <;> simp [Node.frames, Prog.frames] at hmem
  | token t => cases t <;> simp [Node.frames, Token.frames] at hmem
  | sweep of' ts =>
    cases ts with
    | nil => simp [Node.frames] at hmem
    | cons t ts =>
      obtain _ | ⟨f, _ | ⟨f', above⟩⟩ := above
      · obtain ⟨⟨⟩, rfl⟩ := List.cons.inj h
        exact ⟨rfl, rfl, rfl, rfl⟩
      · cases (List.cons.inj (List.cons.inj h).2).1
      · cases above <;> cases (List.cons.inj (List.cons.inj h).2).2
  | _ => simp [Node.frames] at hmem

/-- A cancellation comes to its next token. -/
theorem Frame.sweep_frames {f : Frame} {r : Result}
    (h : (f.resume r link σ).frames = above ++ .sweep of current rest first :: below) :
    (∃ done failure, f = .sweep of done (current :: rest) failure) ∧ above = [] ∧ below = [] := by
  rw [Frame.frames_eq] at h
  have hmem : .sweep of current rest first ∈ f.frames r σ := by simp [h]
  cases f with
  | sweep of' done ts failure =>
    cases ts with
    | nil => simp [Frame.frames] at hmem
    | cons t ts =>
      obtain _ | ⟨f, above⟩ := above
      · obtain ⟨⟨⟩, rfl⟩ := List.cons.inj h
        exact ⟨⟨done, failure, rfl⟩, rfl, rfl⟩
      · cases above <;> cases (List.cons.inj h).2
  | _ => simp [Frame.frames] at hmem

end Frames

/-! ## How far a loop has come with its tokens -/

/-- How far the loop `l₀` has come with the tokens `ts`, those of the connection `of` if that is set;
`served` holds of tokens for which everything has been done. -/
inductive Sweeping (served : List Token → Prop) (of : Link) (ts : List Token) (l₀ : Loop) :
    Stage → Loop → Prop
  | takes : Sweeping served of ts l₀ (.looking (.sweep of ts)) l₀
  | runs (s : Stage) (l : Loop) (above : List Frame) (done rest : List Token) (t : Token)
    (first : Option Error) (enclosing : Link) (hts : ts = done ++ t :: rest)
    (hstack : l.stack = above ++ .sweep of t rest first :: .restore enclosing :: l₀.stack)
    (hdone : served done) : Sweeping served of ts l₀ s l
  | ends (s : Stage) (l : Loop) (hserved : served ts) : Sweeping served of ts l₀ s l

section Sweeping

variable {served served' : List Token → Prop} {of : Link} {ts : List Token} {s : Stage} {l₀ l : Loop}

theorem Sweeping.imp (h : Sweeping served of ts l₀ s l) (hserved : ∀ ts, served ts → served' ts) :
    Sweeping served' of ts l₀ s l := by
  cases h with
  | takes => exact .takes
  | runs s l above done rest t first enclosing hts hstack hdone =>
    exact .runs s l above done rest t first enclosing hts hstack (hserved done hdone)
  | ends s l h => exact .ends s l (hserved ts h)

/-- The loop begins with the first token. -/
theorem Sweeping.begins (hnil : served []) (σ : Store) :
    let turn := (Node.sweep of ts).step l₀.id l₀.link σ
    Sweeping served of ts l₀ turn.stage (turn.loop l₀ l₀.stack) := by
  cases ts with
  | nil => exact .ends _ _ hnil
  | cons t rest => exact .runs _ _ [] [] rest t none l₀.link rfl rfl hnil

/-- A token has been run, and the next one comes, or that was the last one. -/
theorem Sweeping.goesOn {done rest : List Token} {t : Token} {first : Option Error}
    {enclosing : Link} (hts : ts = done ++ t :: rest) (hdone : served (done ++ [t])) (r : Result)
    (σ : Store) :
    let turn := (Frame.sweep of t rest first).resume r l.link σ
    Sweeping served of ts l₀ turn.stage (turn.loop l (.restore enclosing :: l₀.stack)) := by
  rw [List.append_cons] at hts
  cases rest with
  | nil =>
    rw [List.append_nil] at hts
    subst hts
    exact .ends _ _ hdone
  | cons t' rest => exact .runs _ _ [] (done ++ [t]) rest t' _ enclosing hts rfl hdone

/-- A turn of the loop; `hnext` is for the one in which it is done with a token. -/
theorem Sweeping.turn {σ : Store} {t : Turn} {fs : List Frame} (h : Sweeping served of ts l₀ s l)
    (ht : l.Takes σ s t fs) (hserved : ∀ ts, served ts → served' ts) (hnil : served' [])
    (hnext : ∀ done token rest first enclosing r, s = .handing r →
      l.stack = .sweep of token rest first :: .restore enclosing :: l₀.stack → served done →
        served' (done ++ [token])) :
    Sweeping served' of ts l₀ t.stage (t.loop l fs) := by
  cases h with
  | takes =>
    cases ht with
    | looking n hc => exact .begins hnil σ
  | ends s l h => exact .ends _ _ (hserved ts h)
  | runs s l above done rest token first enclosing hts hstack hdone =>
    obtain ⟨above, habove⟩ | ⟨r, rfl, rfl, rfl, rfl⟩ := ht.keeps hstack
    · exact .runs _ _ above done rest token first enclosing hts habove (hserved done hdone)
    · exact .goesOn hts (hnext done token rest first enclosing r rfl hstack hdone) r σ

theorem Sweeping.resumed {b : BoundaryId} (h : Sweeping served of ts l₀ (.leaving b) l) (r : Result) :
    Sweeping served of ts l₀ (.looking (.result r)) l := by
  cases h with
  | runs s l above done rest t first enclosing hts hstack hdone =>
    exact .runs _ l above done rest t first enclosing hts hstack hdone
  | ends s l hserved => exact .ends _ l hserved

end Sweeping

/-! ## All loops -/

/-- The loop tends to the bracket whose token a cancellation in it has come to: the token is about to
be used up, or it was. -/
def Loop.Tends (S : Session) (s : Stage) (l : Loop) : Prop :=
  ∀ above c g rest first below, l.stack = above ++ .sweep (some c) (.bracket g) rest first :: below →
    (∃ br, S.store.bracket? g = some br) ∧ Tending S.store g s above ∧
      (s = .looking (.token (.bracket g)) ∧ above = [] ∨ 0 < S.spent g)

/-- Cancellation is disabled where the rest of a cancellation stands. -/
theorem Store.Fits.under_sweep {σ : Store} {e : ExecutionId} {link : Link} {above below : List Frame}
    {c : ConnectionId} {t : Token} {rest : List Token} {first : Option Error}
    (h : σ.Fits e link (above ++ .sweep (some c) t rest first :: below)) : link.under above = none :=
  (Store.fits_append.1 h).2.1.1 c rfl

/-- The rest of a cancellation was on the stack before a turn, or the turn put it there. -/
theorem Turn.sweep_cases {t : Turn} {l : Loop} {fs : List Frame} {above below : List Frame}
    {f : Frame} (h : (t.loop l fs).stack = above ++ f :: below) :
    (∃ as, above = t.frames ++ as ∧ fs = as ++ f :: below) ∨
      ∃ gs, t.frames = above ++ f :: gs := by
  obtain ⟨as, habove, hfs⟩ | ⟨gs, hframes, hgs⟩ := List.append_eq_append_iff.1 h
  · exact .inl ⟨as, habove, hfs⟩
  · obtain _ | ⟨f', gs⟩ := gs
    · exact .inl ⟨[], by simpa using hframes.symm, by simpa using hgs.symm⟩
    · obtain ⟨rfl, -⟩ := List.cons.inj hgs
      exact .inr ⟨gs, hframes⟩

/-- A loop that runs the token of a bracket uses it up. -/
theorem Loop.Takes.spent {S : Session} {g : BracketId} {l : Loop} {t : Turn} {fs : List Frame}
    {others : List Activity} (ht : l.Takes S.store (.looking (.token (.bracket g))) t fs) :
    0 < (S.record (some (.work (.looking (.token (.bracket g))) l))
      (t.store, t.calls ++ [.work t.stage (t.loop l fs)]) others).spent g := by
  have hstep := ht.step
  cases ht with
  | looking n hc =>
    have hspends := Moment.spends_of_token (g := g) hc
    rw [hstep] at hspends
    rw [Session.spent_record, if_pos hspends]
    exact Nat.succ_pos _

/-- A turn goes on with what is done for the token, or comes to the next one. -/
theorem Loop.Tends.turn {S : Session} {s : Stage} {l : Loop} {t : Turn} {fs : List Frame}
    {others : List Activity} (h : l.Tends S s) (ht : l.Takes S.store s t fs)
    (hfits : S.store.Fits l.id l.link l.stack) (hapt : (Activity.work s l).Apt S.store) :
    (t.loop l fs).Tends (S.record (some (.work s l))
      (t.store, t.calls ++ [.work t.stage (t.loop l fs)]) others) t.stage := by
  intro above c g rest first below hstack
  have hgrows := ht.grows
  have hspent : 0 < S.spent g → 0 < (S.record (some (.work s l))
      (t.store, t.calls ++ [.work t.stage (t.loop l fs)]) others).spent g :=
    fun h => Nat.lt_of_lt_of_le h Session.spent_le_record
  obtain ⟨as, rfl, hfs⟩ | ⟨gs, hframes⟩ := Turn.sweep_cases hstack
  · cases ht with
    | looking n hc =>
      obtain ⟨hg, htending, hused⟩ := h as c g rest first below hfs
      rw [hfs] at hfits
      refine ⟨Token.Apt.grows (t := .bracket g) hg hgrows, htending.node hg ?_ l.id, .inr ?_⟩
      · rintro rfl
        exact hfits.under_sweep
      · obtain ⟨hn, -⟩ | hused := hused
        · cases hn
          exact (Loop.Takes.looking _ hc).spent
        · exact hspent hused
    | handing r f fs' hl =>
      obtain ⟨hg, htending, hused⟩ := h (f :: as) c g rest first below (by rw [hl, hfs]; rfl)
      exact ⟨Token.Apt.grows (t := .bracket g) hg hgrows, htending.hand hg l.link,
        .inr (hspent (hused.resolve_left fun h => nomatch h.1))⟩
    | _ =>
      obtain ⟨hg, htending, hused⟩ := h as c g rest first below hfs
      exact ⟨Token.Apt.grows (t := .bracket g) hg hgrows,
        htending.of_closure (by simp) (by simp) (by simp) _,
        .inr (hspent (hused.resolve_left fun h => nomatch h.1))⟩
  · cases ht with
    | looking n hc =>
      obtain ⟨rfl, rfl, -, -⟩ := Node.sweep_frames hframes
      have hg : (Token.bracket g).Apt S.store := hapt.1 _ List.mem_cons_self
      exact ⟨hg.grows hgrows, .begins, .inl ⟨rfl, rfl⟩⟩
    | handing r f fs' hl =>
      obtain ⟨⟨done, failure, rfl⟩, rfl, -⟩ := Frame.sweep_frames hframes
      have hf : Frame.Apt S.store (.sweep (some c) done (.bracket g :: rest) failure) :=
        hapt.2 _ (by rw [hl]; exact List.mem_cons_self)
      have hg : (Token.bracket g).Apt S.store := hf _ List.mem_cons_self
      exact ⟨hg.grows hgrows, .begins, .inl ⟨rfl, rfl⟩⟩
    | _ => exact absurd hframes (by simp [Code.turn])

namespace Session

/-- **A loop in which a cancellation has come to the token of a bracket does nothing else** until the
gate of that bracket is open. -/
theorem tends (cs : List Choice) : ∀ s l, (after cs).Has s l → l.Tends (after cs) s := by
  refine each (P := fun S s l => l.Tends S s) ?_ ?_ ?_ ?_ cs
  · intro S call next others s l hgrows h above c g rest first below hstack
    obtain ⟨hg, htending, hused⟩ := h above c g rest first below hstack
    exact ⟨Token.Apt.grows (t := .bracket g) hg hgrows, htending.grows hgrows,
      hused.imp_right fun h => Nat.lt_of_lt_of_le h spent_le_record⟩
  · intro cs n link k others _ above c g rest first below hstack
    simp [Store.begin] at hstack
  · intro cs s l t fs others hcall h ht
    exact h.turn ht ((fits cs).2 _ hcall).2 ((apt cs).2 _ hcall)
  · intro S b l r hripe h above c g rest first below hstack
    obtain ⟨hg, htending, hused⟩ := h above c g rest first below hstack
    exact ⟨hg, htending.resumed hripe, .inr (hused.resolve_left fun h => by cases h.1)⟩

end Session

end CancelableEffects
