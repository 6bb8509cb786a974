import CancelableEffects.Proofs.Decisions

/-!
# Stacks — what a loop has on its stack

* `Stage.Bears`: the use of a bracket is on top of the stack until it receives the resource, and the end
  of a bracket receives a value.
* **`Session.bears`**: every loop has such a stack.
* **`Session.brackets_under`**: the brackets of its frames were opened under the connection of the
  execution, or where cancellation is disabled.
* `Store.Stored`: tokens of steps are on the connections under which these were opened.
* **`Session.drawn`**: who runs the token of a step took it from there.
-/

namespace CancelableEffects

/-! ## The order of frames -/

/-- The bracket to which the frame belongs. -/
def Frame.bracket? : Frame → Option BracketId
  | .use g _ | .release g | .endBracket g _ => some g
  | _ => none

/-- The frame is neither the use nor the end of a bracket. -/
def Frame.Loose : Frame → Prop
  | .use _ _ | .endBracket _ _ => False
  | _ => True

/-- The frame may stand right above the other one. -/
def Frame.Above (f : Frame) : Frame → Prop
  | .use _ _ => False
  | .endBracket _ _ => f = .attempt
  | _ => True

/-- A loop may come to the stage while the frame is on top. -/
def Stage.Meets (s : Stage) : Frame → Prop
  | .use g _ => s = .leaving g ∨ ∃ r, s = .looking (.result r) ∨ s = .handing r
  | .endBracket _ _ => ∃ v, s = .looking (.result (.ok v)) ∨ s = .handing (.ok v)
  | _ => True

/-- The frames may stand below this one. -/
def Frame.Bears (f : Frame) : List Frame → Prop
  | [] => True
  | f' :: fs => f.Above f' ∧ f'.Bears fs

/-- The frames may be the stack of a loop at the stage. -/
def Stage.Bears (s : Stage) : List Frame → Prop
  | [] => True
  | f :: fs => s.Meets f ∧ f.Bears fs

/-- The frames may be the stack of a loop at any stage. -/
def Frame.Free : List Frame → Prop
  | [] => True
  | f :: fs => f.Loose ∧ f.Bears fs

section Order

variable {f : Frame} {fs gs : List Frame} {s : Stage}

theorem Frame.Free.stage (h : Frame.Free fs) (s : Stage) : s.Bears fs := by
  cases fs with
  | nil => trivial
  | cons f fs =>
    refine ⟨?_, h.2⟩
    cases f <;> first | trivial | exact h.1.elim

theorem Frame.Free.below (h : Frame.Free fs) (f : Frame) : f.Bears fs := by
  cases fs with
  | nil => trivial
  | cons f' fs =>
    refine ⟨?_, h.2⟩
    cases f' <;> first | trivial | exact h.1.elim

theorem Frame.Free.append (h : Frame.Free fs) (hgs : ∀ g ∈ gs, g.Loose) : Frame.Free (gs ++ fs) := by
  induction gs with
  | nil => exact h
  | cons g gs ih =>
    obtain ⟨hg, hgs⟩ := List.forall_mem_cons.1 hgs
    exact ⟨hg, (ih hgs).below g⟩

theorem Frame.Bears.free (h : f.Bears fs) (hf : f ≠ .attempt) : Frame.Free fs := by
  cases fs with
  | nil => trivial
  | cons f' fs =>
    refine ⟨?_, h.2⟩
    cases f' <;> first | trivial | exact h.1.elim | exact hf h.1

/-- Only with a result does a loop come to a frame of a bracket that is not loose. -/
theorem Stage.Bears.free (h : s.Bears fs) (hs : ∀ b, s ≠ .leaving b)
    (hlooking : ∀ r, s ≠ .looking (.result r)) (hhanding : ∀ r, s ≠ .handing r) : Frame.Free fs := by
  cases fs with
  | nil => trivial
  | cons f fs =>
    refine ⟨?_, h.2⟩
    cases f with
    | use g f =>
      obtain h | ⟨r, h | h⟩ := h.1
      · exact hs _ h
      · exact hlooking r h
      · exact hhanding r h
    | endBracket g r =>
      obtain ⟨v, h | h⟩ := h.1
      · exact hlooking _ h
      · exact hhanding _ h
    | _ => trivial

theorem Frame.Bears.of_attempt (h : Frame.attempt.Bears fs) (v : Value) :
    (Stage.looking (.result (.ok v))).Bears fs := by
  cases fs with
  | nil => trivial
  | cons f fs =>
    refine ⟨?_, h.2⟩
    cases f with
    | use g f => exact h.1.elim
    | endBracket g r => exact ⟨v, .inl rfl⟩
    | _ => trivial

/-- A loop that goes on from a boundary comes to the frames with a result. -/
theorem Stage.Bears.resumed {b : BoundaryId} (h : (Stage.leaving b).Bears fs) (r : Result) :
    (Stage.looking (.result r)).Bears fs := by
  cases fs with
  | nil => trivial
  | cons f fs =>
    refine ⟨?_, h.2⟩
    cases f with
    | use g f => exact .inr ⟨r, .inl rfl⟩
    | endBracket g r' =>
      obtain ⟨v, h | h⟩ := h.1 <;> cases h
    | _ => trivial

theorem Stage.Bears.handed {r : Result} (h : (Stage.looking (.result r)).Bears fs) :
    (Stage.handing r).Bears fs := by
  cases fs with
  | nil => trivial
  | cons f fs =>
    refine ⟨?_, h.2⟩
    cases f with
    | use g f => exact .inr ⟨r, .inr rfl⟩
    | endBracket g r' =>
      obtain ⟨v, h | h⟩ := h.1 <;> cases h
      exact ⟨v, .inr rfl⟩
    | _ => trivial

end Order

theorem Frame.loose_of_bracket? {fs : List Frame} (h : ∀ f ∈ fs, f.bracket? = none) :
    ∀ f ∈ fs, f.Loose := by
  intro f hf
  cases f <;> first | trivial | exact nomatch h _ hf

/-- A loop that looks at a node puts no frames of brackets on its stack, unless it opens one. -/
theorem Node.step_frames (n : Node) (e : ExecutionId) (link : Link) (σ : Store) :
    (∀ f ∈ (n.step e link σ).frames, f.bracket? = none) ∨
      ∃ acquire use release, n = .program (.bracket acquire use release) := by
  rw [Node.frames_eq]
  cases n with
  | program p =>
    cases p with
    | bracket acquire use release => exact .inr ⟨_, _, _, rfl⟩
    | _ => exact .inl (by simp [Node.frames, Prog.frames, Frame.bracket?])
  | token t => cases t <;> exact .inl (by simp [Node.frames, Token.frames, Frame.bracket?])
  | _ => exact .inl fun f hf => by cases f <;> first | rfl | simp [Node.frames] at hf

/-- A frame that receives a result puts no frames of brackets in its place, but the use of a resource
puts its release there, and the release the end of the bracket. -/
theorem Frame.resume_frames (f : Frame) (r : Result) (link : Link) (σ : Store) :
    (∀ f' ∈ (f.resume r link σ).frames, f'.bracket? = none) ∨
      (∃ g u v, f = .use g u ∧ r = .ok v ∧ (f.resume r link σ).frames = [.release g]) ∨
      ∃ g, f = .release g ∧ (f.resume r link σ).frames = [.attempt, .endBracket g r] := by
  rw [Frame.frames_eq]
  cases f with
  | release g => exact .inr (.inr ⟨g, rfl, rfl⟩)
  | use g u =>
    cases r with
    | ok v => exact .inr (.inl ⟨g, u, v, rfl, rfl, rfl⟩)
    | error e => exact .inl fun f' hf' => (List.not_mem_nil hf').elim
  | _ => exact .inl fun f' hf' => by cases f' <;> first | rfl | simp [Frame.frames] at hf'

/-- A turn keeps the order of the frames. -/
theorem Loop.Takes.bears {l : Loop} {σ : Store} {s : Stage} {t : Turn} {fs : List Frame}
    (ht : l.Takes σ s t fs) (h : s.Bears l.stack) : t.stage.Bears (t.loop l fs).stack := by
  have hcode : ∀ {α : Type} (again : Code Prog α → Stage) (done : Except String α → Stage)
      (c : Code Prog α), Frame.Free l.stack →
        (c.turn again done l.link σ).stage.Bears ((c.turn again done l.link σ).frames ++ l.stack) :=
    fun _ _ _ hfree => hfree.stage _
  cases ht with
  | looking n hc =>
    by_cases hn : ∃ r, n = .result r
    · obtain ⟨r, rfl⟩ := hn
      exact h.handed
    have hfree : Frame.Free l.stack := by
      refine h.free (by simp) (fun r hr => hn ⟨r, ?_⟩) (by simp)
      simpa using hr
    obtain hframes | ⟨acquire, use, release, rfl⟩ := n.step_frames l.id l.link σ
    · exact (hfree.append (Frame.loose_of_bracket? hframes)).stage _
    · exact ⟨.inl rfl, hfree.below _⟩
  | handing r f fs hstack =>
    rw [hstack] at h
    by_cases hf : f = .attempt
    · subst hf
      exact h.2.of_attempt _
    have hfree : Frame.Free fs := h.2.free hf
    obtain hframes | ⟨g, u, v, rfl, rfl, -⟩ | ⟨g, rfl, -⟩ := f.resume_frames r l.link σ
    · exact (hfree.append (Frame.loose_of_bracket? hframes)).stage _
    · exact ⟨trivial, hfree.below _⟩
    · exact ⟨trivial, rfl, hfree.below _⟩
  | delaying c => exact hcode _ _ c (h.free (by simp) (by simp) (by simp))
  | suspending c => exact hcode _ _ c (h.free (by simp) (by simp) (by simp))
  | mapping c => exact hcode _ _ c (h.free (by simp) (by simp) (by simp))

/-- **Every loop has such a stack.** -/
theorem Session.bears (cs : List Choice) : ∀ s l, (after cs).Has s l → s.Bears l.stack :=
  each (P := fun _ s l => s.Bears l.stack) (fun _ h => h) (fun _ => trivial)
    (fun _ h ht => ht.bears h) (fun _ h => h.resumed _) cs

/-! ## Brackets on a stack -/

/-- A loop has the connection of its execution, unless cancellation is disabled. -/
theorem Store.Fits.link_cases {σ : Store} {e : ExecutionId} {link : Link} {fs : List Frame}
    (h : σ.Fits e link fs) : link = none ∨ link = link.under fs := by
  by_cases hr : ∃ enclosing, Frame.restore enclosing ∈ fs
  · obtain ⟨enclosing, hr⟩ := hr
    exact .inl (h.link_eq_none hr)
  · exact .inr (Link.under_of_notMem fun enclosing hmem => hr ⟨enclosing, hmem⟩).symm

/-- The bracket of a frame belongs to an older frame, or is opened under the connection of the loop. -/
theorem Loop.Takes.brackets {l : Loop} {σ : Store} {s : Stage} {t : Turn} {fs : List Frame}
    (ht : l.Takes σ s t fs) {f : Frame} {g : BracketId} (hf : f ∈ (t.loop l fs).stack)
    (hg : f.bracket? = some g) : (∃ f' ∈ l.stack, f'.bracket? = some g) ∨
      ∃ br, t.store.bracket? g = some br ∧ br.link = l.link := by
  cases ht with
  | looking n hc =>
    obtain hf | hf := List.mem_append.1 hf
    · obtain hframes | ⟨acquire, use, release, rfl⟩ := n.step_frames l.id l.link σ
      · cases (hframes f hf).symm.trans hg
      · obtain rfl : f = _ := List.mem_singleton.1 hf
        obtain rfl : σ.boundaries.size = g := Option.some.inj hg
        exact .inr ⟨{ owner := l.id, link := l.link, release },
          Store.bracket?_eq_some.2 (Prog.step_keeper hc rfl), rfl⟩
    · exact .inl ⟨f, hf, hg⟩
  | handing r f' fs hstack =>
    rw [hstack]
    obtain hf | hf := List.mem_append.1 hf
    · refine .inl ⟨f', .head _, ?_⟩
      obtain hframes | ⟨g', u, v, rfl, rfl, hframes⟩ | ⟨g', rfl, hframes⟩ :=
        f'.resume_frames r l.link σ
      · cases (hframes f hf).symm.trans hg
      · rw [hframes] at hf
        obtain rfl := List.mem_singleton.1 hf
        exact hg
      · rw [hframes] at hf
        obtain rfl | rfl : f = .attempt ∨ f = .endBracket g' r := by simpa using hf
        · cases hg
        · exact hg
    · exact .inl ⟨f, .tail _ hf, hg⟩
  | _ => exact .inl ⟨f, hf, hg⟩

/-- **The brackets of its frames were opened under the connection of the execution**, or where
cancellation is disabled. -/
theorem Session.brackets_under (cs : List Choice) : ∀ s l, (after cs).Has s l → ∀ f ∈ l.stack,
    ∀ g, f.bracket? = some g → ∃ br, (after cs).store.bracket? g = some br ∧
      (br.link = none ∨ br.link = l.link.under l.stack) := by
  refine each (P := fun S s l => ∀ f ∈ l.stack, ∀ g, f.bracket? = some g →
    ∃ br, S.store.bracket? g = some br ∧ (br.link = none ∨ br.link = l.link.under l.stack)) ?_ ?_ ?_ ?_ cs
  · intro S call next others s l hgrows h f hf g hg
    obtain ⟨br, hbr, hlink⟩ := h f hf g hg
    obtain ⟨br', hbr', hlike⟩ := hgrows.bracket g br hbr
    exact ⟨br', hbr', hlike.link ▸ hlink⟩
  · intro cs n link k others hcall f hf
    exact (List.not_mem_nil hf).elim
  · intro cs s l t fs others hcall h ht f hf g hg
    rw [ht.under]
    obtain ⟨f', hf', hg'⟩ | ⟨br, hbr, hlink⟩ := ht.brackets hf hg
    · obtain ⟨br, hbr, hlink⟩ := h f' hf' g hg'
      obtain ⟨br', hbr', hlike⟩ := ht.grows.bracket g br hbr
      exact ⟨br', hbr', hlike.link ▸ hlink⟩
    · exact ⟨br, hbr, hlink ▸ (fits_of_has (.inl hcall)).link_cases⟩
  · exact fun _ h => h

/-! ## Tokens of steps -/

theorem Store.tokens_eq (c : ConnectionId) (σ : Store) : σ.tokens c = (σ.connectionAt c).tokens := by
  rw [tokens, connectionAt]
  cases σ.connections[c]? <;> rfl

/-- Tokens of steps are on the connections under which these were opened. -/
def Store.Stored (σ : Store) : Prop :=
  ∀ c s, .step s ∈ σ.tokens c → ∃ st, σ.step? s = some st ∧ st.link = some c

/-- The steps whose tokens the frame is going to run, or runs. -/
def Frame.flying : Frame → List StepId
  | .sweep _ _ ts _ => ts.filterMap Token.step?
  | .endStep s => [s]
  | _ => []

/-- The steps whose tokens a loop is about to run at the stage. -/
def Stage.flying : Stage → List StepId
  | .looking n => n.flying
  | _ => []

/-- The steps whose tokens a loop runs, or is going to run. -/
def Loop.flying (s : Stage) (l : Loop) : List StepId := s.flying ++ l.stack.flatMap Frame.flying

theorem Token.mem_flying {ts : List Token} {s : StepId} :
    s ∈ ts.filterMap Token.step? ↔ .step s ∈ ts := by
  simp only [List.mem_filterMap]
  constructor
  · rintro ⟨t, ht, h⟩
    cases t with
    | step s' => cases h; exact ht
    | _ => cases h
  · exact fun h => ⟨_, h, rfl⟩

/-- The node takes the token of the step from the connection. -/
def Node.draws (σ : Store) (c : ConnectionId) (s : StepId) : Node → Prop
  | .token (.connection link) | .program (.pop link) =>
    link = some c ∧ .step s ∈ σ.tokens c
  | _ => False

theorem Store.lt_of_mem_tokens {σ : Store} {c : ConnectionId} {t : Token} (h : t ∈ σ.tokens c) :
    c < σ.connections.size := by
  refine Nat.lt_of_not_le fun hc => ?_
  simp [tokens, Array.getElem?_eq_none hc] at h

/-- Who comes to the token of a step had it before, or takes it from a connection. -/
theorem Node.step_flying (n : Node) (e : ExecutionId) (link : Link) (σ : Store) :
    ∀ s ∈ (n.step e link σ).stage.flying ++ (n.step e link σ).frames.flatMap Frame.flying,
      s ∈ n.flying ∨ ∃ c, n.draws σ c s := by
  intro s hs
  cases n with
  | program p =>
    cases p with
    | joinEach fs =>
      cases fs <;> simp [Node.step, Prog.step, Stage.flying, Frame.flying, Node.flying] at hs
    | cancelScope i =>
      simp [Node.step, Prog.step, Stage.flying, Node.flying, Token.step?, List.filterMap_map] at hs
    | pop link' =>
      refine .inr ?_
      revert hs
      simp only [Node.step, Prog.step]
      split
      · rename_i σ' t hpop
        obtain ⟨c, rfl, hmem⟩ := Store.mem_of_popToken (congrArg Prod.snd hpop)
        cases t with
        | step s' =>
          intro hs
          obtain rfl : s = s' := by simpa [Stage.flying, Node.flying, Token.step?] using hs
          exact ⟨c, rfl, hmem⟩
        | _ => simp [Stage.flying, Node.flying, Token.step?]
      · simp [Stage.flying, Node.flying]
    | stored i =>
      revert hs
      simp only [Node.step, Prog.step]
      split <;> simp [Stage.flying, Node.flying]
    | _ =>
      simp [Node.step, Prog.step, Stage.flying, Node.flying, Frame.flying, Token.step?, Store.fork,
        Store.awaitOutcome, Store.awaitPermits, Store.awaitJob, Store.wait] at hs
  | token t =>
    revert hs
    cases t with
    | cleanup c =>
      cases c with
      | program i =>
        simp only [Node.step, Token.begin, Cleanup.begin]
        split <;> simp [Stage.flying, Node.flying]
      | _ => simp [Node.step, Token.begin, Cleanup.begin, Stage.flying]
    | step s' =>
      exact fun hs => .inl (by
        simpa [Node.step, Token.begin, Stage.flying, Node.flying, Frame.flying, Token.step?] using hs)
    | bracket g =>
      simp only [Node.step, Token.begin, Store.takeRelease]
      cases σ.held? g <;> simp [Stage.flying, Node.flying]
    | connection link' =>
      simp only [Node.step, Token.begin]
      split
      · rename_i σ' ts hcancel
        obtain ⟨c, rfl, rfl⟩ := Store.mem_of_cancel (congrArg Prod.snd hcancel)
        intro hs
        exact .inr ⟨c, rfl, Token.mem_flying.1 (by simpa [Stage.flying, Node.flying] using hs)⟩
      · simp [Stage.flying, Node.flying]
    | fiber f =>
      simp only [Node.step, Token.begin]
      split <;> simp [Stage.flying, Node.flying, Frame.flying, Token.step?]
    | _ => simp [Node.step, Token.begin, Stage.flying, Node.flying, Token.step?]
  | sweep of ts =>
    refine .inl ?_
    cases ts with
    | nil => simp [Node.step, Store.sweep, Stage.flying, Node.flying, Frame.flying] at hs
    | cons t ts =>
      have hs : s ∈ t.step?.toList ++ ts.filterMap Token.step? := by
        simpa [Node.step, Store.sweep, Stage.flying, Node.flying, Frame.flying] using hs
      cases ht : t.step? <;> simpa [Node.flying, List.filterMap_cons, ht] using hs
  | release g v x =>
    revert hs
    simp only [Node.step]
    split <;> simp [Stage.flying, Node.flying, Frame.flying]
  | gate g => simp [Node.step, Store.awaitGate, Store.wait, Stage.flying] at hs
  | result r => simp [Node.step, Stage.flying] at hs

/-- Who comes to the token of a step when a frame receives a result had it before. -/
theorem Frame.resume_flying (f : Frame) (r : Result) (link : Link) (σ : Store) :
    ∀ s ∈ (f.resume r link σ).stage.flying ++ (f.resume r link σ).frames.flatMap Frame.flying,
      s ∈ f.flying := by
  intro s hs
  cases f with
  | sweep of t ts first =>
    change s ∈ (Store.sweep of _ link [] _ ts).stage.flying ++
      (Store.sweep of _ link [] _ ts).frames.flatMap Frame.flying at hs
    cases ts with
    | nil => simp [Store.sweep, Stage.flying, Node.flying] at hs
    | cons t' ts =>
      have hs : s ∈ t'.step?.toList ++ ts.filterMap Token.step? := by
        simpa [Store.sweep, Stage.flying, Node.flying, Frame.flying] using hs
      cases ht : t'.step? <;> simpa [Frame.flying, List.filterMap_cons, ht] using hs
  | release g =>
    revert hs
    simp only [Frame.resume, Store.takeRelease]
    cases σ.held? g <;> simp [Stage.flying, Node.flying, Frame.flying]
  | _ =>
    revert hs
    unfold Frame.resume
    dsimp only
    repeat' split
    all_goals simp [Stage.flying, Node.flying, Frame.flying]

/-- An operation leaves the tokens that were there, and no others but the one that it pushes. -/
theorem Connection.mem_after {c : ConnectionId} {conn : Connection} {x : Operated} {t : Token}
    (h : t ∈ (conn.after c x).tokens) : t ∈ conn.tokens ∨ x = some (some c, .push t) := by
  obtain _ | ⟨link, op⟩ := x
  · exact .inl h
  · simp only [Connection.after] at h
    split at h
    · rename_i hlink
      cases conn with
      | active ts =>
        cases op with
        | push t' =>
          obtain rfl | h := List.mem_cons.1 h
          · exact .inr (by rw [hlink])
          · exact .inl h
        | pop =>
          cases ts with
          | nil => exact .inl h
          | cons t' ts => exact .inl (.tail _ h)
        | cancel => exact (List.not_mem_nil h).elim
      | cancelled => cases op <;> exact (List.not_mem_nil h).elim
    · exact .inl h

/-- A step that is like an operation leaves no tokens but those that were there, and the one that is pushed. -/
theorem Next.Operates.mem_tokens {σ : Store} {x : Operated} {next : Next} (h : next.Operates σ x)
    {c : ConnectionId} {t : Token} (ht : t ∈ next.1.tokens c) :
    t ∈ σ.tokens c ∨ x = some (some c, .push t) := by
  have hlt := Store.lt_of_mem_tokens ht
  rw [Store.tokens_eq, h.connection c hlt] at ht
  rw [Store.tokens_eq]
  exact Connection.mem_after ht

/-- A step that is like an operation keeps tokens of steps where they may be, and puts others there only
with it. -/
theorem Next.Operates.stored {σ : Store} {x : Operated} {next : Next} (h : next.Operates σ x)
    (hgrows : σ.Grows next.1) (hσ : σ.Stored)
    (hpush : ∀ c s, x = some (some c, .push (.step s)) →
      ∃ st, next.1.step? s = some st ∧ st.link = some c) : next.1.Stored := by
  intro c s hmem
  obtain hold | hnew := h.mem_tokens hmem
  · obtain ⟨st, hst, hlink⟩ := hσ c s hold
    obtain ⟨st', hst', -, hlike⟩ := hgrows.step hst
    exact ⟨st', hst', hlike.trans hlink⟩
  · exact hpush c s hnew

/-- Who comes to the token of a step by a turn had it before, or takes it from a connection. -/
theorem Loop.Takes.flying {l : Loop} {σ : Store} {s : Stage} {t : Turn} {fs : List Frame}
    (ht : l.Takes σ s t fs) : ∀ i ∈ (t.loop l fs).flying t.stage,
      i ∈ l.flying s ∨ ∃ n c, s = .looking n ∧ n.draws σ c i := by
  intro i hi
  have hcode : ∀ {α : Type} {again : Code Prog α → Stage} {done : Except String α → Stage}
      (c : Code Prog α), (∀ c, (again c).flying = []) → (∀ o, (done o).flying = []) →
        (c.turn again done l.link σ).stage.flying = [] := by
    intro α again done c hagain hdone
    simp only [Code.turn]
    cases (c.move σ).2 with
    | inl o => exact hdone o
    | inr c => exact hagain c
  obtain hnew | hold : i ∈ t.stage.flying ++ t.frames.flatMap Frame.flying ∨
      i ∈ fs.flatMap Frame.flying := by simpa [Loop.flying, Turn.loop, or_assoc] using hi
  · cases ht with
    | looking n hc =>
      obtain hn | ⟨c, hdraws⟩ := n.step_flying l.id l.link σ i hnew
      · exact .inl (List.mem_append_left _ hn)
      · exact .inr ⟨n, c, rfl, hdraws⟩
    | handing r f fs hstack =>
      have hf := f.resume_flying r l.link σ i hnew
      exact .inl (List.mem_append_right _ (List.mem_flatMap.2 ⟨f, hstack ▸ .head _, hf⟩))
    | delaying c =>
      rw [hcode c (fun _ => rfl) (fun o => by cases o <;> rfl)] at hnew
      exact (List.not_mem_nil hnew).elim
    | suspending c =>
      rw [hcode c (fun _ => rfl) (fun o => by cases o <;> rfl)] at hnew
      exact (List.not_mem_nil hnew).elim
    | mapping c =>
      rw [hcode c (fun _ => rfl) (fun o => by cases o <;> rfl)] at hnew
      exact (List.not_mem_nil hnew).elim
  · refine .inl (List.mem_append_right _ ?_)
    cases ht with
    | handing r f fs hstack =>
      rw [hstack, List.flatMap_cons]
      exact List.mem_append_right _ hold
    | _ => exact hold

namespace Session

/-- **Tokens of steps are on the connections under which these were opened.** -/
theorem tokens_stored (cs : List Choice) : (after cs).store.Stored := by
  refine invariant (P := fun S => S.store.Stored) (fun c s h => (List.not_mem_nil h).elim) ?_ ?_ cs
  · intro cs i h
    exact (i.step_operates _).stored (i.step_grows _) h fun c s hx =>
      ((Input.of_operation hx).2 _ rfl).elim
  · intro cs a xs ys hS h
    refine (a.step_operates _).stored (a.step_grows _) h fun c s hx => ?_
    obtain ⟨n, l, rfl, hc, hn⟩ | ⟨left, right, k, -, ht⟩ | ⟨-, ht⟩ := Activity.of_operation_push hx
    · obtain ⟨-, hnone⟩ | ⟨-, -, x, hx, ⟨hnone, -⟩ | ⟨t, ht, hpledges⟩⟩ := n.step_pledges hc l.id
      · exact absurd hn (hnone _ _)
      · cases hnone.symm.trans hn
      · obtain ⟨hlink, rfl⟩ : l.link = some c ∧ t = .step s := by simpa using ht.symm.trans hn
        obtain ⟨rfl, st, rfl, hst⟩ := ((hpledges c _).2 ⟨hlink, rfl⟩).of_step
        refine ⟨st, Store.step?_eq_some.2 ?_, hst⟩
        simp only [Activity.step, l.step_of_not_cancelled hc]
        exact hx
    · cases ht
    · cases ht

/-- Tokens were taken from the connection by its cancellation, or popped by code that was given it. -/
def Drawn (c : ConnectionId) (S : Session) : Prop :=
  S.store.isCancelled (some c) = true ∨
    ∃ m ∈ S.past, ∃ l, m.call = some (.work (.looking (.program (.pop (some c)))) l)

theorem Drawn.record {S : Session} {c : ConnectionId} {call : Option Activity} {next : Next}
    {others : List Activity} (h : S.Drawn c) (hgrows : S.store.Grows next.1) :
    (S.record call next others).Drawn c := by
  obtain h | ⟨m, hm, l, hl⟩ := h
  · exact .inl (hgrows.cancelled _ h)
  · exact .inr ⟨m, .tail _ hm, l, hl⟩

/-- **Who runs the token of a step took it from the connection under which that was opened.** -/
theorem drawn (cs : List Choice) : ∀ s l, (after cs).Has s l → ∀ i ∈ l.flying s,
    ∃ st c, (after cs).store.step? i = some st ∧ st.link = some c ∧ (after cs).Drawn c := by
  refine each (P := fun S s l => ∀ i ∈ l.flying s,
    ∃ st c, S.store.step? i = some st ∧ st.link = some c ∧ S.Drawn c) ?_ ?_ ?_ ?_ cs
  · intro S call next others s l hgrows h i hi
    obtain ⟨st, c, hst, hlink, hdrawn⟩ := h i hi
    obtain ⟨st', hst', -, hlike⟩ := hgrows.step hst
    exact ⟨st', c, hst', hlike.trans hlink, hdrawn.record hgrows⟩
  · -- no execution begins with the token of a step
    intro cs n link k others hcall i hi
    refine ((orderly cs).runs i (List.mem_flatMap.2 ⟨_, hcall, ?_⟩)).elim
    have hi : i ∈ n.flying := by simpa [Loop.flying, Stage.flying, Store.begin] using hi
    exact List.mem_append_right _ (List.mem_map_of_mem hi)
  · intro cs s l t fs others hcall h ht i hi
    obtain hi | ⟨n, c, rfl, hdraws⟩ := ht.flying i hi
    · obtain ⟨st, c, hst, hlink, hdrawn⟩ := h i hi
      obtain ⟨st', hst', -, hlike⟩ := ht.grows.step hst
      exact ⟨st', c, hst', hlike.trans hlink, hdrawn.record ht.grows⟩
    · have hstored : .step i ∈ (after cs).store.tokens c := by
        unfold Node.draws at hdraws
        split at hdraws <;> first | exact hdraws.2 | exact hdraws.elim
      obtain ⟨st, hst, hlink⟩ := tokens_stored cs c i hstored
      obtain ⟨st', hst', -, hlike⟩ := ht.grows.step hst
      refine ⟨st', c, hst', hlike.trans hlink, ?_⟩
      unfold Node.draws at hdraws
      split at hdraws
      · cases ht
        rw [hdraws.1]
        refine .inl ?_
        rw [record_store, Node.step_cancel_store]
        exact Store.isCancelled_cancel (Store.lt_of_mem_tokens hstored)
      · exact .inr ⟨_, .head _, l, by rw [hdraws.1]⟩
      · exact hdraws.elim
  · intro S b l r hripe h i hi
    refine h i ?_
    simpa [Loop.flying, Stage.flying, Node.flying] using hi

end Session

end CancelableEffects
