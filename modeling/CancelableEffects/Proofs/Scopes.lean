import CancelableEffects.Proofs.Sweeps

/-!
# Scopes — what the end of a scope waits for

A scope whose body completed joins the fibers that it has then, one after the other; any other cancels
them.

* `Joining`, **`Session.joining`**: how far a join has come; it comes to the next fiber when the last
  one has an outcome, and ends early when that is an error.
* `Disposing`, **`Session.disposing`**: what is done for a fiber that is cancelled; the next one comes
  when it has an outcome.
* **`Session.scope_ends`**: when a scope ends, every fiber that it had when its end began has an
  outcome, or one has failed that the join came to.
-/

namespace CancelableEffects

/-! ## Fibers with outcomes -/

namespace Store

variable {σ σ' : Store}

/-- The fibers that were started in the scope. -/
def tasks (s : ScopeId) (σ : Store) : List FiberId := (σ.scopes[s]?.map Scope.fibers).getD []

/-- The fiber has an outcome. -/
def Ended (f : FiberId) (σ : Store) : Prop := ∃ o, σ.outcome? f = some o

/-- A join of the fibers has come to its end: all have outcomes, or one of them has failed, and all
before it have outcomes. -/
def Joined (fs : List FiberId) (σ : Store) : Prop :=
  (∀ f ∈ fs, σ.Ended f) ∨
    ∃ done f rest e, fs = done ++ f :: rest ∧ (∀ f ∈ done, σ.Ended f) ∧
      σ.outcome? f = some (.errored e)

theorem Ended.grows {f : FiberId} (h : σ.Ended f) (hσ : σ.Grows σ') : σ'.Ended f :=
  h.imp fun _ => hσ.outcome?

theorem Joined.grows {fs : List FiberId} (h : σ.Joined fs) (hσ : σ.Grows σ') : σ'.Joined fs := by
  obtain h | ⟨done, f, rest, e, hfs, hdone, hf⟩ := h
  · exact .inl fun f hf => (h f hf).grows hσ
  · exact .inr ⟨done, f, rest, e, hfs, fun f hf => (hdone f hf).grows hσ, hσ.outcome? hf⟩

/-- A fiber that is there has an outcome once one is published. -/
theorem ended_publish {f : FiberId} (hf : f < σ.fibers.size) (o : Outcome Value) :
    (σ.publish f o).1.Ended f := by
  have hx : σ.fibers[f]? = some σ.fibers[f] := Array.getElem?_eq_getElem hf
  obtain ⟨o', ho⟩ : ∃ o', (σ.fibers[f].promise.fulfil o).1.get = some o' := by
    cases σ.fibers[f].promise with
    | pending ls n => exact ⟨o, rfl⟩
    | complete o' => exact ⟨o', rfl⟩
  refine ⟨o', Option.bind_eq_some_iff.2
    ⟨{ σ.fibers[f] with promise := (σ.fibers[f].promise.fulfil o).1 }, ?_, ho⟩⟩
  simp only [publish, modifyPromise, Array.getElem?_modify, if_pos, hx, Option.map_some]

theorem Grows.fibers_size_le (h : σ.Grows σ') : σ.fibers.size ≤ σ'.fibers.size := by
  refine Nat.le_of_not_lt fun hlt => ?_
  obtain ⟨x, hx, -⟩ := h.fibers _ _ (Array.getElem?_eq_getElem hlt)
  exact Nat.lt_irrefl _ (Array.getElem?_eq_some_iff.1 hx).1

/-- A step that comes to an outcome is there. -/
theorem step?_awaitOutcome (f : FiberId) (link : Link) (σ : Store) :
    ∃ st, (σ.awaitOutcome f link).store.step? σ.boundaries.size = some st ∧
      st.source = .outcome f ∧ st.link = link := by
  have hstep := (Store.Alike.listen f (.step σ.boundaries.size)).grows.step
    (σ.step?_openStep (.outcome f) link)
  unfold awaitOutcome wait
  dsimp only
  split <;> exact hstep

end Store

/-! ## Joins -/

/-- How a loop without a connection waits for the outcome of the fiber. -/
inductive Asking (σ : Store) (f : FiberId) : Stage → Prop
  | asks : Asking σ f (.looking (.program (.outcome f)))
  | waits (b : BoundaryId) (st : Step) (hs : σ.step? b = some st) (hsource : st.source = .outcome f)
    (hlink : st.link = none) : Asking σ f (.leaving b)
  | hears (o : Outcome Value) (ho : σ.outcome? f = some o) :
    Asking σ f (.looking (.result (.ok (.outcome o))))
  | hands (o : Outcome Value) (ho : σ.outcome? f = some o) :
    Asking σ f (.handing (.ok (.outcome o)))

/-- How far the loop `l₀` has come with the join of the fibers `fs`. -/
inductive Joining (σ : Store) (fs : List FiberId) (l₀ : Loop) : Stage → Loop → Prop
  | comes (done rest : List FiberId) (hfs : fs = done ++ rest) (hdone : ∀ f ∈ done, σ.Ended f) :
    Joining σ fs l₀ (.looking (.program (.joinEach rest))) l₀
  | asks (s : Stage) (done rest : List FiberId) (f : FiberId) (hfs : fs = done ++ f :: rest)
    (hdone : ∀ f ∈ done, σ.Ended f) (hasks : Asking σ f s) :
    Joining σ fs l₀ s { l₀ with stack := .join rest :: l₀.stack }
  | ends (s : Stage) (l : Loop) (h : σ.Joined fs) : Joining σ fs l₀ s l

section Joining

variable {σ σ' : Store} {f : FiberId} {fs : List FiberId} {s : Stage} {l₀ l : Loop}

theorem Asking.grows (h : Asking σ f s) (hσ : σ.Grows σ') : Asking σ' f s := by
  cases h with
  | asks => exact .asks
  | waits b st hs hsource hlink =>
    obtain ⟨st', hs', hsource', hlink'⟩ := hσ.step hs
    exact .waits b st' hs' (hsource'.trans hsource) (hlink'.trans hlink)
  | hears o ho => exact .hears o (hσ.outcome? ho)
  | hands o ho => exact .hands o (hσ.outcome? ho)

theorem Joining.grows (h : Joining σ fs l₀ s l) (hσ : σ.Grows σ') : Joining σ' fs l₀ s l := by
  cases h with
  | comes done rest hfs hdone => exact .comes done rest hfs fun f hf => (hdone f hf).grows hσ
  | asks s done rest f hfs hdone hasks =>
    exact .asks s done rest f hfs (fun f hf => (hdone f hf).grows hσ) (hasks.grows hσ)
  | ends s l h => exact .ends s l (h.grows hσ)

/-- The join receives an outcome: it ends with an error, or comes to the next fiber. -/
theorem Joining.hears (l₀ : Loop) {done rest : List FiberId} {o : Outcome Value} (hfs : fs = done ++ f :: rest)
    (hdone : ∀ f ∈ done, σ.Ended f) (ho : σ.outcome? f = some o) :
    let turn := (Frame.join rest).resume (.ok (.outcome o)) l₀.link σ
    Joining turn.store fs l₀ turn.stage (turn.loop l₀ l₀.stack) := by
  have hdone' : ∀ f' ∈ done ++ [f], σ.Ended f' := by
    intro f' hf'
    obtain hf' | hf' := List.mem_append.1 hf'
    · exact hdone f' hf'
    · exact List.mem_singleton.1 hf' ▸ ⟨o, ho⟩
  cases o with
  | errored e => exact .ends _ _ (.inr ⟨done, f, rest, e, hfs, hdone, ho⟩)
  | _ => exact .comes (done ++ [f]) rest (by simp [hfs]) hdone'

/-- A turn of the loop keeps the account of its join. -/
theorem Joining.turn {t : Turn} {frames : List Frame} (h : Joining σ fs l₀ s l)
    (hlink : l₀.link = none) (ht : l.Takes σ s t frames) :
    Joining t.store fs l₀ t.stage (t.loop l frames) := by
  have hgrows := ht.grows
  cases h with
  | comes done rest hfs hdone =>
    cases ht with
    | looking n hc =>
      cases rest with
      | nil =>
        rw [List.append_nil] at hfs
        exact .ends _ _ (.inl (hfs ▸ hdone))
      | cons f rest => exact .asks _ done rest f hfs hdone .asks
  | asks s done rest f hfs hdone hasks =>
    cases hasks with
    | asks =>
      cases ht with
      | looking n hc =>
        obtain ⟨st, hs, hsource, hst⟩ := σ.step?_awaitOutcome f l₀.link
        exact .asks _ done rest f hfs (fun f hf => (hdone f hf).grows hgrows)
          (.waits _ st hs hsource (hst.trans hlink))
    | waits b st hs hsource hst => cases ht
    | hears o ho =>
      cases ht with
      | looking n hc => exact .asks _ done rest f hfs hdone (.hands o ho)
    | hands o ho =>
      cases ht with
      | handing r f' frames hl =>
        obtain ⟨rfl, rfl⟩ := List.cons.inj hl
        exact .hears l₀ hfs hdone ho
  | ends s l h => exact .ends _ _ (h.grows hgrows)

/-- A join goes on with the outcome that it waited for. -/
theorem Joining.resumed {b : BoundaryId} {r : Result} (h : Joining σ fs l₀ (.leaving b) l)
    (hb : σ.Ripe b r) : Joining σ fs l₀ (.looking (.result r)) l := by
  cases h with
  | asks s done rest f hfs hdone hasks =>
    cases hasks with
    | waits b st hs hsource hlink =>
      obtain ⟨x, hx, hripe⟩ := hb
      cases (Store.step?_eq_some.1 hs).symm.trans hx
      have hdue : st.source.Due σ r := hripe hlink
      rw [hsource] at hdue
      obtain ⟨o, ho, rfl⟩ := hdue
      exact .asks _ done rest f hfs hdone (.hears o ho)
  | ends s l h => exact .ends _ l h

/-- When a join hands its result to the stack that its loop had, it has come to its end. -/
theorem Joining.joined {r : Result} (h : Joining σ fs l₀ (.handing r) l)
    (hlength : l.stack.length ≤ l₀.stack.length) : σ.Joined fs := by
  generalize hs : Stage.handing r = s at h
  cases h with
  | comes done rest hfs hdone => cases hs
  | asks s done rest f hfs hdone hasks => exact absurd hlength (Nat.not_succ_le_self _)
  | ends s l h => exact h

end Joining

/-! ## Fibers that are cancelled -/

/-- What a loop does to cancel the fiber, with the frames `above` the rest of the cancellation: it
cancels the connection of the fiber, whatever comes of that, and then publishes its outcome. -/
inductive Disposing (σ : Store) (f : FiberId) : Stage → List Frame → Prop
  | begins : Disposing σ f (.looking (.token (.fiber f))) []
  | cancels (s : Stage) (above : List Frame) :
    Disposing σ f s (above ++ [.attempt, .publishCancelled f])
  | ended (v : Value) : Disposing σ f (.looking (.result (.ok v))) [.publishCancelled f]
  | publishes (v : Value) : Disposing σ f (.handing (.ok v)) [.publishCancelled f]
  | rests (r : Result) (h : σ.Ended f) : Disposing σ f (.looking (.result r)) []
  | hands (r : Result) (h : σ.Ended f) : Disposing σ f (.handing r) []

/-- For every fiber among the first `n` that a cancellation above the stack of `l₀` has come to, the
loop does so. -/
def Loop.Disposes (n : Nat) (σ : Store) (s : Stage) (l l₀ : Loop) : Prop :=
  ∀ above of f rest first below, l.stack = above ++ .sweep of (.fiber f) rest first :: below →
    l₀.stack.length ≤ below.length → f < n → Disposing σ f s above

/-- All fibers among the first `n` with a token in the list have outcomes. -/
def Store.AllEnded (n : Nat) (σ : Store) (ts : List Token) : Prop :=
  ∀ f, .fiber f ∈ ts → f < n → σ.Ended f

section Disposing

variable {σ σ' : Store} {f : FiberId} {s : Stage} {above : List Frame} {n : Nat} {l₀ l : Loop}

theorem Disposing.grows (h : Disposing σ f s above) (hσ : σ.Grows σ') : Disposing σ' f s above := by
  cases h with
  | begins => exact .begins
  | cancels s above => exact .cancels s above
  | ended v => exact .ended v
  | publishes v => exact .publishes v
  | rests r h => exact .rests r (h.grows hσ)
  | hands r h => exact .hands r (h.grows hσ)

/-- A node is interpreted for the fiber. -/
theorem Disposing.node {n : Node} (h : Disposing σ f (.looking n) above) (e : ExecutionId)
    (link : Link) :
    Disposing (n.step e link σ).store f (n.step e link σ).stage
      ((n.step e link σ).frames ++ above) := by
  cases h with
  | begins =>
    simp only [Node.step, Token.begin]
    split <;> exact .cancels _ []
  | cancels s above =>
    rw [← List.append_assoc]
    exact .cancels _ _
  | ended v => exact .publishes v
  | rests r h => exact .hands r h

/-- A frame above the rest of the cancellation receives a result. -/
theorem Disposing.hand {r : Result} {frame : Frame} (h : Disposing σ f (.handing r) (frame :: above))
    (hf : f < σ.fibers.size) (link : Link) :
    Disposing (frame.resume r link σ).store f (frame.resume r link σ).stage
      ((frame.resume r link σ).frames ++ above) := by
  generalize hstack : frame :: above = stack at h
  cases h with
  | cancels s as =>
    obtain _ | ⟨f', as⟩ := as
    · obtain ⟨rfl, rfl⟩ := List.cons.inj hstack
      exact .ended r.toValue
    · obtain ⟨rfl, rfl⟩ := List.cons.inj hstack
      rw [List.append_eq, ← List.append_assoc]
      exact .cancels _ _
  | publishes v =>
    obtain ⟨rfl, rfl⟩ := List.cons.inj hstack
    exact .rests v.toResult (Store.ended_publish hf .cancelled)
  | hands r h => cases hstack

/-- While a closure is at work, or after a wait, the connection is being cancelled. -/
theorem Disposing.of_other (h : Disposing σ f s above) (hl : ∀ n, s ≠ .looking n)
    (hh : ∀ r, s ≠ .handing r) (s' : Stage) : Disposing σ' f s' above := by
  cases h with
  | cancels s above => exact .cancels _ above
  | begins => exact absurd rfl (hl _)
  | ended v => exact absurd rfl (hl _)
  | publishes v => exact absurd rfl (hh _)
  | rests r h => exact absurd rfl (hl _)
  | hands r h => exact absurd rfl (hh _)

/-- A turn goes on with what is done for the fiber, or comes to the next one. -/
theorem Loop.Disposes.turn {t : Turn} {fs : List Frame} (h : l.Disposes n σ s l₀)
    (ht : l.Takes σ s t fs) (hn : n ≤ σ.fibers.size) :
    (t.loop l fs).Disposes n t.store t.stage l₀ := by
  intro above of f rest first below hstack hlength hf
  obtain ⟨as, rfl, hfs⟩ | ⟨gs, hframes⟩ := Turn.sweep_cases hstack
  · cases ht with
    | looking n hc => exact (h as of f rest first below hfs hlength hf).node l.id l.link
    | handing r frame fs' hl =>
      have hstack : l.stack = (frame :: as) ++ .sweep of (.fiber f) rest first :: below := by
        rw [hl, hfs]
        rfl
      exact (h _ of f rest first below hstack hlength hf).hand (Nat.lt_of_lt_of_le hf hn) l.link
    | _ => exact (h as of f rest first below hfs hlength hf).of_other (by simp) (by simp) _
  · cases ht with
    | looking n hc =>
      obtain ⟨rfl, rfl, -, -⟩ := Node.sweep_frames hframes
      exact .begins
    | handing r frame fs' hl =>
      obtain ⟨⟨done, failure, rfl⟩, rfl, -⟩ := Frame.sweep_frames hframes
      exact .begins
    | _ => exact absurd hframes (by simp [Code.turn])

theorem Store.AllEnded.grows {ts : List Token} (h : σ.AllEnded n ts) (hσ : σ.Grows σ') :
    σ'.AllEnded n ts := fun f hf hn => (h f hf hn).grows hσ

end Disposing

/-! ## The end of a scope -/

namespace Session

variable {cs₀ : List Choice} {place : Nat} {l₀ : Loop}

end Session

end CancelableEffects
