import CancelableEffects.Proofs.Outcomes
import CancelableEffects.Proofs.Resolutions
import CancelableEffects.Proofs.Scopes
import CancelableEffects.Proofs.Sequences
import Mathlib.Tactic.IntervalCases

/-!
# Awaits — who awaits a task joins its siblings first

* `Session.Proceeds`, **`Session.Has.proceeds`**: what becomes of a loop with the next choice.
* `Store.siblings`, `Store.Passed`, `Store.Awaited`: the fibers that are joined, those that do not end the
  join, and what the await ends with.
* `Awaiting`: how far an await has come. **`Awaiting.turn`**, `Awaiting.resumed`: the turns of its loop and
  the outcomes it waited for bring it on.
* **`Session.await_joins_siblings`**: an await goes on like that until it ends.
-/

namespace CancelableEffects

/-! ## How a loop goes on -/

namespace Session

/-- What becomes of the loop with the choice: it stays, takes a turn, goes on from a boundary, is stopped,
or comes to its end. -/
inductive Proceeds (cs : List Choice) (x : Choice) (s : Stage) (l : Loop) : Prop
  | stays (h : (after (x :: cs)).Has s l)
  | turns (place : Nat) (t : Turn) (fs : List Frame) (hx : x = .call place)
    (hcall : (after cs).calls[place]? = some (.work s l)) (ht : l.Takes (after cs).store s t fs)
    (hstore : (after (x :: cs)).store = t.store) (h : (after (x :: cs)).Has t.stage (t.loop l fs))
  | resumes (b : BoundaryId) (r : Result) (m : Moment) (hs : s = .leaving b) (hm : Made cs x m)
    (hr : m.resumption? b = some (r, l)) (h : (after (x :: cs)).Has (.looking (.result r)) l)
  | stops (place : Nat) (n : Node) (hx : x = .call place)
    (hcall : (after cs).calls[place]? = some (.work s l)) (hs : s = .looking n)
    (hc : (after cs).store.isCancelled l.link = true)
  | ends (place : Nat) (r : Result) (hx : x = .call place)
    (hcall : (after cs).calls[place]? = some (.work s l)) (hs : s = .handing r) (hl : l.stack = [])

/-- **A loop stays, takes a turn, goes on from a boundary, is stopped, or comes to its end.** -/
theorem Has.proceeds {cs : List Choice} {s : Stage} {l : Loop} (h : (after cs).Has s l) (x : Choice) :
    Proceeds cs x s l := by
  by_cases hown : ∃ place s' l', x = .call place ∧ (after cs).calls[place]? = some (.work s' l') ∧
      l'.id = l.id ∧ ∀ b, s' ≠ .leaving b
  · obtain ⟨place, s', l', rfl, hcall, hid, hs⟩ := hown
    obtain ⟨rfl, rfl⟩ := has_unique h (.inl (List.mem_of_getElem? hcall)) hid
    obtain ⟨n, rfl, hc, -⟩ | ⟨r, rfl, hl, -⟩ | ⟨t, fs, ht⟩ | ⟨b, rfl⟩ := Loop.step_takes s' l' (after cs).store
    · exact .stops place n rfl hcall rfl hc
    · exact .ends place r rfl hcall rfl hl
    · have hstore : (after (.call place :: cs)).store = t.store :=
        (made_call hcall).store.trans (congrArg Prod.fst ht.step)
      exact .turns place t fs rfl hcall ht hstore (.inl (work_of_takes hcall ht))
    · exact absurd rfl (hs b)
  · have hother : ∀ place s' l', x = .call place → (after cs).calls[place]? = some (.work s' l') →
        l'.id = l.id → ∃ b, s' = .leaving b := by
      intro place s' l' hx hcall hid
      by_contra hs
      exact hown ⟨place, s', l', hx, hcall, hid, fun b hb => hs ⟨b, hb⟩⟩
    obtain ⟨s', h', rfl | ⟨b, r, rfl, rfl⟩⟩ := has_other h hother
    · exact .stays h'
    · obtain hsame | ⟨m, hm⟩ := made_or cs x
      · cases (has_unique h (hsame ▸ h') rfl).1
      · exact .resumes b r m rfl hm (hm.resumption? h h') h'

end Session

/-! ## What an await ends with -/

namespace Store

variable {σ σ' : Store} {f : FiberId} {fs : List FiberId} {r : Result}

/-- The other fibers of the scope, in the order in which they were started. -/
def siblings (f : FiberId) (s : ScopeId) (σ : Store) : List FiberId := (σ.tasks s).filter (· ≠ f)

/-- The fiber has an outcome, and that is no error. -/
def Passed (f : FiberId) (σ : Store) : Prop := ∃ o, σ.outcome? f = some o ∧ ∀ e, o ≠ .errored e

/-- What the await of the fiber `f` ends with that joins the fibers `fs` first: the error of the first of
them that has failed, once all before it have outcomes, or, if all have outcomes and none has failed, what
the outcome of the fiber itself says. -/
def Awaited (f : FiberId) (fs : List FiberId) (r : Result) (σ : Store) : Prop :=
  (∃ done f' rest e, fs = done ++ f' :: rest ∧ (∀ g ∈ done, σ.Passed g) ∧
    σ.outcome? f' = some (.errored e) ∧ r = .error e) ∨
  (∀ g ∈ fs, σ.Passed g) ∧ ∃ o, σ.outcome? f = some o ∧ r = o.toResult

theorem Passed.grows (h : σ.Passed f) (hσ : σ.Grows σ') : σ'.Passed f := by
  obtain ⟨o, ho, hne⟩ := h
  exact ⟨o, hσ.outcome? ho, hne⟩

theorem Awaited.grows (h : σ.Awaited f fs r) (hσ : σ.Grows σ') : σ'.Awaited f fs r := by
  obtain ⟨done, f', rest, e, hfs, hdone, hf', hr⟩ | ⟨hall, o, ho, hr⟩ := h
  · exact .inl ⟨done, f', rest, e, hfs, fun g hg => (hdone g hg).grows hσ, hσ.outcome? hf', hr⟩
  · exact .inr ⟨fun g hg => (hall g hg).grows hσ, o, hσ.outcome? ho, hr⟩

/-- **An await ends with a value only if all siblings have outcomes, none of them an error, and the fiber
itself has ended with that value.** -/
theorem awaited_ok_iff {v : Value} :
    σ.Awaited f fs (.ok v) ↔ (∀ g ∈ fs, σ.Passed g) ∧ σ.outcome? f = some (.completed v) := by
  constructor
  · rintro (⟨done, f', rest, e, -, -, -, hr⟩ | ⟨hall, o, ho, hr⟩)
    · cases hr
    · cases o with
      | completed w => exact ⟨hall, by rw [ho, Except.ok.inj hr]⟩
      | errored e => cases hr
      | cancelled => cases hr
  · rintro ⟨hall, ho⟩
    exact .inr ⟨hall, _, ho, rfl⟩

end Store

/-! ## How far an await has come -/

/-- The loop with more frames on its stack. -/
def Loop.onto (fs : List Frame) (l : Loop) : Loop := { l with stack := fs ++ l.stack }

/-- The frame hands the result on. -/
def Frame.Passes (r : Result) (f : Frame) : Prop :=
  ∀ link σ, f.resume r link σ = { store := σ, stage := .handing r, link }

/-- The frames of an await that asks for the outcome of a fiber: first for those of its siblings, one after
the other, and then for its own. -/
inductive Awaiting.Asks (f : FiberId) (fs : List FiberId) (σ : Store) : FiberId → List Frame → Prop
  | sibling (done : List FiberId) (f' : FiberId) (rest : List FiberId) (hfs : fs = done ++ f' :: rest)
    (hdone : ∀ g ∈ done, σ.Passed g) : Asks f fs σ f' [.join rest, .thenJoin f]
  | own (hall : ∀ g ∈ fs, σ.Passed g) : Asks f fs σ f [.bind fun v => .ret (.ofOutcome v)]

/-- How far the await of the fiber `f` has come that joins the fibers `fs` first: the stage of its loop, and
the frames above those that it had when the await began. `Cut` says that one of its waits was cancelled. -/
inductive Awaiting (f : FiberId) (fs : List FiberId) (Cut : Prop) (σ : Store) : Stage → List Frame → Prop
  /-- It comes to the next sibling. -/
  | joins (done rest : List FiberId) (hfs : fs = done ++ rest) (hdone : ∀ g ∈ done, σ.Passed g) :
    Awaiting f fs Cut σ (.looking (.program (.joinEach rest))) [.thenJoin f]
  | asks (g : FiberId) (above : List Frame) (h : Awaiting.Asks f fs σ g above) :
    Awaiting f fs Cut σ (.looking (.program (.outcome g))) above
  | waits (g : FiberId) (above : List Frame) (h : Awaiting.Asks f fs σ g above) (b : BoundaryId) (st : Step)
    (hst : σ.step? b = some st) (hsource : st.source = .outcome g) : Awaiting f fs Cut σ (.leaving b) above
  | hears (g : FiberId) (above : List Frame) (h : Awaiting.Asks f fs σ g above) (o : Outcome Value)
    (ho : σ.outcome? g = some o) (s : Stage) (hs : s.Hands (.ok (.outcome o))) : Awaiting f fs Cut σ s above
  | joined (hall : ∀ g ∈ fs, σ.Passed g) : Awaiting f fs Cut σ (.handing (.ok .unit)) [.thenJoin f]
  /-- It turns to its own fiber. -/
  | owns (hall : ∀ g ∈ fs, σ.Passed g) : Awaiting f fs Cut σ (.looking (.program (.join f))) []
  | learns (v : Value) (r : Result) (h : σ.Awaited f fs r) (hv : Prog.ofOutcome v = .ofResult r) :
    Awaiting f fs Cut σ (.suspending (.ret (.ofOutcome v))) []
  | tells (r : Result) (h : σ.Awaited f fs r) : Awaiting f fs Cut σ (.looking (.program (.ofResult r))) []
  | ends (r : Result) (h : σ.Awaited f fs r ∨ r = .error .cancelled ∧ Cut) (s : Stage) (hs : s.Hands r)
    (above : List Frame) (habove : ∀ frame ∈ above, frame.Passes r) : Awaiting f fs Cut σ s above

section Awaiting

variable {f g : FiberId} {fs : List FiberId} {Cut Cut' : Prop} {σ σ' : Store} {s : Stage} {above : List Frame}

theorem Awaiting.Asks.grows (h : Asks f fs σ g above) (hσ : σ.Grows σ') : Asks f fs σ' g above := by
  cases h with
  | sibling done f' rest hfs hdone => exact .sibling done g rest hfs fun g hg => (hdone g hg).grows hσ
  | own hall => exact .own fun g hg => (hall g hg).grows hσ

/-- An await that asks for an outcome hands on an error. -/
theorem Awaiting.Asks.passes (h : Asks f fs σ g above) (e : Error) :
    ∀ frame ∈ above, frame.Passes (.error e) := by
  intro frame hframe
  cases h with
  | sibling done f' rest hfs hdone =>
    obtain rfl | hframe := List.mem_cons.1 hframe
    · exact fun link σ => rfl
    · cases List.mem_singleton.1 hframe
      exact fun link σ => rfl
  | own hall =>
    cases List.mem_singleton.1 hframe
    exact fun link σ => rfl

theorem Awaiting.grows (h : Awaiting f fs Cut σ s above) (hσ : σ.Grows σ') (hcut : Cut → Cut') :
    Awaiting f fs Cut' σ' s above := by
  cases h with
  | joins done rest hfs hdone => exact .joins done rest hfs fun g hg => (hdone g hg).grows hσ
  | asks g above h => exact .asks g above (h.grows hσ)
  | waits g above h b st hst hsource =>
    obtain ⟨st', hst', hsource', -⟩ := hσ.step hst
    exact .waits g above (h.grows hσ) b st' hst' (hsource'.trans hsource)
  | hears g above h o ho s hs => exact .hears g above (h.grows hσ) o (hσ.outcome? ho) s hs
  | joined hall => exact .joined fun g hg => (hall g hg).grows hσ
  | owns hall => exact .owns fun g hg => (hall g hg).grows hσ
  | learns v r h hv => exact .learns v r (h.grows hσ) hv
  | tells r h => exact .tells r (h.grows hσ)
  | ends r h s hs above habove =>
    exact .ends r (h.imp (·.grows hσ) fun ⟨hr, h⟩ => ⟨hr, hcut h⟩) s hs above habove

/-- The await has received an outcome: it comes to the next sibling, ends with an error, or learns what its
own fiber ended with. -/
theorem Awaiting.Asks.resume {l : Loop} {t : Turn} {frames : List Frame} {o : Outcome Value}
    (h : Asks f fs σ g above) (ho : σ.outcome? g = some o)
    (ht : (l.onto above).Takes σ (.handing (.ok (.outcome o))) t frames) :
    ∃ above', t.loop (l.onto above) frames = l.onto above' ∧ Awaiting f fs Cut t.store t.stage above' := by
  cases ht with
  | handing r frame frames hl =>
    cases h with
    | sibling done f' rest hfs hdone =>
      obtain ⟨rfl, rfl⟩ := List.cons.inj hl
      refine ⟨[.thenJoin f], ?_⟩
      have hpassed : (∀ e, o ≠ .errored e) → ∀ g' ∈ done ++ [g], σ.Passed g' := by
        intro hne g' hg'
        obtain hg' | hg' := List.mem_append.1 hg'
        · exact hdone g' hg'
        · exact List.mem_singleton.1 hg' ▸ ⟨o, ho, hne⟩
      have hfs' : fs = (done ++ [g]) ++ rest := by rw [hfs, List.append_assoc]; rfl
      cases o with
      | errored e =>
        have hawaited : σ.Awaited f fs (.error e) := .inl ⟨done, g, rest, e, hfs, hdone, ho, rfl⟩
        refine ⟨rfl, .ends _ (.inl hawaited) _ (.inl rfl) _ fun frame hframe => ?_⟩
        cases List.mem_singleton.1 hframe
        exact fun link σ => rfl
      | completed v => exact ⟨rfl, .joins _ rest hfs' (hpassed nofun)⟩
      | cancelled => exact ⟨rfl, .joins _ rest hfs' (hpassed nofun)⟩
    | own hall =>
      obtain ⟨rfl, rfl⟩ := List.cons.inj hl
      exact ⟨[], rfl, .learns (.outcome o) o.toResult (.inr ⟨hall, o, ho, rfl⟩) rfl⟩

/-- **A turn brings the await on**, until it hands its result to the frames that its loop had. -/
theorem Awaiting.turn {l : Loop} {t : Turn} {frames : List Frame} (h : Awaiting f fs Cut σ s above)
    (hover : ∀ r, s = .handing r → above ≠ []) (ht : (l.onto above).Takes σ s t frames) :
    ∃ above', t.loop (l.onto above) frames = l.onto above' ∧ Awaiting f fs Cut t.store t.stage above' := by
  cases h with
  | joins done rest hfs hdone =>
    cases ht with
    | looking n hc =>
      cases rest with
      | nil => exact ⟨_, rfl, .joined (by rwa [hfs, List.append_nil])⟩
      | cons f' rest => exact ⟨_, rfl, .asks f' _ (.sibling done f' rest hfs hdone)⟩
  | asks g above h =>
    have hgrows := ht.grows
    cases ht with
    | looking n hc =>
      obtain ⟨st, hst, hsource, -⟩ := σ.step?_awaitOutcome g l.link
      exact ⟨above, rfl, .waits g above (h.grows hgrows) _ st hst hsource⟩
  | waits g above h b st hst hsource => cases ht
  | hears g above h o ho s hs =>
    obtain rfl | rfl := hs
    · cases ht with
      | looking n hc => exact ⟨above, rfl, .hears g above h o ho _ (.inr rfl)⟩
    · exact h.resume ho ht
  | joined hall =>
    cases ht with
    | handing r frame frames hl =>
      obtain ⟨rfl, rfl⟩ := List.cons.inj hl
      exact ⟨[], rfl, .owns hall⟩
  | owns hall =>
    cases ht with
    | looking n hc => exact ⟨_, rfl, .asks f _ (.own hall)⟩
  | learns v r h hv =>
    cases ht with
    | suspending c => exact ⟨[], rfl, hv ▸ .tells r h⟩
  | tells r h =>
    cases ht with
    | looking n hc =>
      cases r with
      | ok v => exact ⟨[], rfl, .ends _ (.inl h) _ (.inr rfl) [] nofun⟩
      | error e => exact ⟨[], rfl, .ends _ (.inl h) _ (.inr rfl) [] nofun⟩
  | ends r h s hs above habove =>
    obtain rfl | rfl := hs
    · cases ht with
      | looking n hc => exact ⟨above, rfl, .ends r h _ (.inr rfl) above habove⟩
    · cases above with
      | nil => exact absurd rfl (hover r rfl)
      | cons frame above =>
        cases ht with
        | handing r' frame' frames hl =>
          obtain ⟨rfl, rfl⟩ := List.cons.inj hl
          rw [habove frame (.head _)]
          exact ⟨above, rfl, .ends r h _ (.inr rfl) above fun f hf => habove f (.tail _ hf)⟩

/-- With the outcome that it waited for the await goes on. If its wait was cancelled, it ends with that. -/
theorem Awaiting.resumed {b : BoundaryId} {r : Result} (h : Awaiting f fs Cut σ (.leaving b) above)
    (hr : ∀ g st, σ.step? b = some st → st.source = .outcome g →
      σ.Hears g r ∧ (r = .error .cancelled → Cut)) : Awaiting f fs Cut σ (.looking (.result r)) above := by
  cases h with
  | waits g above h b st hst hsource =>
    obtain ⟨rfl | ⟨o, rfl, ho⟩, hcut⟩ := hr g st hst hsource
    · exact .ends _ (.inr ⟨rfl, hcut rfl⟩) _ (.inl rfl) above (h.passes .cancelled)
    · exact .hears g above h o ho _ (.inl rfl)
  | hears g above h o ho s hs => obtain hs | hs := hs <;> cases hs
  | ends r h s hs => obtain hs | hs := hs <;> cases hs

/-- What an await hands to the frames that its loop had. -/
theorem Awaiting.ended {r : Result} (h : Awaiting f fs Cut σ (.handing r) []) :
    σ.Awaited f fs r ∨ r = .error .cancelled ∧ Cut := by
  generalize hstage : Stage.handing r = s at h
  generalize habove : ([] : List Frame) = above at h
  cases h with
  | ends r' h s hs above =>
    obtain rfl | rfl := hs <;> cases hstage
    exact h
  | hears g above h => cases h <;> cases habove
  | joined => cases habove
  | _ => cases hstage

end Awaiting

/-! ## Awaits of a session -/

namespace Session

variable {f : FiberId} {fs : List FiberId} {s : ScopeId} {l₀ : Loop} {began cs : List Choice}

/-- A wait of this execution was cancelled after these choices: it went on with cancellation from a step of
which somebody had run the token. -/
def Interrupted (l₀ : Loop) (began : List Choice) (S : Session) : Prop :=
  ∃ newer m older b l, S.past = newer ++ m :: older ∧ (after began).past <:+ older ∧
    m.resumption? b = some (.error .cancelled, l) ∧ l.id = l₀.id ∧
    ∃ m' ∈ older, ∃ a, m'.call = some a ∧ a.Runs b m'.before

/-- After these choices the loop has looked for the siblings of the fiber in the scope, and has found
these. -/
def Found (f : FiberId) (s : ScopeId) (l₀ : Loop) (began : List Choice) (fs : List FiberId) (S : Session) :
    Prop :=
  ∃ newer m older, S.past = newer ++ m :: older ∧ (after began).past <:+ older ∧
    m.call = some (.work (.looking (.program (.joinScope s (some f)))) (l₀.onto [.thenJoin f])) ∧
    m.before.isCancelled l₀.link = false ∧ fs = m.before.siblings f s

/-- The await of the fiber that began with these choices is still going on: it is about to look for the
siblings, or has found some. -/
inductive StillAwaits (f : FiberId) (s : ScopeId) (l₀ : Loop) (began : List Choice) (S : Session) : Prop
  | begins (h : S.Has (.looking (.program (.joinScope s (some f)))) (l₀.onto [.thenJoin f]))
  | goesOn (fs : List FiberId) (st : Stage) (above : List Frame) (hfound : S.Found f s l₀ began fs)
    (h : S.Has st (l₀.onto above)) (hawaiting : Awaiting f fs (S.Interrupted l₀ began) S.store st above)

/-- The await ends with the choice: its execution is stopped, since its connection was cancelled, or it hands
its result to the frames that it had before. -/
inductive EndsAwait (f : FiberId) (s : ScopeId) (l₀ : Loop) (began cs : List Choice) (x : Choice) : Prop
  | stopped (place : Nat) (n : Node) (above : List Frame) (hx : x = .call place)
    (hcall : (after cs).calls[place]? = some (.work (.looking n) (l₀.onto above)))
    (hc : (after cs).store.isCancelled l₀.link = true)
  | ended (place : Nat) (r : Result) (fs : List FiberId) (hx : x = .call place)
    (hcall : (after cs).calls[place]? = some (.work (.handing r) l₀))
    (hfound : (after cs).Found f s l₀ began fs)
    (h : (after cs).store.Awaited f fs r ∨ r = .error .cancelled ∧ (after cs).Interrupted l₀ began)

theorem Interrupted.next (h : (after cs).Interrupted l₀ began) (x : Choice) :
    (after (x :: cs)).Interrupted l₀ began := by
  obtain ⟨newer, m, older, b, l, hpast, hrest⟩ := h
  obtain ⟨latest, hlatest⟩ := past_suffix cs [x]
  refine ⟨latest ++ newer, m, older, b, l, ?_, hrest⟩
  rw [List.append_assoc, ← hpast]
  exact hlatest.symm

theorem Found.next (h : (after cs).Found f s l₀ began fs) (x : Choice) :
    (after (x :: cs)).Found f s l₀ began fs := by
  obtain ⟨newer, m, older, hpast, hrest⟩ := h
  obtain ⟨latest, hlatest⟩ := past_suffix cs [x]
  refine ⟨latest ++ newer, m, older, ?_, hrest⟩
  rw [List.append_assoc, ← hpast]
  exact hlatest.symm

/-- **Who waits for an outcome hears of cancellation only after somebody has run the token of its step.** -/
theorem runs_of_resumption {x : Choice} {m : Moment} {b : BoundaryId} {g : FiberId} {st : Step} {l : Loop}
    (hm : Made cs x m) (hst : (after cs).store.step? b = some st) (hsource : st.source = .outcome g)
    (hr : m.resumption? b = some (.error .cancelled, l)) :
    ∃ m' ∈ (after cs).past, ∃ a, m'.call = some a ∧ a.Runs b m'.before := by
  obtain ⟨st', hst', hsource', -⟩ := (after_grows cs [x]).step hst
  have hresumed : (.error .cancelled, l) ∈ (after (x :: cs)).resumptions b :=
    List.mem_filterMap.2 ⟨m, by rw [hm.past]; exact .head _, hr⟩
  rw [resumptions_eq, Option.mem_toList] at hresumed
  obtain ⟨r, hlast, hr'⟩ := Option.bind_eq_some_iff.1 hresumed
  obtain ⟨l', -, hl'⟩ := Option.map_eq_some_iff.1 hr'
  cases hl'
  -- what it was told first is the first that was offered to the step
  have hended : .error .cancelled ∈ (after (x :: cs)).endings b :=
    (completed_as_ended hst').1 ▸ List.mem_append_right _ (List.mem_of_getLast? hlast)
  rw [resolved_first, Option.mem_toList] at hended
  obtain ⟨m₁, hm₁, hresolves⟩ := List.mem_filterMap.1 (List.mem_of_getLast? hended)
  obtain ⟨newer, older, hpast⟩ := List.append_of_mem hm₁
  obtain hcall | ⟨-, v, l₁, frames, -, -, m', hm', l', hcall', hc, -⟩ := of_resolution hst' hpast hresolves
  · obtain ⟨cs₂, y, cs₁, -, -, hmade⟩ := exists_made hpast
    obtain ⟨i, -, hnone, -⟩ | ⟨place, a, -, ha, hsome, -⟩ := hmade.how
    · cases hnone.symm.trans hcall
    · cases hsome.symm.trans hcall
      have hdue : st'.source.Due (after cs₁).store (.error .cancelled) := (apt cs₁).2 _ (List.mem_of_getElem? ha)
      rw [hsource', hsource] at hdue
      obtain ⟨o, -, ho⟩ := hdue
      cases ho
  · refine ⟨m', ?_, _, hcall', l', rfl, hc⟩
    rw [hm.past] at hpast
    cases newer with
    | nil => exact (List.cons.inj hpast).2 ▸ hm'
    | cons m₂ newer => exact (List.cons.inj hpast).2 ▸ List.mem_append_right _ (.tail _ hm')

/-- **An await goes on with every choice, or ends with it.** -/
theorem StillAwaits.next (h : (after cs).StillAwaits f s l₀ began) (hbegan : (after began).past <:+ (after cs).past)
    (x : Choice) : (after (x :: cs)).StillAwaits f s l₀ began ∨ EndsAwait f s l₀ began cs x := by
  have hgrows := after_grows cs [x]
  cases h with
  | begins h =>
    cases h.proceeds x with
    | stays h => exact .inl (.begins h)
    | turns place t frames hx hcall ht hstore h =>
      subst hx
      cases ht with
      | looking n hc =>
        have hsiblings : ((after cs).store.tasks s).filter (fun f' => some f ≠ some f') =
            (after cs).store.siblings f s := List.filter_congr fun f' _ => by simp [eq_comm]
        have hfound : (after (.call place :: cs)).Found f s l₀ began ((after cs).store.siblings f s) :=
          ⟨[], _, (after cs).past, (made_call hcall).past, hbegan, rfl, hc, rfl⟩
        refine .inl (.goesOn _ _ _ hfound h ?_)
        rw [← hsiblings]
        exact .joins [] _ rfl nofun
    | resumes b r m hs => cases hs
    | stops place n hx hcall hs hc => exact .inr (.stopped place n _ hx (hs ▸ hcall) hc)
    | ends place r hx hcall hs => cases hs
  | goesOn fs st above hfound h hawaiting =>
    have hcut : (after cs).Interrupted l₀ began → (after (x :: cs)).Interrupted l₀ began := (·.next x)
    by_cases hover : ∃ r, st = .handing r ∧ above = []
    · obtain ⟨r, rfl, rfl⟩ := hover
      cases h.proceeds x with
      | stays h => exact .inl (.goesOn fs _ _ (hfound.next x) h (hawaiting.grows hgrows hcut))
      | turns place t frames hx hcall => exact .inr (.ended place r fs hx hcall hfound hawaiting.ended)
      | resumes b r m hs => cases hs
      | stops place n hx hcall hs => cases hs
      | ends place r' hx hcall => exact .inr (.ended place r fs hx hcall hfound hawaiting.ended)
    · cases h.proceeds x with
      | stays h => exact .inl (.goesOn fs _ _ (hfound.next x) h (hawaiting.grows hgrows hcut))
      | turns place t frames hx hcall ht hstore h =>
        obtain ⟨above', hl, hturn⟩ := hawaiting.turn (fun r hr ha => hover ⟨r, hr, ha⟩) ht
        rw [← hstore] at hturn
        exact .inl (.goesOn fs _ above' (hfound.next x) (hl ▸ h) (hturn.grows (.refl _) hcut))
      | resumes b r m hs hm hr h' =>
        subst hs
        have hpast : m ∈ (after (x :: cs)).past := by rw [hm.past]; exact .head _
        have htold : ∀ g st, (after cs).store.step? b = some st → st.source = .outcome g →
            (after cs).store.Hears g r ∧ (r = .error .cancelled → (after (x :: cs)).Interrupted l₀ began) := by
          intro g st hst hsource
          refine ⟨hm.before ▸ hears_of_resumption hpast hr (hm.before ▸ hst) hsource, ?_⟩
          rintro rfl
          exact ⟨[], m, _, b, _, hm.past, hbegan, hr, rfl, runs_of_resumption hm hst hsource hr⟩
        have hresumed := (hawaiting.grows (.refl _) hcut).resumed htold
        exact .inl (.goesOn fs _ above (hfound.next x) h' (hresumed.grows hgrows id))
      | stops place n hx hcall hs hc => exact .inr (.stopped place n above hx (hs ▸ hcall) hc)
      | ends place r hx hcall hs hl => exact absurd ⟨r, hs, (List.append_eq_nil_iff.1 hl).1⟩ hover

/-- **An await joins its siblings first.** It goes on until it ends with a choice: either its execution is
stopped, since its connection was cancelled, or it hands a result to the frames that it had before. It has
looked for the other fibers of its scope then, and
* the result is a value only if each of those has an outcome, none of them an error, and its own fiber is
  completed with that value;
* if one of them has failed, it is the error of the one that was started first, and all that were started
  before that have outcomes;
* those that were cancelled count as joined, and if none has failed, it is the error of its own fiber, or that
  of cancellation if its own fiber was cancelled,

unless one of its waits was cancelled, and then it is the error of cancellation. -/
theorem await_joins_siblings {place : Nat} {cs₀ : List Choice}
    (hcall : (after cs₀).calls[place]? = some (.work (.looking (.program (.awaitTask f s))) l₀))
    (hc : (after cs₀).store.isCancelled l₀.link = false) (cs : List Choice) :
    (∀ cs', cs' <:+ cs →
      (after (cs' ++ .call place :: cs₀)).StillAwaits f s l₀ (.call place :: cs₀)) ∨
    ∃ later x cs₁, cs = later ++ x :: cs₁ ∧
      (∀ cs', cs' <:+ cs₁ →
        (after (cs' ++ .call place :: cs₀)).StillAwaits f s l₀ (.call place :: cs₀)) ∧
      EndsAwait f s l₀ (.call place :: cs₀) (cs₁ ++ .call place :: cs₀) x := by
  induction cs with
  | nil =>
    refine .inl fun cs' hcs' => ?_
    rw [List.suffix_nil.1 hcs']
    exact .begins (.inl (work_of_takes hcall (.looking _ hc)))
  | cons x cs ih =>
    obtain hgoes | ⟨later, y, cs₁, rfl, hgoes, hends⟩ := ih
    · have hbegan := past_suffix (.call place :: cs₀) cs
      obtain hnext | hends := (hgoes cs List.suffix_rfl).next hbegan x
      · refine .inl fun cs' hcs' => ?_
        obtain rfl | hcs' := List.suffix_cons_iff.1 hcs'
        · exact hnext
        · exact hgoes cs' hcs'
      · exact .inr ⟨[], x, cs, rfl, hgoes, hends⟩
    · exact .inr ⟨x :: later, y, cs₁, rfl, hgoes, hends⟩

/-- A scope in which one task ends with a value and the next one fails is about to await the first. -/
def awaitsFirst : List Choice :=
  List.replicate 35 (.call 0) ++ [.input (.run (.scoped .immediate fun s =>
    .ret (.bind (.spawn s (.pure (.int 7))) fun
      | .handle (.task f s) => .ret (.seq (.spawn s (.raise (.msg "failed"))) (.awaitTask f s))
      | _ => .ret .unit)) none false)]

set_option maxRecDepth 2000 in
/-- The await ends with the error of its sibling. -/
theorem await_raises_failure :
    (after awaitsFirst).calls[0]? =
        some (.work (.looking (.program (.awaitTask 0 0))) ⟨0, none, [.release 0], .observer 0⟩) ∧
      (after awaitsFirst).store.isCancelled none = false ∧ (after awaitsFirst).store.siblings 0 0 = [1] ∧
      let S := after (List.replicate 11 (.call 0) ++ .call 0 :: awaitsFirst)
      S.calls[0]? = some (.work (.handing (.error (.msg "failed"))) ⟨0, none, [.release 0], .observer 0⟩) ∧
        ∃ fs, S.Found 0 0 ⟨0, none, [.release 0], .observer 0⟩ (.call 0 :: awaitsFirst) fs ∧
          S.store.Awaited 0 fs (.error (.msg "failed")) := by
  have hcall : (after awaitsFirst).calls[0]? =
      some (.work (.looking (.program (.awaitTask 0 0))) ⟨0, none, [.release 0], .observer 0⟩) := rfl
  have hfailed : (after (List.replicate 11 (.call 0) ++ .call 0 :: awaitsFirst)).calls[0]? =
      some (.work (.handing (.error (.msg "failed"))) ⟨0, none, [.release 0], .observer 0⟩) := rfl
  refine ⟨hcall, rfl, rfl, hfailed, ?_⟩
  obtain hgoes | ⟨later, x, cs₁, hcs, -, hends⟩ := await_joins_siblings hcall rfl (List.replicate 11 (.call 0))
  · cases hgoes _ List.suffix_rfl with
    | begins h => cases (has_unique h (.inl (List.mem_of_getElem? hfailed)) rfl).1
    | goesOn fs st above hfound h hawaiting =>
      obtain ⟨rfl, hl⟩ := has_unique h (.inl (List.mem_of_getElem? hfailed)) rfl
      obtain rfl : above = [] := List.append_left_eq_self.1 (congrArg Loop.stack hl).symm
      obtain hawaited | ⟨hcancelled, -⟩ := hawaiting.ended
      · exact ⟨fs, hfound, hawaited⟩
      · cases hcancelled
  · have hfirst : ∀ k < 11, ∀ r, (after (List.replicate k (.call 0) ++ .call 0 :: awaitsFirst)).calls[0]? ≠
        some (.work (.handing r) ⟨0, none, [.release 0], .observer 0⟩) := by
      intro k hk r h
      interval_cases k <;> cases h
    obtain ⟨hlength, -, hrest⟩ := List.replicate_eq_append_iff.1 hcs
    obtain ⟨rfl, hcs₁⟩ := List.cons.inj hrest
    rw [hcs₁] at hends
    cases hends with
    | stopped place n above hx hcall hc => cases hc
    | ended place r fs hx hcall hfound h =>
      cases hx
      rw [List.length_cons] at hlength
      exact absurd hcall (hfirst cs₁.length (by omega) r)

end Session

end CancelableEffects
