import CancelableEffects.Proofs.Decisions
import Mathlib.Data.List.Nodup

/-!
# Forks — the first end that decides, and the values of both sides

* `Fork.receive`: a fork after one of its sides has ended.
* **`Activity.step_fork?`**: a fork changes only then.
* **`Activity.of_matter`**: who completes a boundary, now or later, by what keeps it.
* `ForkKind.decider?`: the first end after which the other side is cancelled.
* **`Fork.Fresh.mem_answer`**: what follows the end of a side.
-/

namespace CancelableEffects

/-! ## Ends -/

/-- The other side. -/
def Side.other : Side → Side
  | .left => .right
  | .right => .left

/-- The connection under which the side runs. -/
def Fork.connection (f : Fork) : Side → ConnectionId
  | .left => f.left
  | .right => f.right

/-- The fork has the value of the side. -/
def Fork.keep (f : Fork) (v : Value) : Side → Fork
  | .left => { f with leftValue := some v }
  | .right => { f with rightValue := some v }

/-- The fork after a side has ended. -/
def Fork.receive (f : Fork) (x : Side × Result) : Fork :=
  if f.settled then f
  else if f.settles x.1 x.2 then { f with settled := true }
  else match x.2 with
    | .ok v => f.keep v x.1
    | .error _ => f

/-- The call hands the result of a side over to the fork. -/
def Activity.end? (k : ForkId) : Activity → Option (Side × Result)
  | .deliver _ (.side k' x) r => if k' = k then some (x, r) else none
  | _ => none

theorem Activity.of_end? {k : ForkId} {a : Activity} {x : Side × Result} (h : a.end? k = some x) :
    ∃ e, a = .deliver e (.side k x.1) x.2 := by
  unfold end? at h
  split at h
  · split at h <;> cases h
    subst k
    exact ⟨_, rfl⟩
  · cases h

/-! ## Steps -/

section Steps

variable {σ : Store} {k : ForkId} {f : Fork}

/-- The fork that the edit is about. -/
def Edit.fork? : Edit → Option ForkId
  | .value k _ _ | .endsFork k => some k
  | _ => none

/-- A fork stays as it is unless an edit is about it. -/
theorem Edit.keeps_fork {e : Edit} (he : e.fork? ≠ some k) : e.Keeps fun b x => b = k ∧ x = .fork f := by
  rintro xs b x hx ⟨rfl, rfl⟩
  have hmodify : ∀ (b' : BoundaryId) (g : Keeper → Keeper), (b' = b → g (.fork f) = .fork f) →
      ∃ x', (xs.modify b' g)[b]? = some x' ∧ b = b ∧ x' = .fork f := fun b' g hg =>
    getElem?_modify (P := fun b x => b = b ∧ x = .fork f) hx ⟨rfl, rfl⟩ fun hb => ⟨rfl, hg hb⟩
  cases e with
  | opens y =>
    obtain ⟨hlt, hy⟩ := Array.getElem?_eq_some_iff.1 hx
    exact ⟨_, Array.getElem?_push_lt hlt, rfl, hy⟩
  | value k side v => cases side <;> exact hmodify _ _ fun hk => absurd (congrArg some hk) he
  | endsFork k => exact hmodify _ _ fun hk => absurd (congrArg some hk) he
  | _ => exact hmodify _ _ fun _ => rfl

/-- Only when a side has ended is an edit about its fork. -/
theorem Activity.of_edit_fork {a : Activity} {e : Edit} (he : e ∈ a.edits σ) (hk : e.fork? = some k) :
    ∃ x, a.end? k = some x := by
  cases a.makes_of_edits he with
  | @value k' f x e' v hf hopen => exact ⟨(x, .ok v), if_pos (Option.some.inj hk)⟩
  | @endsFork k' f x r e' hf hsettles => exact ⟨(x, r), if_pos (Option.some.inj hk)⟩
  | _ => cases hk

/-- The edits of an end make the fork what it is then. -/
theorem Fork.edits_receive {xs : Array Keeper} (hxs : xs[k]? = some (.fork f)) (x : Side) (r : Result) :
    ((f.edits k x r).foldl Edit.apply xs)[k]? = some (.fork (f.receive (x, r))) := by
  have hmodify : ∀ g : Fork → Fork, (xs.modify k (.mapFork g))[k]? = some (.fork (g f)) := fun g => by
    rw [Array.getElem?_modify, if_pos rfl, hxs]
    rfl
  unfold Fork.edits Fork.receive
  split
  · exact hxs
  · split
    · exact hmodify _
    · cases r with
      | ok v => cases x <;> exact hmodify _
      | error e => exact hxs

/-- **A fork changes only when one of its sides has ended.** -/
theorem Activity.step_fork? (a : Activity) (h : σ.fork? k = some f) :
    (a.step σ).1.fork? k = some ((a.end? k).elim f f.receive) := by
  have hdoes := a.step_does σ
  rw [Store.fork?_eq_some] at h ⊢
  cases hend : a.end? k with
  | some x =>
    obtain ⟨e, rfl⟩ := a.of_end? hend
    rw [hdoes.keeper?]
    simp only [Activity.edits, Sink.edits, Store.fork?_eq_some.2 h, Option.map_some, Option.getD_some]
    exact Fork.edits_receive h x.1 x.2
  | none =>
    have hes : ∀ e ∈ a.edits σ, e.Keeps fun b x => b = k ∧ x = .fork f := fun e he =>
      Edit.keeps_fork fun hk => by
        obtain ⟨x, hx⟩ := a.of_edit_fork he hk
        cases hend.symm.trans hx
    obtain ⟨x, hx, -, rfl⟩ := hdoes.keeps hes h ⟨rfl, rfl⟩
    exact hx

theorem Input.step_fork? (i : Input) (h : σ.fork? k = some f) : (i.step σ).1.fork? k = some f := by
  rw [Store.fork?_eq_some] at h ⊢
  rw [(i.step_does σ).keeper?]
  exact h

/-! ## Calls about a fork -/

/-- Whether the result of a side settles the fork such that the other side is cancelled. -/
def ForkKind.decides : ForkKind → Result → Bool
  | .first, _ => true
  | .both, r => !r.isOk

/-- The value of a fork whose side has ended with `v`, given the value of the other side. -/
def Fork.pairs (f : Fork) (v : Value) : Side → Value
  | .left => .pair v (f.rightValue.getD .unit)
  | .right => .pair (f.leftValue.getD .unit) v

/-- What follows the end of a side. -/
def Fork.answer (k : ForkId) (f : Fork) (x : Side) (r : Result) : List Activity :=
  if f.settles x r then
    match r with
    | .ok v =>
      if f.kind.decides r then
        [.start (.token (.connection (some (f.connection x.other)))) none (.settle k (.ok (x.tag v)))]
      else [.complete (.boundary k) (.ok (f.pairs v x))]
    | .error e => [.start (.token (.connection (some (f.connection x.other)))) none (.settle k (.error e))]
  else []

theorem Store.endSide_calls (hf : σ.fork? k = some f) (x : Side) (r : Result) :
    (σ.endSide k x r).2 = f.answer k x r := by
  obtain ⟨kind, parent, left, right, settled, leftValue, rightValue⟩ := f
  simp only [Store.endSide, hf, Fork.answer, Fork.settles]
  cases settled with
  | true => rfl
  | false =>
    cases kind with
    | first => cases r <;> cases x <;> rfl
    | both =>
      cases r with
      | error e => cases x <;> rfl
      | ok v => cases x <;> cases leftValue <;> cases rightValue <;> rfl

/-- The boundary that is completed by the matter, now or later. -/
def Matter.boundary? : Matter → Option BoundaryId
  | .completes b _ | .ends b => some b
  | _ => none

/-- The call is one after which the matter of the boundary with this keeper follows: for a fork, a side has
ended, or the execution that cancelled a side; for a duel whose fibers are there, one of them has an outcome,
or the execution that cancelled a fiber has ended. Nothing is said of other keepers. -/
def Activity.Finishes (a : Activity) (m : Matter) (b : BoundaryId) : Keeper → Prop
  | .fork _ => (∃ e x r, a = .deliver e (.side b x) r) ∨
      ∃ e x r, a = .deliver e (.settle b x) r ∧ m = .completes b (x.afterCancel r)
  | .duel none => False
  | .duel (some d) => (∃ f x o, a = .notify f (.duel b x) o ∧ d.settled = false ∧ m = d.matter b x o) ∨
      ∃ e cause r, a = .deliver e (.fail b cause) r ∧ m = .completes b (.error (.afterCancel cause r))
  | _ => True

/-- **Which calls complete a boundary, now or later.** -/
theorem Activity.of_matter {a : Activity} {m : Matter} {b : BoundaryId} (h : m ∈ a.matters σ)
    (hm : m.boundary? = some b) : ∃ y, σ.keeper? b = some y ∧ a.Finishes m b y := by
  cases a.raises_of_matters h with
  | racePair hc => cases hm
  | startRight left q on parent k => cases hm
  | callback r hb =>
    cases hm
    exact ⟨_, hb, trivial⟩
  | step r hs hc =>
    cases hm
    exact ⟨_, Store.step?_eq_some.1 hs, trivial⟩
  | endStep hl hs hends =>
    cases hm
    exact ⟨_, Store.step?_eq_some.1 hs, trivial⟩
  | refused e x hg | acquired e v hg hc | acquiredLate e v hg hc | releasedLate e r hg =>
    cases hm
    exact ⟨_, Store.bracket?_eq_some.1 hg, trivial⟩
  | side e hf hmatters =>
    obtain ⟨-, rfl | ⟨v, rfl⟩⟩ := Fork.of_matters hmatters
    all_goals
      cases hm
      exact ⟨_, Store.fork?_eq_some.1 hf, .inl ⟨e, _, _, rfl⟩⟩
  | settle e x r hf =>
    cases hm
    exact ⟨_, Store.fork?_eq_some.1 hf, .inr ⟨e, x, r, rfl, rfl⟩⟩
  | @outcome k d f x o hd hopen =>
    obtain rfl : k = b := by cases o <;> exact Option.some.inj hm
    exact ⟨_, Store.duel?_eq_some.1 hd, .inl ⟨f, x, o, rfl, hopen, rfl⟩⟩
  | fail e cause r hd =>
    cases hm
    exact ⟨_, Store.duel?_eq_some.1 hd, .inr ⟨e, cause, r, rfl, rfl⟩⟩

/-- A call about a fork follows when a side has ended, or at the end of the execution that cancelled a
side. -/
theorem Activity.of_matter_fork {a : Activity} {m : Matter} (h : m ∈ a.matters σ)
    (hm : m.boundary? = some k) (hf : σ.fork? k = some f) : (∃ e x r, a = .deliver e (.side k x) r) ∨
      ∃ e x r, a = .deliver e (.settle k x) r ∧ m = .completes k (x.afterCancel r) := by
  obtain ⟨y, hy, hfinishes⟩ := a.of_matter h hm
  cases hy.symm.trans (Store.fork?_eq_some.1 hf)
  exact hfinishes

end Steps

/-! ## What the ends of its sides make of a fork -/

/-- The fork after the ends, the latest first. -/
def Fork.after (f : Fork) (ends : List (Side × Result)) : Fork := ends.foldr (fun x f => f.receive x) f

/-- The first end that settles a fork such that the other side is cancelled. -/
def ForkKind.decider? (kind : ForkKind) (ends : List (Side × Result)) : Option (Side × Result) :=
  ends.reverse.find? fun x => kind.decides x.2

/-- The pair of the values of both sides. -/
def Paired (ends : List (Side × Result)) (v : Value) : Prop :=
  ∃ a b, v = .pair a b ∧ (Side.left, .ok a) ∈ ends ∧ (Side.right, .ok b) ∈ ends

/-- The call that cancels the side other than that which ended, and then completes the boundary. -/
def Fork.cancelsOther (k : ForkId) (f : Fork) (x : Side × Result) : Activity :=
  .start (.token (.connection (some (f.connection x.1.other)))) none (.settle k (x.2.map x.1.tag))

/-- No side of the fork has ended. -/
structure Fork.Fresh (f : Fork) : Prop where
  settled : f.settled = false
  left : f.leftValue = none
  right : f.rightValue = none

section Fold

variable {k : ForkId} {f : Fork} {kind : ForkKind} {ends : List (Side × Result)} {x y : Side × Result}

theorem Side.eq_or_other (side side' : Side) : side' = side ∨ side' = side.other := by
  cases side <;> cases side' <;> first | exact .inl rfl | exact .inr rfl

/-- If each side ends once, then none has ended before, or the other one has. -/
theorem before_end (h : ((x :: ends).map Prod.fst).Nodup) : ends = [] ∨ ∃ r, ends = [(x.1.other, r)] := by
  rcases ends with _ | ⟨y, _ | ⟨z, rest⟩⟩
  · exact .inl rfl
  · simp only [List.map_cons, List.map_nil, List.nodup_cons, List.mem_singleton] at h
    rcases x.1.eq_or_other y.1 with hy | hy
    · exact absurd hy.symm h.1
    · exact .inr ⟨y.2, by rw [← hy]⟩
  · simp only [List.map_cons, List.nodup_cons, List.mem_cons, not_or] at h
    obtain ⟨⟨hxy, hxz, -⟩, ⟨hyz, -⟩, -⟩ := h
    rcases x.1.eq_or_other y.1 with hy | hy
    · exact absurd hy.symm hxy
    · rcases x.1.eq_or_other z.1 with hz | hz
      · exact absurd hz.symm hxz
      · exact absurd (hy.trans hz.symm) hyz

/-- An end decides if it is the first that does. -/
theorem ForkKind.decider?_cons : kind.decider? (x :: ends) =
    (kind.decider? ends).or (if kind.decides x.2 then some x else none) := by
  rw [decider?, List.reverse_cons, List.find?_append, List.find?_singleton]
  rfl

/-- The first end that decides stays the first. -/
theorem ForkKind.decider?_stays (h : kind.decider? ends = some y) :
    kind.decider? (x :: ends) = some y := by
  rw [decider?_cons, h, Option.some_or]

/-- If both sides have ended with a value, none of the ends decides. -/
theorem Paired.decider? {v : Value} (h : Paired ends v) (hends : (ends.map Prod.fst).Nodup) :
    ForkKind.both.decider? ends = none := by
  obtain ⟨a, b, -, hleft, hright⟩ := h
  refine List.find?_eq_none.2 fun y hy => ?_
  have hsame : ∀ z ∈ ends, z.1 = y.1 → z = y := fun z hz hzy =>
    List.inj_on_of_nodup_map hends hz (List.mem_reverse.1 hy) hzy
  obtain ⟨side, r⟩ := y
  cases side with
  | left =>
    cases hsame _ hleft rfl
    exact Bool.false_ne_true
  | right =>
    cases hsame _ hright rfl
    exact Bool.false_ne_true

/-- **What follows the end of a side.** If it is the first end that decides, the other side is cancelled;
if it is the second of two ends with values, they are paired; and else nothing follows. -/
theorem Fork.Fresh.mem_answer (hf : f.Fresh) (h : ((x :: ends).map Prod.fst).Nodup) {a : Activity} :
    a ∈ (f.after ends).answer k x.1 x.2 ↔
      (f.kind.decider? ends = none ∧ f.kind.decider? (x :: ends) = some x ∧ a = f.cancelsOther k x) ∨
        f.kind = .both ∧ ∃ v, Paired (x :: ends) v ∧ a = .complete (.boundary k) (.ok v) := by
  obtain ⟨kind, parent, left, right, settled, leftValue, rightValue⟩ := f
  obtain ⟨rfl, rfl, rfl⟩ : settled = false ∧ leftValue = none ∧ rightValue = none := ⟨hf.1, hf.2, hf.3⟩
  obtain ⟨side, r⟩ := x
  rcases before_end h with rfl | ⟨r', rfl⟩
  · cases kind <;> cases r <;> cases side <;>
      simp [Fork.after, Fork.answer, Fork.settles, ForkKind.decides, ForkKind.decider?, Paired,
        Fork.cancelsOther, Except.map, Except.isOk, Except.toBool]
  · cases kind <;> cases r <;> cases side <;> cases r' <;>
      simp [Fork.after, Fork.receive, Fork.keep, Fork.answer, Fork.settles, Fork.pairs, Side.other,
        ForkKind.decides, ForkKind.decider?, Paired, Fork.cancelsOther, Except.map, Except.isOk, Except.toBool,
        Fork.connection]

end Fold

end CancelableEffects
