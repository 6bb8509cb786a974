import CancelableEffects.Proofs.Session

/-!
# Stores alike — changes that brackets do not notice

* `Store.armed`: the brackets whose tokens are on a connection.
* `Store.KeepsFibers`: fibers stay, and keep their connections and outcomes.
* `Store.Alike`: two stores have the same brackets in the same states, the same tokens of brackets,
  and the same connections cancelled.
* `Store.Alike.modifyKeeper`, `Store.Alike.newBoundary`, `Store.Alike.newConnection`,
  `Store.Alike.push`, `Store.Alike.modifyPromise`, `Store.Alike.newFiber`: changes that lead to stores
  alike.
-/

namespace CancelableEffects

/-! ## Stores -/

/-- The bracket that the token releases. -/
def Token.bracket? : Token → Option BracketId
  | .bracket g => some g
  | _ => none

/-- The brackets whose tokens are on the connection, newest first. -/
def Store.armed (c : ConnectionId) (σ : Store) : List BracketId :=
  ((σ.connections[c]?.map Connection.tokens).getD []).filterMap Token.bracket?

/-- The same bracket, whose gate is open or not alike; others may wait there. -/
structure Bracket.Alike (br br' : Bracket) : Prop where
  owner : br'.owner = br.owner
  link : br'.link = br.link
  release : br'.release = br.release
  resource : br'.resource = br.resource
  gate : br'.gate = .opened ↔ br.gate = .opened

/-- Keepers of one kind, with the same fixed data. -/
def Keeper.Alike : Keeper → Keeper → Prop
  | .callback, .callback => True
  | .step s, .step s' => s'.source = s.source ∧ s'.link = s.link
  | .bracket br, .bracket br' => br.Alike br'
  | .fork f, .fork f' =>
    f'.kind = f.kind ∧ f'.parent = f.parent ∧ f'.left = f.left ∧ f'.right = f.right
  | .duel _, .duel _ => True
  | _, _ => False

/-- The fibers stay, and keep their connections and the outcomes that they have. -/
def Store.KeepsFibers (σ σ' : Store) : Prop :=
  ∀ (f : FiberId) (x : Fiber), σ.fibers[f]? = some x →
    ∃ x', σ'.fibers[f]? = some x' ∧ x'.connection = x.connection ∧
      ∀ o, x.promise.get = some o → x'.promise.get = some o

/-- The stores have the same brackets and the same tokens of brackets; fibers stay. -/
structure Store.Alike (σ σ' : Store) : Prop where
  old : ∀ b x, σ.keeper? b = some x → ∃ x', σ'.keeper? b = some x' ∧ x.Alike x'
  new : ∀ b, σ.keeper? b = none → σ'.bracket? b = none
  armed : ∀ c, σ'.armed c = σ.armed c
  cancelled : ∀ link, σ'.isCancelled link = σ.isCancelled link
  fibers : σ.KeepsFibers σ'

theorem Bracket.Alike.refl (br : Bracket) : br.Alike br := ⟨rfl, rfl, rfl, rfl, Iff.rfl⟩

theorem Keeper.Alike.refl (x : Keeper) : x.Alike x := by
  cases x with
  | step s => exact ⟨rfl, rfl⟩
  | bracket br => exact Bracket.Alike.refl br
  | fork f => exact ⟨rfl, rfl, rfl, rfl⟩
  | _ => trivial

theorem Keeper.Alike.trans {x y z : Keeper} (h : x.Alike y) (h' : y.Alike z) : x.Alike z := by
  cases x <;> cases y <;> cases z <;> try trivial
  · exact ⟨h'.1.trans h.1, h'.2.trans h.2⟩
  · exact ⟨h'.owner.trans h.owner, h'.link.trans h.link, h'.release.trans h.release,
      h'.resource.trans h.resource, h'.gate.trans h.gate⟩
  · exact ⟨h'.1.trans h.1, h'.2.1.trans h.2.1, h'.2.2.1.trans h.2.2.1, h'.2.2.2.trans h.2.2.2⟩

/-- A keeper like that of a bracket is that of a bracket. -/
theorem Keeper.Alike.bracket_iff {x y : Keeper} (h : x.Alike y) :
    (∃ br, y = .bracket br) ↔ ∃ br, x = .bracket br := by
  cases x <;> cases y <;> simp_all [Keeper.Alike]

namespace Store

variable {σ σ' σ'' : Store}

theorem bracket?_eq_some {g : BracketId} {br : Bracket} :
    σ.bracket? g = some br ↔ σ.keeper? g = some (.bracket br) := by
  unfold bracket?
  split <;> simp_all

theorem bracket?_eq_none {g : BracketId} :
    σ.bracket? g = none ↔ ∀ br, σ.keeper? g ≠ some (.bracket br) := by
  unfold bracket?
  split <;> simp_all

theorem KeepsFibers.of_eq (h : σ'.fibers = σ.fibers) : σ.KeepsFibers σ' :=
  fun _ x hx => ⟨x, h ▸ hx, rfl, fun _ => id⟩

theorem KeepsFibers.trans (h : σ.KeepsFibers σ') (h' : σ'.KeepsFibers σ'') : σ.KeepsFibers σ'' := by
  intro f x hx
  obtain ⟨x', hx', hlink, hkept⟩ := h f x hx
  obtain ⟨x'', hx'', hlink', hkept'⟩ := h' f x' hx'
  exact ⟨x'', hx'', hlink'.trans hlink, fun o ho => hkept' o (hkept o ho)⟩

theorem KeepsFibers.modifyPromise (f : FiberId)
    {change : Promise Listener (Outcome Value) → Promise Listener (Outcome Value)}
    (h : ∀ p o, p.get = some o → (change p).get = some o) :
    σ.KeepsFibers (σ.modifyPromise f change) := by
  intro f' x hx
  simp only [Store.modifyPromise, Array.getElem?_modify, hx]
  split
  · exact ⟨_, rfl, rfl, fun o => h x.promise o⟩
  · exact ⟨x, rfl, rfl, fun _ => id⟩

theorem Alike.refl (σ : Store) : σ.Alike σ :=
  ⟨fun _ x h => ⟨x, h, .refl x⟩, fun _ h => by simp [bracket?, h], fun _ => rfl, fun _ => rfl,
    .of_eq rfl⟩

theorem Alike.trans (h : σ.Alike σ') (h' : σ'.Alike σ'') : σ.Alike σ'' := by
  refine ⟨fun b x hx => ?_, fun b hb => ?_, fun c => (h'.armed c).trans (h.armed c),
    fun link => (h'.cancelled link).trans (h.cancelled link), h.fibers.trans h'.fibers⟩
  · obtain ⟨x', hx', hlike⟩ := h.old b x hx
    obtain ⟨x'', hx'', hlike'⟩ := h'.old b x' hx'
    exact ⟨x'', hx'', hlike.trans hlike'⟩
  · cases hx : σ'.keeper? b with
    | none => exact h'.new b hx
    | some x =>
      obtain ⟨x', hx', hlike⟩ := h'.old b x hx
      rw [bracket?_eq_none]
      rintro br hbr
      obtain ⟨br', hbr'⟩ := hlike.bracket_iff.1 ⟨br, Option.some.inj (hx'.symm.trans hbr)⟩
      exact bracket?_eq_none.1 (h.new b hb) br' (hx.trans (congrArg some hbr'))

/-- Nothing changes if boundaries and connections stay as they are, and so do the fibers. -/
theorem Alike.of_kept (hb : σ'.boundaries = σ.boundaries) (hc : σ'.connections = σ.connections)
    (hf : σ.KeepsFibers σ') : σ.Alike σ' := by
  refine ⟨fun b x h => ⟨x, ?_, .refl x⟩, fun b h => ?_, fun c => ?_, fun link => ?_, hf⟩
  · rw [keeper?, hb]
    exact h
  · rw [bracket?, keeper?, hb]
    rw [keeper?] at h
    simp [h]
  · rw [Store.armed, hc, Store.armed]
  · cases link with
    | none => rfl
    | some c => rw [isCancelled, isCancelled, hc]

theorem Alike.of_eq (hb : σ'.boundaries = σ.boundaries) (hc : σ'.connections = σ.connections)
    (hf : σ'.fibers = σ.fibers) : σ.Alike σ' := .of_kept hb hc (.of_eq hf)

/-- A bracket stays. -/
theorem Alike.bracket? (h : σ.Alike σ') {g : BracketId} {br : Bracket}
    (hg : σ.bracket? g = some br) : ∃ br', σ'.bracket? g = some br' ∧ br.Alike br' := by
  obtain ⟨x, hx, hlike⟩ := h.old g _ (bracket?_eq_some.1 hg)
  obtain ⟨br', rfl⟩ := hlike.bracket_iff.2 ⟨br, rfl⟩
  exact ⟨br', bracket?_eq_some.2 hx, hlike⟩

/-- No bracket appears. -/
theorem Alike.bracket?_of_some (h : σ.Alike σ') {g : BracketId} {br' : Bracket}
    (hg : σ'.bracket? g = some br') : ∃ br, σ.bracket? g = some br ∧ br.Alike br' := by
  cases hb : σ.bracket? g with
  | some br =>
    obtain ⟨br'', hbr'', hlike⟩ := h.bracket? hb
    cases hbr''.symm.trans hg
    exact ⟨br, rfl, hlike⟩
  | none =>
    cases hx : σ.keeper? g with
    | none => cases (h.new g hx).symm.trans hg
    | some x =>
      obtain ⟨x', hx', hlike⟩ := h.old g x hx
      cases hx'.symm.trans (bracket?_eq_some.1 hg)
      obtain ⟨br, rfl⟩ := hlike.bracket_iff.1 ⟨br', rfl⟩
      exact absurd hx (bracket?_eq_none.1 hb br)

/-! ## Changes that brackets do not notice -/

theorem keeper?_modifyKeeper (b b' : BoundaryId) (f : Keeper → Keeper) :
    (σ.modifyKeeper b f).keeper? b' =
      if b = b' then (σ.keeper? b').map f else σ.keeper? b' := by
  simp only [keeper?, modifyKeeper, Boundaries.modify, Array.getElem?_modify]

theorem keeper?_newBoundary (x : Keeper) (b : BoundaryId) :
    (σ.newBoundary x).1.keeper? b = if b = σ.boundaries.size then some x else σ.keeper? b := by
  simp only [keeper?, newBoundary, Boundaries.push, Array.getElem?_push, Boundaries.size,
    σ.boundaries.aligned]
  rfl

theorem keeper?_size : σ.keeper? σ.boundaries.size = none :=
  Array.getElem?_eq_none (Nat.le_of_eq σ.boundaries.aligned)

theorem Alike.modifyKeeper (b : BoundaryId) {f : Keeper → Keeper} (hf : ∀ x : Keeper, x.Alike (f x)) :
    σ.Alike (σ.modifyKeeper b f) := by
  refine ⟨fun b' x hx => ?_, fun b' hb => ?_, fun _ => rfl, fun _ => rfl, .of_eq rfl⟩
  · rw [keeper?_modifyKeeper, hx]
    split
    · exact ⟨f x, rfl, hf x⟩
    · exact ⟨x, rfl, .refl x⟩
  · rw [bracket?_eq_none, keeper?_modifyKeeper, hb]
    simp

theorem Alike.modifyStep (s : StepId) {f : Step → Step}
    (hf : ∀ st, (f st).source = st.source ∧ (f st).link = st.link) :
    σ.Alike (σ.modifyStep s f) := by
  refine Alike.modifyKeeper s fun x => ?_
  cases x with
  | step st => exact hf st
  | _ => exact .refl _

theorem Alike.modifyFork (k : ForkId) {f : Fork → Fork}
    (hf : ∀ x, (f x).kind = x.kind ∧ (f x).parent = x.parent ∧ (f x).left = x.left ∧
      (f x).right = x.right) : σ.Alike (σ.modifyFork k f) := by
  refine Alike.modifyKeeper k fun x => ?_
  cases x with
  | fork x => exact hf x
  | _ => exact .refl _

theorem Alike.modifyDuel (k : DuelId) (f : Option Duel → Option Duel) :
    σ.Alike (σ.modifyDuel k f) := by
  refine Alike.modifyKeeper k fun x => ?_
  cases x with
  | duel d => trivial
  | _ => exact .refl _

theorem Alike.await (g : BracketId) (s : StepId) :
    σ.Alike (σ.modifyBracket g (Bracket.await s)) := by
  refine Alike.modifyKeeper g fun x => ?_
  cases x with
  | bracket br =>
    change br.Alike (br.await s)
    unfold Bracket.await
    split
    · rename_i waiters h
      exact ⟨rfl, rfl, rfl, rfl, by simp [h]⟩
    · exact .refl br
  | _ => exact .refl _

theorem Alike.newBoundary {x : Keeper} (hx : ∀ br, x ≠ .bracket br) :
    σ.Alike (σ.newBoundary x).1 := by
  refine ⟨fun b y hy => ⟨y, ?_, .refl y⟩, fun b hb => ?_, fun _ => rfl, fun _ => rfl, .of_eq rfl⟩
  · rw [keeper?_newBoundary, if_neg, hy]
    rintro rfl
    cases keeper?_size.symm.trans hy
  · rw [bracket?_eq_none, keeper?_newBoundary]
    intro br
    split
    · simpa using hx br
    · simp [hb]

theorem Alike.newConnection : σ.Alike σ.newConnection.1 := by
  refine ⟨fun b x h => ⟨x, h, .refl x⟩, fun b h => ?_, fun c => ?_, fun link => ?_, .of_eq rfl⟩
  · rw [bracket?_eq_none]
    intro br
    change σ.keeper? b ≠ _
    simp [h]
  · simp only [Store.armed, Store.newConnection, Array.getElem?_push]
    split
    · rename_i h
      subst h
      simp [Connection.fresh, Connection.tokens]
    · rfl
  · cases link with
    | none => rfl
    | some c =>
      simp only [isCancelled, Store.newConnection, Array.getElem?_push]
      split
      · rename_i h
        subst h
        simp [Connection.fresh, Connection.isCancelled]
      · rfl

theorem Alike.push (link : Link) {t : Token} (ht : t.bracket? = none) :
    σ.Alike (σ.push link t).1 := by
  refine ⟨fun b x h => ⟨x, h, .refl x⟩, fun b h => ?_, fun c => ?_, fun link' => ?_, .of_eq rfl⟩
  · rw [bracket?_eq_none]
    intro br
    change σ.keeper? b ≠ _
    simp [h]
  · cases link with
    | none => rfl
    | some c' =>
      simp only [Store.armed, Store.push, modifyConnection, Array.getElem?_modify]
      split
      · cases hc : σ.connections[c]? with
        | none => rfl
        | some conn =>
          cases conn with
          | active ts => simp [Connection.push, Connection.tokens, ht]
          | cancelled => rfl
      · rfl
  · cases link' with
    | none => rfl
    | some c =>
      cases link with
      | none => rfl
      | some c' =>
        simp only [isCancelled, Store.push, modifyConnection, Array.getElem?_modify]
        split
        · cases hc : σ.connections[c]? with
          | none => rfl
          | some conn => cases conn <;> rfl
        · rfl

/-- The promise of a fiber changes, but not an outcome that is there. -/
theorem Alike.modifyPromise (f : FiberId)
    {change : Promise Listener (Outcome Value) → Promise Listener (Outcome Value)}
    (h : ∀ p o, p.get = some o → (change p).get = some o) : σ.Alike (σ.modifyPromise f change) :=
  .of_kept rfl rfl (.modifyPromise f h)

theorem Alike.publish (f : FiberId) (o : Outcome Value) : σ.Alike (σ.publish f o).1 :=
  .modifyPromise f fun _ _ h => (Promise.get_fulfil_of_some h).1

theorem Alike.listen (f : FiberId) (l : Listener) : σ.Alike (σ.listen f l).1 := by
  have h : σ.Alike (σ.modifyPromise f fun p => (p.listen l).1) := by
    refine .modifyPromise f fun p o h => ?_
    cases p with
    | pending ls n => cases h
    | complete o' => exact h
  exact h

theorem Alike.unlisten (f : FiberId) (n : Nat) : σ.Alike (σ.unlisten f n) :=
  .modifyPromise f fun p _ h => (p.get_remove n).trans h

theorem Alike.newFiber : σ.Alike σ.newFiber.1 := by
  refine Alike.newConnection.trans (.of_kept rfl rfl fun f x hx => ⟨x, ?_, rfl, fun _ => id⟩)
  have hlt : f < σ.fibers.size := (Array.getElem?_eq_some_iff.1 hx).1
  exact (Array.getElem?_push_lt hlt).trans ((Array.getElem?_eq_getElem hlt).symm.trans hx)

end Store

end CancelableEffects
