import CancelableEffects.Proofs.Brackets
import CancelableEffects.Proofs.Plain

/-!
# Growth — what stays once it is there

* `Store.Grows`: brackets stay open under the same connection for the same execution, open gates stay
  open, steps keep their source and connection, boundaries keep the kind of their keeper, cancelled
  connections stay cancelled, and fibers keep their connections and outcomes.
* **`Activity.step_grows`**, **`Input.step_grows`**: every step makes the store grow.
* `Session.step_grows`, `Session.after_grows`: so does every choice, and so do later ones.
-/

namespace CancelableEffects

/-- What stays of a bracket. -/
structure Bracket.Grows (br br' : Bracket) : Prop where
  owner : br'.owner = br.owner
  link : br'.link = br.link
  gate : br.gate = .opened → br'.gate = .opened

/-- What stays of a keeper: its kind, and the source and the connection of a step. -/
def Keeper.Grows : Keeper → Keeper → Prop
  | .callback, .callback => True
  | .step s, .step s' => s'.source = s.source ∧ s'.link = s.link
  | .bracket br, .bracket br' => br.Grows br'
  | .fork _, .fork _ => True
  | .duel _, .duel _ => True
  | _, _ => False

/-- What stays of a store. -/
structure Store.Grows (σ σ' : Store) : Prop where
  keeper : ∀ b x, σ.keeper? b = some x → ∃ x', σ'.keeper? b = some x' ∧ x.Grows x'
  cancelled : ∀ link, σ.isCancelled link = true → σ'.isCancelled link = true
  fibers : σ.KeepsFibers σ'

theorem Keeper.Grows.refl (x : Keeper) : x.Grows x := by
  cases x with
  | step s => exact ⟨rfl, rfl⟩
  | bracket br => exact ⟨rfl, rfl, id⟩
  | _ => trivial

theorem Keeper.Grows.trans {x y z : Keeper} (h : x.Grows y) (h' : y.Grows z) : x.Grows z := by
  cases x <;> cases y <;> cases z <;> try trivial
  · exact ⟨h'.1.trans h.1, h'.2.trans h.2⟩
  · exact ⟨h'.owner.trans h.owner, h'.link.trans h.link, fun hgate => h'.gate (h.gate hgate)⟩

theorem Keeper.Alike.grows {x y : Keeper} (h : x.Alike y) : x.Grows y := by
  cases x <;> cases y <;> try trivial
  exact ⟨Bracket.Alike.owner h, Bracket.Alike.link h, (Bracket.Alike.gate h).2⟩

namespace Store

variable {σ σ' σ'' : Store}

theorem Grows.refl (σ : Store) : σ.Grows σ :=
  ⟨fun _ x h => ⟨x, h, .refl x⟩, fun _ h => h, .of_eq rfl⟩

theorem Grows.trans (h : σ.Grows σ') (h' : σ'.Grows σ'') : σ.Grows σ'' := by
  refine ⟨fun b x hx => ?_, fun link hl => h'.cancelled link (h.cancelled link hl),
    h.fibers.trans h'.fibers⟩
  obtain ⟨x', hx', hgrows⟩ := h.keeper b x hx
  obtain ⟨x'', hx'', hgrows'⟩ := h'.keeper b x' hx'
  exact ⟨x'', hx'', hgrows.trans hgrows'⟩

/-- A bracket stays. -/
theorem Grows.bracket (h : σ.Grows σ') (g : BracketId) (br : Bracket) (hg : σ.bracket? g = some br) :
    ∃ br', σ'.bracket? g = some br' ∧ br.Grows br' := by
  obtain ⟨x, hx, hgrows⟩ := h.keeper g _ (bracket?_eq_some.1 hg)
  cases x with
  | bracket br' => exact ⟨br', bracket?_eq_some.2 hx, hgrows⟩
  | _ => exact hgrows.elim

theorem step?_eq_some {s : StepId} {st : Step} :
    σ.step? s = some st ↔ σ.keeper? s = some (.step st) := by
  unfold step?
  split <;> simp_all

/-- A step stays. -/
theorem Grows.step (h : σ.Grows σ') {s : StepId} {st : Step} (hs : σ.step? s = some st) :
    ∃ st', σ'.step? s = some st' ∧ st'.source = st.source ∧ st'.link = st.link := by
  obtain ⟨x, hx, hgrows⟩ := h.keeper s _ (step?_eq_some.1 hs)
  cases x with
  | step st' => exact ⟨st', step?_eq_some.2 hx, hgrows⟩
  | _ => exact hgrows.elim

/-- An outcome stays. -/
theorem Grows.outcome? (h : σ.Grows σ') {f : FiberId} {o : Outcome Value}
    (hf : σ.outcome? f = some o) : σ'.outcome? f = some o := by
  obtain ⟨x, hx, ho⟩ := Option.bind_eq_some_iff.1 hf
  obtain ⟨x', hx', -, hkept⟩ := h.fibers f x hx
  exact Option.bind_eq_some_iff.2 ⟨x', hx', hkept o ho⟩

/-- A fiber keeps its connection. -/
theorem Grows.fiberLink (h : σ.Grows σ') {f : FiberId} {c : ConnectionId}
    (hf : σ.fiberLink f = some c) : σ'.fiberLink f = some c := by
  obtain ⟨x, hx, hc⟩ := Option.map_eq_some_iff.1 hf
  obtain ⟨x', hx', hlink, -⟩ := h.fibers f x hx
  exact Option.map_eq_some_iff.2 ⟨x', hx', hlink.trans hc⟩

theorem Grows.kept (h : σ.Grows σ') (b : BoundaryId) (hb : σ.KeptOtherwise b) :
    σ'.KeptOtherwise b := by
  obtain ⟨x, hx, hne⟩ := hb
  obtain ⟨x', hx', hgrows⟩ := h.keeper b x hx
  refine ⟨x', hx', ?_⟩
  rintro br rfl
  cases x with
  | bracket br' => exact hne br' rfl
  | _ => exact hgrows.elim

/-- Boundaries are never removed. -/
theorem Grows.boundaries_le (h : σ.Grows σ') : σ.boundaries.size ≤ σ'.boundaries.size := by
  refine Nat.le_of_not_lt fun hlt => ?_
  have hkeeper : σ'.boundaries.size < σ.boundaries.keepers.size := σ.boundaries.aligned ▸ hlt
  obtain ⟨x, hx, -⟩ := h.keeper _ _ (Array.getElem?_eq_getElem hkeeper)
  rw [keeper?_size] at hx
  cases hx

theorem Alike.grows (h : σ.Alike σ') : σ.Grows σ' := by
  refine ⟨fun b x hx => ?_, fun link hl => (h.cancelled link).trans hl, h.fibers⟩
  obtain ⟨x', hx', hlike⟩ := h.old b x hx
  exact ⟨x', hx', hlike.grows⟩

theorem Grows.of_eq (hb : σ'.boundaries = σ.boundaries) (hc : σ'.connections = σ.connections)
    (hf : σ'.fibers = σ.fibers) : σ.Grows σ' := (Alike.of_eq hb hc hf).grows

theorem Grows.modifyBracket (g : BracketId) {f : Bracket → Bracket}
    (hf : ∀ br : Bracket, br.Grows (f br)) : σ.Grows (σ.modifyBracket g f) := by
  refine ⟨fun b x hx => ?_, fun _ h => h, .of_eq rfl⟩
  have hkeeper : (σ.modifyBracket g f).keeper? b =
      if g = b then (σ.keeper? b).map (Keeper.mapBracket f) else σ.keeper? b :=
    keeper?_modifyKeeper g b _
  rw [hkeeper, hx]
  split
  · refine ⟨_, rfl, ?_⟩
    cases x with
    | bracket br => exact hf br
    | _ => exact .refl _
  · exact ⟨x, rfl, .refl x⟩

theorem Grows.newBoundary (x : Keeper) : σ.Grows (σ.newBoundary x).1 := by
  refine ⟨fun b y hy => ⟨y, ?_, .refl y⟩, fun _ h => h, .of_eq rfl⟩
  rw [keeper?_newBoundary, if_neg, hy]
  rintro rfl
  cases keeper?_size.symm.trans hy

/-- A change of a connection that leaves it cancelled if it was. -/
theorem Grows.modifyConnection (link : Link) {f : Connection → Connection}
    (hf : ∀ conn : Connection, conn.isCancelled = true → (f conn).isCancelled = true) :
    σ.Grows (σ.modifyConnection link f) := by
  refine ⟨fun b x hx => ⟨x, hx, .refl x⟩, fun link' h => ?_, .of_eq rfl⟩
  cases link' with
  | none => exact h
  | some c =>
    cases link with
    | none => exact h
    | some c' =>
      simp only [isCancelled, Store.modifyConnection, Array.getElem?_modify] at h ⊢
      split
      · cases hc : σ.connections[c]? with
        | none => simp [hc] at h
        | some conn =>
          simp only [hc, Option.map_some, Option.getD_some] at h ⊢
          exact hf conn h
      · exact h

theorem Grows.push (link : Link) (t : Token) : σ.Grows (σ.push link t).1 := by
  refine Grows.modifyConnection link fun conn h => ?_
  cases conn with
  | active ts => cases h
  | cancelled => rfl

theorem Grows.popToken (link : Link) : σ.Grows (σ.popToken link).1 := by
  refine Grows.modifyConnection link fun conn h => ?_
  cases conn with
  | active ts => cases h
  | cancelled => rfl

theorem Grows.dropToken (link : Link) : σ.Grows (σ.dropToken link) := Grows.popToken link

theorem Grows.cancel (link : Link) : σ.Grows (σ.cancel link).1 := by
  have h : σ.Grows (σ.modifyConnection link fun conn => conn.cancel.1) :=
    Grows.modifyConnection link fun conn _ => conn.isCancelled_cancel
  exact h.trans (.of_eq rfl rfl rfl)

/-- After its cancellation a connection that is there is cancelled, whether it was active or not. -/
theorem isCancelled_cancel {c : ConnectionId} (hc : c < σ.connections.size) :
    (σ.cancel (some c)).1.isCancelled (some c) = true := by
  simp [cancel, emit?, modifyConnection, isCancelled, Array.getElem_modify, hc]

/-- Tokens are taken only from a connection that is there. -/
theorem lt_of_cancel {c : ConnectionId} {ts : List Token} (h : (σ.cancel (some c)).2 = some ts) :
    c < σ.connections.size := by
  refine Nat.lt_of_not_le fun hc => ?_
  simp [cancel, connection?, Array.getElem?_eq_none hc] at h

theorem Grows.takeRelease (g : BracketId) (x : ExitCase) : σ.Grows (σ.takeRelease g x).1 := by
  have h : σ.Grows (σ.modifyBracket g Bracket.take) := by
    refine Grows.modifyBracket g fun br => ?_
    unfold Bracket.take
    split <;> exact ⟨rfl, rfl, id⟩
  exact h.trans (.of_eq rfl rfl rfl)

theorem Grows.openGate (g : BracketId) : σ.Grows (σ.openGate g).1 :=
  Grows.modifyBracket g fun _ => ⟨rfl, rfl, fun _ => rfl⟩

theorem Drops.grows (h : σ.Drops σ') : σ.Grows σ' := by
  obtain rfl | ⟨link, rfl⟩ := h
  · exact .refl _
  · exact .dropToken link

end Store

theorem Next.PlainOnceDropped.grows {σ : Store} {next : Next} (h : next.PlainOnceDropped σ) :
    σ.Grows next.1 := by
  obtain ⟨σ', hdrops, hplain⟩ := h
  exact hdrops.grows.trans hplain.alike.grows

/-! ## Steps -/

section Steps

variable {σ : Store}

theorem Store.sweep_store (of : Link) (first : Option Error) (link : Link) (below : List Frame)
    (σ : Store) (ts : List Token) : (σ.sweep of first link below ts).store = σ := by
  cases ts <;> rfl

theorem Node.step_cancel_store (link link' : Link) (e : ExecutionId) (σ : Store) :
    ((Node.token (.connection link)).step e link' σ).store = (σ.cancel link).1 := by
  simp only [Node.step, Token.begin]
  split <;> simp_all

theorem Node.step_grows (n : Node) (e : ExecutionId) (link : Link) (σ : Store) :
    σ.Grows (n.step e link σ).store := by
  by_cases hn : n.Ordinary
  · exact (Node.step_plain hn e σ).alike.grows
  cases n with
  | program p =>
    cases p with
    | bracket a u release =>
      have h : σ.Grows (σ.newBoundary (.bracket { owner := e, link, release })).1 := .newBoundary _
      exact h.trans (.push link _)
    | pop c =>
      have h := Store.Grows.popToken (σ := σ) c
      simp only [Node.step, Prog.step]
      split <;> simp_all
    | _ => exact absurd trivial hn
  | token t =>
    cases t with
    | bracket g => exact .takeRelease g .cancelled
    | connection c =>
      have h := Store.Grows.cancel (σ := σ) c
      simp only [Node.step, Token.begin]
      split <;> simp_all
    | _ => exact absurd ⟨rfl, by simp⟩ hn
  | sweep of ts =>
    simp only [Node.step, Store.sweep_store]
    exact .refl σ
  | release g v x =>
    simp only [Node.step]
    split <;> exact .refl σ
  | _ => exact absurd trivial hn

theorem Frame.resume_grows (f : Frame) (r : Result) (link : Link) (σ : Store) :
    σ.Grows (f.resume r link σ).store := by
  by_cases hf : f.Ordinary
  · exact (Frame.resume_plain hf r σ).alike.grows
  cases f with
  | sweep of t ts first =>
    simp only [Frame.resume, Store.sweep_store]
    exact .of_eq rfl rfl rfl
  | use g f => cases r <;> exact .refl σ
  | release g => exact .takeRelease g _
  | openGate g =>
    cases r with
    | ok v => exact .openGate g
    | error e => exact .refl σ
  | endBracket g used =>
    cases r with
    | ok v => exact .dropToken _
    | error e => exact .refl σ
  | _ => exact absurd trivial hf

theorem Store.Grows.setBoundary (b : BoundaryId) (x : Boundary) : σ.Grows (σ.setBoundary b x) :=
  ⟨fun _ x h => ⟨x, h, .refl x⟩, fun _ h => h, .of_eq rfl⟩

theorem Loop.step_grows (s : Stage) (l : Loop) (σ : Store) : σ.Grows (l.step s σ).1 := by
  by_cases hs : s.Ordinary l.stack
  · obtain ⟨r, h, -⟩ | ⟨t, fs, gs, -, -, h, ht⟩ := Loop.step_plain hs σ <;> rw [h]
    · exact .refl σ
    · exact ht.alike.grows
  cases s with
  | looking n =>
    cases hc : σ.isCancelled l.link with
    | true =>
      rw [Loop.step_of_cancelled hc]
      exact .refl σ
    | false =>
      rw [Loop.step_of_not_cancelled hc]
      exact n.step_grows _ _ σ
  | handing r =>
    obtain ⟨e, link, _ | ⟨f, fs⟩, k⟩ := l
    · exact .refl σ
    · exact f.resume_grows r link σ
  | leaving b =>
    simp only [Loop.step, Store.leave]
    split
    · exact .setBoundary b _
    · exact (Store.Grows.setBoundary b _).trans (.of_eq rfl rfl rfl)
    · exact .refl σ
  | _ => exact absurd trivial hs

theorem Store.endAcquire_grows (g : BracketId) (r : Result) (σ : Store) :
    σ.Grows (σ.endAcquire g r).1 := by
  unfold Store.endAcquire
  split
  · exact .refl σ
  · rename_i br h
    cases r with
    | error e => exact (Store.Grows.dropToken br.link).trans (.openGate g)
    | ok v =>
      have hheld : σ.Grows (σ.modifyBracket g fun br => { br with resource := .held v }) :=
        .modifyBracket g fun _ => ⟨rfl, rfl, id⟩
      dsimp only
      split
      · exact hheld.trans (.takeRelease g _)
      · exact hheld

/-- Every call makes the store grow. -/
theorem Activity.step_grows (a : Activity) (σ : Store) : σ.Grows (a.step σ).1 := by
  by_cases ha : a.Ordinary
  · exact (Activity.step_plain ha σ).grows
  cases a with
  | start n link k => exact .of_eq rfl rfl rfl
  | work s l => exact l.step_grows s σ
  | deliver e k r =>
    cases k with
    | acquired g => exact σ.endAcquire_grows g r
    | lateRelease g =>
      simp only [Activity.step, Sink.receive]
      split <;> exact .of_eq rfl rfl rfl
    | _ => exact absurd trivial ha
  | complete c r =>
    cases c with
    | boundary b =>
      simp only [Activity.step, Completer.complete, Store.completeBoundary]
      split
      · exact .setBoundary b _
      · exact (Store.Grows.setBoundary b _).trans (.of_eq rfl rfl rfl)
      · exact .of_eq rfl rfl rfl
    | _ => exact absurd trivial ha
  | _ => exact absurd trivial ha

theorem Input.step_grows (i : Input) (σ : Store) : σ.Grows (i.step σ).1 := (i.step_plain σ).grows

end Steps

/-- Every choice makes the store grow. -/
theorem Session.step_grows (S : Session) (c : Choice) : S.store.Grows (S.step c).store := by
  cases c with
  | input i => exact i.step_grows S.store
  | call place =>
    simp only [Session.step]
    split
    · exact Activity.step_grows _ S.store
    · exact .refl _

/-- A choice changes nothing, or is one more moment in which the store grows. -/
theorem Session.step_eq (S : Session) (c : Choice) :
    S.step c = S ∨ ∃ call next others, S.step c = S.record call next others ∧
      S.store.Grows next.1 := by
  have hgrows := S.step_grows c
  revert hgrows
  unfold Session.step
  split
  · split
    · exact fun hgrows => .inr ⟨_, _, _, rfl, hgrows⟩
    · exact fun _ => .inl rfl
  · exact fun hgrows => .inr ⟨_, _, _, rfl, hgrows⟩

/-- What is there stays there. -/
theorem Session.after_grows (cs₀ cs : List Choice) :
    (Session.after cs₀).store.Grows (Session.after (cs ++ cs₀)).store := by
  induction cs with
  | nil => exact .refl _
  | cons c cs ih => exact ih.trans (Session.step_grows _ c)

/-- What is not cancelled was not cancelled before. -/
theorem Session.not_cancelled_of_later {cs₀ : List Choice} {link : Link} (cs : List Choice)
    (h : (Session.after (cs ++ cs₀)).store.isCancelled link = false) :
    (Session.after cs₀).store.isCancelled link = false :=
  Bool.eq_false_iff.2 fun hc => by cases h.symm.trans ((Session.after_grows cs₀ cs).cancelled link hc)

end CancelableEffects
