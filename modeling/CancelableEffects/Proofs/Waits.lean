import CancelableEffects.Proofs.Boundaries
import CancelableEffects.Proofs.Gates

/-!
# Waits — who waits at a gate or for an outcome goes on once it is there

A wait that has a connection can be interrupted; one without lasts until the gate is open, or until the
fiber has an outcome, which is its result.

* `Source.Due`, `Store.Ripe`: a step, or any boundary, may be completed with a result, as far as such
  waits and those for permits are concerned.
* `Token.Apt`, `Frame.Apt`, `Activity.Apt`, `Store.Apt`: what completes boundaries, now or later,
  completes only those that are ripe then.
* `Next.Brings`, `Turn.Brings`: a step brings nothing that is not apt.
* **`Session.apt`**: everything is apt, in every reachable state.
-/

namespace CancelableEffects

/-! ## What may complete a boundary -/

/-- The source may complete its steps with the result: the gate is open, the fiber has that outcome, or
it is what those get who waited for permits. -/
def Source.Due (σ : Store) (r : Result) : Source → Prop
  | .gate g => σ.Over g
  | .outcome f => ∃ o, σ.outcome? f = some o ∧ r = .ok (.outcome o)
  | .permits _ => r = .ok .unit
  | _ => True

/-- The boundary may be completed with the result: a wait without a connection has to last until its
source completes it. -/
def Keeper.Ripe (σ : Store) (r : Result) : Keeper → Prop
  | .step st => st.link = none → st.source.Due σ r
  | _ => True

/-- The boundary is there and may be completed with the result. -/
def Store.Ripe (b : BoundaryId) (r : Result) (σ : Store) : Prop :=
  ∃ x, σ.keeper? b = some x ∧ x.Ripe σ r

/-- The tokens on the connection, newest first. -/
def Store.tokens (c : ConnectionId) (σ : Store) : List Token :=
  (σ.connections[c]?.map Connection.tokens).getD []

/-- The token is for a step with a connection, or for a bracket that is there. -/
def Token.Apt (σ : Store) : Token → Prop
  | .step s => ∃ st, σ.step? s = some st ∧ st.link ≠ none
  | .bracket g => ∃ br, σ.bracket? g = some br
  | _ => True

/-- The node is about such tokens and about brackets that are there. -/
def Node.Apt (σ : Store) : Node → Prop
  | .token t => t.Apt σ
  | .sweep _ ts => ∀ t ∈ ts, t.Apt σ
  | .gate g => ∃ br, σ.bracket? g = some br
  | _ => True

/-- The frame is about such tokens and about brackets that are there. -/
def Frame.Apt (σ : Store) : Frame → Prop
  | .use g _ | .release g => ∃ br, σ.bracket? g = some br
  | .sweep _ _ ts _ => ∀ t ∈ ts, t.Apt σ
  | .endStep s => (Token.step s).Apt σ
  | _ => True

/-- The loop looks at such a node. -/
def Stage.Apt (σ : Store) : Stage → Prop
  | .looking n => n.Apt σ
  | _ => True

/-- The call completes a boundary that is ripe, or a step whose source may do that, and carries what
does so later. -/
def Activity.Apt (σ : Store) : Activity → Prop
  | .start n _ _ => n.Apt σ
  | .work s l => s.Apt σ ∧ ∀ f ∈ l.stack, f.Apt σ
  | .complete (.boundary b) r => σ.Ripe b r
  | .complete (.step _ source) r => source.Due σ r
  | .notify f _ o => σ.outcome? f = some o
  | _ => True

/-- What the store holds completes only boundaries that are ripe then. -/
structure Store.Apt (σ : Store) : Prop where
  parked : ∀ (b : BoundaryId) (l : Loop), σ.boundary? b = some (.parked l) →
    ∀ f ∈ l.stack, f.Apt σ
  ready : ∀ (b : BoundaryId) (r : Result), σ.boundary? b = some (.ready r) → σ.Ripe b r
  tokens : ∀ c, ∀ t ∈ σ.tokens c, t.Apt σ

/-! ## Growing stores -/

section Grows

variable {σ σ' : Store} {r : Result}

theorem Source.Due.grows {source : Source} (h : source.Due σ r) (hσ : σ.Grows σ') :
    source.Due σ' r := by
  cases source with
  | gate g => exact Store.Over.grows h hσ
  | outcome f => exact h.imp fun o ho => ⟨hσ.outcome? ho.1, ho.2⟩
  | _ => trivial

theorem Keeper.Ripe.grows {x x' : Keeper} (h : x.Ripe σ r) (hx : x.Grows x') (hσ : σ.Grows σ') :
    x'.Ripe σ' r := by
  cases x' with
  | step st' =>
    cases x with
    | step st =>
      intro hlink
      exact hx.1 ▸ (h (hx.2.symm.trans hlink)).grows hσ
    | _ => exact hx.elim
  | _ => trivial

theorem Store.Ripe.grows {b : BoundaryId} (h : σ.Ripe b r) (hσ : σ.Grows σ') : σ'.Ripe b r := by
  obtain ⟨x, hx, hripe⟩ := h
  obtain ⟨x', hx', hgrows⟩ := hσ.keeper b x hx
  exact ⟨x', hx', hripe.grows hgrows hσ⟩

theorem Token.Apt.grows {t : Token} (h : t.Apt σ) (hσ : σ.Grows σ') : t.Apt σ' := by
  cases t with
  | step s =>
    obtain ⟨st, hs, hlink⟩ := h
    obtain ⟨st', hs', -, hlink'⟩ := hσ.step hs
    exact ⟨st', hs', hlink' ▸ hlink⟩
  | bracket g =>
    obtain ⟨br, hg⟩ := h
    obtain ⟨br', hg', -⟩ := hσ.bracket g br hg
    exact ⟨br', hg'⟩
  | _ => trivial

theorem Node.Apt.grows {n : Node} (h : n.Apt σ) (hσ : σ.Grows σ') : n.Apt σ' := by
  cases n with
  | token t => exact Token.Apt.grows h hσ
  | sweep of ts => exact fun t ht => (h t ht).grows hσ
  | gate g => exact Token.Apt.grows (t := .bracket g) h hσ
  | _ => trivial

theorem Frame.Apt.grows {f : Frame} (h : f.Apt σ) (hσ : σ.Grows σ') : f.Apt σ' := by
  cases f with
  | use g f => exact Token.Apt.grows (t := .bracket g) h hσ
  | release g => exact Token.Apt.grows (t := .bracket g) h hσ
  | sweep of t ts first => exact fun t ht => (h t ht).grows hσ
  | endStep s => exact Token.Apt.grows (t := .step s) h hσ
  | _ => trivial

theorem Stage.Apt.grows {s : Stage} (h : s.Apt σ) (hσ : σ.Grows σ') : s.Apt σ' := by
  cases s with
  | looking n => exact Node.Apt.grows h hσ
  | _ => trivial

theorem Activity.Apt.grows {a : Activity} (h : a.Apt σ) (hσ : σ.Grows σ') : a.Apt σ' := by
  cases a with
  | start n link k => exact Node.Apt.grows h hσ
  | work s l => exact ⟨h.1.grows hσ, fun f hf => (h.2 f hf).grows hσ⟩
  | complete c r =>
    cases c with
    | boundary b => exact Store.Ripe.grows h hσ
    | step s source => exact Source.Due.grows h hσ
    | callback b => trivial
  | notify f l o => exact hσ.outcome? h
  | _ => trivial

/-- A store that grows stays apt if it keeps its loops and gets no token that is not apt. -/
theorem Store.Apt.grows (h : σ.Apt) (hσ : σ.Grows σ')
    (hcells : ∀ b x, σ'.boundary? b = some x → σ.boundary? b = some x ∨ x = .registering)
    (htokens : ∀ c, ∀ t ∈ σ'.tokens c, t ∈ σ.tokens c ∨ t.Apt σ') : σ'.Apt where
  parked b l hl := by
    obtain hl | hl := hcells b _ hl
    · exact fun f hf => (h.parked b l hl f hf).grows hσ
    · cases hl
  ready b r hr := by
    obtain hr | hr := hcells b _ hr
    · exact (h.ready b r hr).grows hσ
    · cases hr
  tokens c t ht := (htokens c t ht).elim (fun hold => (h.tokens c t hold).grows hσ) id

end Grows

/-! ## Tokens -/

namespace Store

variable {σ σ' : Store} {link : Link} {c : ConnectionId}

theorem tokens_modifyConnection (f : Connection → Connection) :
    (σ.modifyConnection link f).tokens c =
      if link = some c then (σ.connections[c]?.map fun conn => (f conn).tokens).getD []
      else σ.tokens c := by
  cases link with
  | none => rfl
  | some c' =>
    simp only [tokens, modifyConnection, Array.getElem?_modify, Option.some.injEq]
    split
    · cases σ.connections[c]? <;> rfl
    · rfl

theorem tokens_push {t t' : Token} (h : t' ∈ (σ.push link t).1.tokens c) :
    t' ∈ σ.tokens c ∨ t' = t ∧ link = some c := by
  change t' ∈ (σ.modifyConnection link _).tokens c at h
  rw [tokens_modifyConnection] at h
  split at h
  · rename_i hlink
    rw [tokens]
    cases hc : σ.connections[c]? with
    | none => simp [hc] at h
    | some conn =>
      cases conn with
      | active ts =>
        simp only [hc, Option.map_some, Option.getD_some, Connection.push, Connection.tokens,
          List.mem_cons] at h ⊢
        exact h.symm.imp_right fun ht => ⟨ht, hlink⟩
      | cancelled => simp [hc, Connection.push, Connection.tokens] at h
  · exact .inl h

theorem tokens_popToken {t : Token} (h : t ∈ (σ.popToken link).1.tokens c) : t ∈ σ.tokens c := by
  change t ∈ (σ.modifyConnection link _).tokens c at h
  rw [tokens_modifyConnection] at h
  split at h
  · rw [tokens]
    cases hc : σ.connections[c]? with
    | none => simp [hc] at h
    | some conn =>
      simp only [hc, Option.map_some, Option.getD_some] at h ⊢
      cases conn with
      | active ts => cases ts <;> simp_all [Connection.pop, Connection.tokens]
      | cancelled => exact h
  · exact h

theorem mem_of_popToken {t : Token} (h : (σ.popToken link).2 = some t) :
    ∃ c, link = some c ∧ t ∈ σ.tokens c := by
  cases link with
  | none => cases h
  | some c =>
    refine ⟨c, rfl, ?_⟩
    simp only [popToken, connection?, Option.bind_some] at h
    rw [tokens]
    cases hc : σ.connections[c]? with
    | none => simp [hc] at h
    | some conn =>
      cases conn with
      | active ts => cases ts <;> simp_all [Connection.pop, Connection.tokens]
      | cancelled => simp [hc, Connection.pop] at h

theorem tokens_cancel {t : Token} (h : t ∈ (σ.cancel link).1.tokens c) : t ∈ σ.tokens c := by
  change t ∈ (σ.modifyConnection link _).tokens c at h
  rw [tokens_modifyConnection] at h
  split at h
  · cases hc : σ.connections[c]? with
    | none => simp [hc] at h
    | some conn => cases conn <;> simp [hc, Connection.cancel, Connection.tokens] at h
  · exact h

theorem mem_of_cancel {ts : List Token} (h : (σ.cancel link).2 = some ts) :
    ∃ c, link = some c ∧ ts = σ.tokens c := by
  cases link with
  | none => cases h
  | some c =>
    refine ⟨c, rfl, ?_⟩
    simp only [cancel, connection?, Option.bind_some] at h
    rw [tokens]
    cases hc : σ.connections[c]? with
    | none => simp [hc] at h
    | some conn =>
      cases conn with
      | active ts' => simpa [hc, Connection.cancel, Connection.tokens] using h.symm
      | cancelled => simp [hc, Connection.cancel] at h

theorem tokens_newConnection {t : Token} (h : t ∈ σ.newConnection.1.tokens c) : t ∈ σ.tokens c := by
  simp only [tokens, newConnection, Array.getElem?_push] at h
  split at h
  · simp [Connection.fresh, Connection.tokens] at h
  · exact h

end Store

/-! ## Steps that bring nothing unfit -/

/-- The step brings no token and no call that is not apt. -/
structure Next.Brings (σ : Store) (next : Next) : Prop where
  tokens : ∀ c, ∀ t ∈ next.1.tokens c, t ∈ σ.tokens c ∨ t.Apt next.1
  calls : ∀ a ∈ next.2, a.Apt next.1

section Calls

variable {σ σ' : Store} {next : Next}

theorem Next.Brings.of_eq (hc : next.1.connections = σ.connections)
    (ha : ∀ a ∈ next.2, a.Apt next.1) : next.Brings σ := by
  refine ⟨fun c t ht => .inl ?_, ha⟩
  rw [Store.tokens, hc] at ht
  exact ht

/-- A step after which the newest token of a connection is dropped. -/
theorem Next.Brings.of_drop {link : Link} {calls : List Activity}
    (hc : σ'.connections = σ.connections) (ha : ∀ a ∈ calls, a.Apt (σ'.dropToken link)) :
    Next.Brings σ (σ'.dropToken link, calls) := by
  refine ⟨fun c t ht => .inl ?_, ha⟩
  have h : t ∈ σ'.tokens c := Store.tokens_popToken ht
  rw [Store.tokens, hc] at h
  exact h

theorem Next.Brings.trans {calls : List Activity} (h : Next.Brings σ (σ', calls))
    (h' : next.Brings σ') (hσ : σ'.Grows next.1) :
    Next.Brings σ (next.1, calls ++ next.2) := by
  refine ⟨fun c t ht => ?_, fun a ha => ?_⟩
  · obtain ht | ht := h'.tokens c t ht
    · exact (h.tokens c t ht).imp_right fun hapt => hapt.grows hσ
    · exact .inr ht
  · obtain ha | ha := List.mem_append.1 ha
    · exact (h.calls a ha).grows hσ
    · exact h'.calls a ha

theorem Store.push_brings (link : Link) {t : Token} (ht : ∀ c, link = some c → t.Apt σ) :
    Next.Brings σ (σ.push link t) := by
  refine ⟨fun c t' ht' => (Store.tokens_push ht').imp_right ?_, fun a ha => ?_⟩
  · rintro ⟨rfl, hlink⟩
    exact (ht c hlink).grows (.push link t')
  · simp only [Store.push] at ha
    split at ha
    · cases link with
      | none => cases ‹σ.isCancelled none = true›
      | some c =>
        rw [List.mem_singleton.1 ha]
        exact (ht c rfl).grows (.push (some c) t)
    · cases ha

theorem Store.apt_completeSteps {source : Source} (h : source.Due σ (.ok .unit))
    (ss : List StepId) : ∀ a ∈ Store.completeSteps source ss, a.Apt σ := by
  intro a ha
  obtain ⟨s, -, rfl⟩ := List.mem_map.1 ha
  exact h

/-- Only who publishes the outcome tells the listeners. -/
theorem Store.apt_publish (f : FiberId) (o : Outcome Value) (σ : Store) :
    ∀ a ∈ (σ.publish f o).2, a.Apt (σ.publish f o).1 := by
  intro a ha
  obtain ⟨l, hl, rfl⟩ := List.mem_map.1 ha
  cases hf : σ.fibers[f]? with
  | none => simp [hf] at hl
  | some x =>
    refine Option.bind_eq_some_iff.2
      ⟨{ x with promise := (x.promise.fulfil o).1 }, ?_, ?_⟩
    · simp only [publish, modifyPromise, Array.getElem?_modify, if_pos, hf, Option.map_some]
    simp only [hf, Option.map_some, Option.getD_some] at hl
    cases hp : x.promise with
    | pending ls n => rfl
    | complete o' => simp [hp, Promise.fulfil] at hl

theorem Store.publish_brings (f : FiberId) (o : Outcome Value) (σ : Store) :
    Next.Brings σ (σ.publish f o) := .of_eq rfl (Store.apt_publish f o σ)

/-- The outcome that a listener is told at once is the one that is there. -/
theorem Store.outcome?_listen {f : FiberId} {l : Listener} {o : Outcome Value}
    (h : (σ.listen f l).2 = some (.inr o)) : (σ.listen f l).1.outcome? f = some o := by
  cases hf : σ.fibers[f]? with
  | none => simp [Store.listen, hf] at h
  | some x =>
    refine (Store.Alike.listen f l).grows.outcome? (Option.bind_eq_some_iff.2 ⟨x, hf, ?_⟩)
    simp only [Store.listen, hf, Option.map_some, Option.some.injEq] at h
    cases hp : x.promise with
    | pending ls n => simp [hp, Promise.listen] at h
    | complete o' =>
      simp only [hp, Promise.listen, Sum.inr.injEq] at h
      rw [h, Promise.get]

/-- A boundary with a keeper other than a step may be completed. -/
theorem Store.ripe_of_keeper {b : BoundaryId} {x : Keeper} (h : σ.keeper? b = some x)
    (hx : ∀ st, x ≠ .step st) (r : Result) : σ.Ripe b r := by
  refine ⟨x, h, ?_⟩
  cases x with
  | step st => exact absurd rfl (hx st)
  | _ => trivial

theorem Store.ripe_fork {k : ForkId} {f : Fork} (h : σ.fork? k = some f) (r : Result) :
    σ.Ripe k r := by
  unfold Store.fork? at h
  split at h
  · exact Store.ripe_of_keeper ‹_› (by simp) r
  · cases h

theorem Store.ripe_duel {k : DuelId} {d : Duel} (h : σ.duel? k = some d) (r : Result) :
    σ.Ripe k r := by
  unfold Store.duel? at h
  split at h
  · exact Store.ripe_of_keeper ‹_› (by simp) r
  · cases h

theorem Store.ripe_bracket {g : BracketId} {br : Bracket} (h : σ.bracket? g = some br)
    (r : Result) : σ.Ripe g r := Store.ripe_of_keeper (Store.bracket?_eq_some.1 h) (by simp) r

/-- Who waits at the gate that opens goes on. -/
theorem Store.openGate_brings (g : BracketId) (σ : Store) : Next.Brings σ (σ.openGate g) := by
  refine .of_eq rfl fun a ha => ?_
  cases hg : σ.bracket? g with
  | none => simp [Store.openGate, hg, Store.completeSteps] at ha
  | some br =>
    refine Store.apt_completeSteps ?_ _ a ha
    simp only [Source.Due, Store.Over, Store.openGate, Store.bracket?_modifyBracket, if_pos, hg, Option.map_some]

/-! ## Closures and completions -/

theorem Code.move_brings {α : Type} (c : Code Prog α) (σ : Store) :
    Next.Brings σ (c.move σ).1 := by
  cases c with
  | launch p next => exact .of_eq rfl (by simp [Code.move, Activity.Apt, Node.Apt])
  | answer k r next =>
    refine .of_eq rfl ?_
    simp only [Code.move, Store.answer]
    split <;> simp [Activity.Apt, Source.Due]
  | push link p next =>
    have hkeep : Next.Brings σ ((σ.keep p).1, []) := .of_eq rfl (by simp)
    exact hkeep.trans (Store.push_brings _ (t := .cleanup (.program σ.programs.size))
      fun _ _ => trivial) (.push link _)
  | _ => exact .of_eq rfl (by simp [Code.move])

theorem Code.advance_brings {α : Type} (again : Code Prog α → Activity)
    {done : Except String α → Store → Next} (ha : ∀ c σ, (again c).Apt σ)
    (hd : ∀ r σ, Next.Brings σ (done r σ)) (hgrows : ∀ r (σ : Store), σ.Grows (done r σ).1)
    (c : Code Prog α) (σ : Store) : Next.Brings σ (c.advance again done σ) := by
  have hm := c.move_brings σ
  have hnone : ∀ calls, (c.move σ).2 = .inl calls → (c.move σ).1.2 = [] := by
    cases c <;> simp [Code.move]
  unfold Code.advance
  generalize c.move σ = m at hm hnone
  obtain ⟨⟨σ', calls⟩, r | c'⟩ := m
  · obtain rfl : calls = [] := hnone r rfl
    exact hm.trans (hd r σ') (hgrows r σ')
  · refine ⟨hm.tokens, ?_⟩
    simp only [List.mem_append, List.mem_singleton]
    rintro a (h | rfl)
    · exact hm.calls a h
    · exact ha c' σ'

theorem Store.fillSlot_brings (s : StepId) (c : Cleanup) (σ : Store) :
    Next.Brings σ (σ.fillSlot s c) := by
  unfold Store.fillSlot
  split <;> exact .of_eq rfl (by simp [Activity.Apt, Node.Apt, Token.Apt])

theorem Store.completeCallback_brings (b : BoundaryId) (r : Result) (σ : Store) :
    Next.Brings σ (σ.completeCallback b r) := by
  unfold Store.completeCallback
  split
  · rename_i h
    refine .of_eq rfl fun a ha => ?_
    rw [List.mem_singleton.1 ha]
    exact Store.ripe_of_keeper h (by simp) r
  · exact .of_eq rfl (by simp)

/-- A step is completed only by its own source. -/
theorem Store.completeStep_brings {s : StepId} {source : Source} {r : Result} (h : source.Due σ r) :
    Next.Brings σ (σ.completeStep s source r) := by
  unfold Store.completeStep
  split
  · rename_i st hs
    split
    · rename_i hsource
      refine .of_drop rfl fun a ha => ?_
      rw [List.mem_singleton.1 ha]
      have hlike : σ.Alike (σ.modifyStep s fun st => { st with live := false }) :=
        .modifyStep s fun _ => ⟨rfl, rfl⟩
      have hripe : σ.Ripe s r := ⟨_, Store.step?_eq_some.1 hs, fun _ => hsource.2 ▸ h⟩
      exact hripe.grows (hlike.grows.trans (.dropToken st.link))
    · exact .of_eq rfl (by simp)
  · exact .of_eq rfl (by simp)

/-! ## Sinks -/

theorem Store.endSide_brings (k : ForkId) (side : Side) (r : Result) (σ : Store) :
    Next.Brings σ (σ.endSide k side r) := by
  have hsettle : ∀ f loser r, Next.Brings σ (σ.settle k f loser r) := fun f loser r =>
    .of_drop rfl (by simp [Activity.Apt, Node.Apt, Token.Apt])
  have hboth : ∀ f a b, σ.fork? k = some f → Next.Brings σ (σ.settleBoth k f a b) := by
    intro f a b h
    refine .of_drop rfl fun x hx => ?_
    rw [List.mem_singleton.1 hx]
    have hlike : σ.Alike (σ.modifyFork k fun f => { f with settled := true }) :=
      .modifyFork k fun _ => ⟨rfl, rfl, rfl, rfl⟩
    exact (Store.ripe_fork h _).grows (hlike.grows.trans (.dropToken f.parent))
  unfold Store.endSide
  split
  · exact .of_eq rfl (by simp)
  · rename_i f h
    split
    · exact .of_eq rfl (by simp)
    · dsimp only
      split
      · exact hsettle _ _ _
      · exact hsettle _ _ _
      · split
        · exact hboth _ _ _ h
        · exact hboth _ _ _ h
        · exact .of_eq rfl (by simp)
        · exact .of_eq rfl (by simp)

theorem Store.endDuel_brings (k : DuelId) (side : Side) (o : Outcome Value) (σ : Store) :
    Next.Brings σ (σ.endDuel k side o) := by
  unfold Store.endDuel
  split
  · exact .of_eq rfl (by simp)
  · rename_i d h
    split
    · exact .of_eq rfl (by simp)
    · dsimp only
      split
      · refine .of_drop rfl fun a ha => ?_
        rw [List.mem_singleton.1 ha]
        have hlike : σ.Alike (σ.modifyDuel k (Option.map fun d => { d with settled := true })) :=
          .modifyDuel k _
        exact (Store.ripe_duel h _).grows (hlike.grows.trans (.dropToken d.parent))
      · exact .of_drop rfl (by simp [Activity.Apt, Node.Apt, Token.Apt])
      · exact .of_drop rfl (by simp [Activity.Apt, Node.Apt, Token.Apt])

theorem Store.endFiber_brings (f : FiberId) (r : Result) (σ : Store) :
    Next.Brings σ (σ.endFiber f r) := by
  unfold Store.endFiber
  repeat' split
  · exact .of_eq rfl (Store.apt_publish _ _ _)
  · exact .of_eq rfl (by simp)
  · exact .of_eq rfl (Store.apt_publish _ _ _)

theorem Store.endAcquire_brings (g : BracketId) (r : Result) (σ : Store) :
    Next.Brings σ (σ.endAcquire g r) := by
  have hgrows := σ.endAcquire_grows g r
  cases hg : σ.bracket? g with
  | none =>
    rw [Store.endAcquire_of_none hg]
    exact .of_eq rfl (by simp)
  | some br =>
    have hripe : ∀ r', (σ.endAcquire g r).1.Ripe g r' := fun r' =>
      (Store.ripe_bracket hg r').grows hgrows
    cases r with
    | error e =>
      rw [Store.endAcquire_error hg] at hripe ⊢
      have hdrop : Next.Brings σ (σ.dropToken br.link, []) := .of_drop rfl (by simp)
      have hopen := hdrop.trans ((σ.dropToken br.link).openGate_brings g) (.openGate g)
      refine ⟨hopen.tokens, fun a ha => ?_⟩
      obtain ha | ha := List.mem_append.1 ha
      · exact hopen.calls a ha
      · rw [List.mem_singleton.1 ha]
        exact hripe _
    | ok v =>
      cases hc : σ.isCancelled br.link with
      | true =>
        rw [Store.endAcquire_late hg hc]
        exact .of_eq rfl (by simp [Activity.Apt, Node.Apt])
      | false =>
        rw [Store.endAcquire_held hg hc] at hripe ⊢
        refine .of_eq rfl fun a ha => ?_
        rw [List.mem_singleton.1 ha]
        exact hripe _

theorem Sink.receive_brings (k : Sink) (r : Result) (σ : Store) :
    Next.Brings σ (k.receive r σ) := by
  cases k with
  | observer i =>
    change Next.Brings σ (σ.report i r)
    unfold Store.report
    repeat' split
    all_goals exact .of_eq rfl (by simp)
  | fiber f => exact σ.endFiber_brings f r
  | acquired g => exact σ.endAcquire_brings g r
  | lateRelease g =>
    simp only [Sink.receive]
    split
    · rename_i br h
      refine .of_eq rfl fun a ha => ?_
      rw [List.mem_singleton.1 ha]
      exact Store.ripe_bracket h _
    · exact .of_eq rfl (by simp)
  | side k x => exact σ.endSide_brings k x r
  | settle k x =>
    simp only [Sink.receive]
    split
    · rename_i f h
      refine .of_eq rfl fun a ha => ?_
      rw [List.mem_singleton.1 ha]
      exact Store.ripe_fork h _
    · exact .of_eq rfl (by simp)
  | fail k cause =>
    simp only [Sink.receive]
    split
    · rename_i d h
      refine .of_eq rfl fun a ha => ?_
      rw [List.mem_singleton.1 ha]
      exact Store.ripe_duel h _
    · exact .of_eq rfl (by simp)
  | _ => exact .of_eq rfl (by simp [Sink.receive])

/-! ## Futures, jobs and tasks -/

theorem Store.dropFuture_brings (f : FutureId) (σ : Store) : Next.Brings σ (σ.dropFuture f) := by
  unfold Store.dropFuture
  repeat' split
  all_goals exact .of_eq rfl (by simp [Activity.Apt, Node.Apt, Token.Apt])

theorem Store.startFuture_brings (f : FutureId) (waker : Option JobId) (σ : Store) :
    Next.Brings σ (σ.startFuture f waker) := by
  unfold Store.startFuture
  split
  · exact ⟨fun c t ht => .inl (Store.tokens_newConnection ht),
      by simp [Activity.Apt, Node.Apt, Token.Apt]⟩
  · exact .of_eq rfl (by simp)

theorem Job.step_brings (j : JobId) (job : Job) (σ : Store) : Next.Brings σ (job.step j σ) := by
  cases job with
  | timer due s => exact .of_eq rfl (Store.apt_completeSteps (by simp [Source.Due]) _)
  | call c s => exact .of_eq rfl (by simp [Job.step, Activity.Apt])
  | poll f s =>
    have h := σ.startFuture_brings f (some j)
    refine ⟨h.tokens, ?_⟩
    simp only [Job.step, List.mem_append, List.mem_singleton]
    rintro a (ha | rfl)
    · exact h.calls a ha
    · trivial
  | drop f =>
    have h := (σ.setJob j .over).dropFuture_brings f
    exact ⟨h.tokens, h.calls⟩
  | _ => exact .of_eq rfl (by simp [Job.step])

theorem Task.step_brings (t : Task) (σ : Store) : Next.Brings σ (t.step σ) := by
  cases t with
  | side p c k s => exact .of_eq rfl (by simp [Task.step, Activity.Apt, Node.Apt])
  | fiber p c f => exact .of_eq rfl (by simp [Task.step, Activity.Apt, Node.Apt])
  | resume s => exact .of_eq rfl (Store.apt_completeSteps (by simp [Source.Due]) _)
  | job j =>
    simp only [Task.step]
    split
    · exact Job.step_brings _ _ _
    · exact .of_eq rfl (by simp)

theorem Executor.submit_brings (on : Executor) (t : Task) (σ : Store) :
    Next.Brings σ (on.submit t σ) := by
  cases on with
  | immediate => exact t.step_brings σ
  | _ => exact .of_eq rfl (by simp [Executor.submit])

theorem Store.poll_brings (j : JobId) (σ : Store) : Next.Brings σ (σ.poll j) := by
  unfold Store.poll
  repeat' split
  all_goals exact .of_eq rfl (by simp [Activity.Apt, Source.Due])

theorem Store.startFiber_brings (p : Prog) (on : Executor) (σ : Store) :
    Next.Brings σ (σ.startFiber p on).1 :=
  ⟨fun _ _ ht => .inl (Store.tokens_newConnection ht), by simp [Store.startFiber, Activity.Apt]⟩

/-! ## Calls -/

/-- A call that works on no loop and completes no boundary brings nothing unfit. -/
theorem Activity.step_brings {a : Activity} (h : a.Beside) (ha : a.Apt σ) :
    Next.Brings σ (a.step σ) := by
  cases a with
  | start n link k => exact h.elim
  | work s l => exact h.elim
  | registering c b =>
    refine Code.advance_brings (.registering · b) (fun _ _ => trivial) (fun r σ => ?_)
      (fun r σ => ?_) c σ
    · cases r <;> exact .of_eq rfl (by simp [Store.registered, Activity.Apt])
    · cases r <;> exact .refl σ
  | registeringStep c s =>
    refine Code.advance_brings (.registeringStep · s) (fun _ _ => trivial) (fun r σ => ?_)
      (fun r σ => ?_) c σ
    · cases r <;> exact .of_eq rfl (by simp [Store.registeredStep, Activity.Apt, Source.Due])
    · cases r <;> exact .of_eq rfl rfl rfl
  | fillSlot s c => exact σ.fillSlot_brings s c
  | deliver e k r => exact k.receive_brings r σ
  | complete c r =>
    cases c with
    | boundary b => exact h.elim
    | callback b => exact σ.completeCallback_brings b r
    | step s source => exact Store.completeStep_brings ha
  | notify f l o =>
    cases l with
    | step s =>
      refine .of_eq rfl fun a ha' => ?_
      rw [List.mem_singleton.1 ha']
      exact ⟨o, ha, rfl⟩
    | duel k x => exact σ.endDuel_brings k x o
  | listen f l =>
    refine .of_eq rfl ?_
    simp only [Activity.step]
    split
    · rename_i o h
      simpa [Activity.Apt] using Store.outcome?_listen h
    · simp
  | execute on t => exact on.submit_brings t σ
  | startRight left q on parent k =>
    have hs := σ.startFiber_brings q on
    exact ⟨hs.tokens, by simp [Activity.step, Store.startFiber, Activity.Apt]⟩
  | tie left right parent k =>
    have hmodify : Next.Brings σ (σ.modifyDuel k fun _ => some { parent, left, right }, []) :=
      .of_eq rfl (by simp)
    have hpush := hmodify.trans (Store.push_brings parent (t := .fibers left right)
      fun _ _ => trivial) (.push parent _)
    refine ⟨hpush.tokens, ?_⟩
    simp only [Activity.step, List.mem_append, List.mem_cons, List.not_mem_nil, or_false]
    rintro a (ha | rfl | rfl)
    · exact hpush.calls a ha
    · trivial
    · trivial
  | calling c s =>
    refine Code.advance_brings (.calling · s) (fun _ _ => trivial) (fun r σ => ?_)
      (fun r σ => ?_) c σ
    · cases r <;> exact .of_eq rfl (by simp [Store.called, Activity.Apt, Source.Due])
    · cases r <;> exact .refl σ
  | polling j => exact σ.poll_brings j

theorem Input.step_brings (i : Input) (σ : Store) : Next.Brings σ (i.step σ) := by
  cases i with
  | move c => exact c.move_brings σ
  | run p label cancelable =>
    cases cancelable with
    | false => exact .of_eq rfl (by simp [Input.step, Activity.Apt, Node.Apt])
    | true =>
      exact ⟨fun c t ht => .inl (Store.tokens_newConnection ht),
        by simp [Input.step, Activity.Apt, Node.Apt]⟩
  | connection =>
    exact ⟨fun c t ht => .inl (Store.tokens_newConnection ht), by simp [Input.step]⟩
  | pushPair link left right => exact Store.push_brings link fun _ _ => trivial
  | dropToken link => exact .of_drop rfl (by simp)
  | tick queue place =>
    simp only [Input.step]
    split <;> exact .of_eq rfl (by simp [Activity.Apt])
  | ready place =>
    simp only [Input.step]
    split <;> exact .of_eq rfl (by simp [Activity.Apt])
  | startFuture f => exact σ.startFuture_brings f none
  | dropFuture f => exact σ.dropFuture_brings f
  | _ => exact .of_eq rfl (by simp [Input.step, Activity.Apt])

end Calls

/-! ## Turns -/

/-- The turn brings no token, no call, no node and no frame that is not apt. -/
structure Turn.Brings (σ : Store) (t : Turn) : Prop where
  tokens : ∀ c, ∀ t' ∈ t.store.tokens c, t' ∈ σ.tokens c ∨ t'.Apt t.store
  calls : ∀ a ∈ t.calls, a.Apt t.store
  stage : t.stage.Apt t.store
  frames : ∀ f ∈ t.frames, f.Apt t.store

section Turns

variable {σ : Store} {link : Link} {e : ExecutionId}

theorem Turn.Brings.of_next {t : Turn} (h : Next.Brings σ (t.store, t.calls))
    (hs : t.stage.Apt t.store) (hf : ∀ f ∈ t.frames, f.Apt t.store) : t.Brings σ :=
  ⟨h.tokens, h.calls, hs, hf⟩

/-- A turn that leaves connections alone and makes no calls. -/
theorem Turn.Brings.of_eq {t : Turn} (hc : t.store.connections = σ.connections)
    (ha : t.calls = []) (hs : t.stage.Apt t.store) (hf : ∀ f ∈ t.frames, f.Apt t.store) :
    t.Brings σ :=
  .of_next (.of_eq hc (by simp [ha])) hs hf

/-- The step that a loop opens is there, under the connection of the loop. -/
theorem Store.step?_openStep (source : Source) (link : Link) (σ : Store) :
    (σ.openStep source link).1.step? σ.boundaries.size = some { source, link } := by
  rw [Store.step?_eq_some]
  change (σ.newBoundary (.step { source, link })).1.keeper? _ = _
  rw [Store.keeper?_newBoundary, if_pos rfl]

theorem Store.openStep_brings (source : Source) (link : Link) (σ : Store) :
    Next.Brings σ (σ.openStep source link) := by
  have hnew : Next.Brings σ ((σ.newBoundary (.step { source, link })).1, []) :=
    .of_eq rfl (by simp)
  refine hnew.trans (Store.push_brings link fun c hc => ?_) (.push link _)
  -- a token is only registered under a connection, and then the step has one
  refine ⟨{ source, link }, ?_, by simp [hc]⟩
  rw [Store.step?_eq_some, Store.keeper?_newBoundary, if_pos rfl]

theorem Store.wait_brings {source : Source} {register : StepId → Store → Next × Cleanup}
    (h : Next.Brings (σ.openStep source link).1
      (register σ.boundaries.size (σ.openStep source link).1).1)
    (hgrows : (σ.openStep source link).1.Grows
      (register σ.boundaries.size (σ.openStep source link).1).1.1) :
    (σ.wait source link register).Brings σ := by
  have hwait := (σ.openStep_brings source link).trans h hgrows
  refine ⟨hwait.tokens, ?_, trivial, by simp [Store.wait]⟩
  simp only [Store.wait]
  intro a ha
  obtain ha | ha := List.mem_append.1 ha
  · exact hwait.calls a ha
  · rw [List.mem_singleton.1 ha]
    trivial

theorem Store.awaitOutcome_brings (f : FiberId) (σ : Store) :
    (σ.awaitOutcome f link).Brings σ := by
  refine Store.wait_brings ?_ ?_ <;> dsimp only <;> split
  · exact .of_eq rfl (by simp)
  · rename_i o h
    exact .of_eq rfl (by simpa [Activity.Apt, Source.Due] using Store.outcome?_listen h)
  · exact .of_eq rfl (by simp)
  all_goals exact (Store.Alike.listen f _).grows

theorem Store.awaitPermits_brings (i : SemaphoreId) (n : Nat) (σ : Store) :
    (σ.awaitPermits i n link).Brings σ := by
  refine Store.wait_brings (.of_eq rfl ?_) (.of_eq rfl rfl rfl)
  dsimp only
  split
  · exact Store.apt_completeSteps (by simp [Source.Due]) _
  · simp

/-- Who comes to a gate that is open does not wait. -/
theorem Store.awaitGate_brings {g : BracketId} (hg : ∃ br, σ.bracket? g = some br) :
    (σ.awaitGate g link).Brings σ := by
  refine Store.wait_brings (.of_eq rfl ?_) (Store.Alike.await g _).grows
  have hapt : (Token.bracket g).Apt (σ.openStep (.gate g) link).1 :=
    Token.Apt.grows hg (σ.openStep_alike (.gate g) link).grows
  obtain ⟨br, hbr⟩ := hapt
  dsimp only
  rw [hbr]
  cases hgate : br.gate with
  | closed ws => simp [hgate]
  | opened =>
    have hover : (σ.openStep (.gate g) link).1.Over g := Store.over_iff.2 ⟨br, hbr, hgate⟩
    simp only [Option.map_some, hgate]
    refine Store.apt_completeSteps ?_ _
    exact (Store.Alike.await g _).over_eq.2 hover

theorem Store.awaitJob_brings (job : StepId → Store → Job) (started : Bool) (σ : Store) :
    (σ.awaitJob job started link).Brings σ :=
  Store.wait_brings (.of_eq rfl (by simp)) (.of_eq rfl rfl rfl)

theorem Store.fork_brings (kind : ForkKind) (p q : Prog) (on : Executor) (σ : Store) :
    (σ.fork kind p q on link).Brings σ := by
  have hnew : ∀ (σ' : Store) (f : Fork) (a b : Link), Next.Brings σ (σ', []) →
      Next.Brings σ ((σ'.newBoundary (.fork f)).1.push link (.connections a b)) := by
    intro σ' f a b h
    have hboundary : Next.Brings σ ((σ'.newBoundary (.fork f)).1, []) :=
      ⟨fun c t ht => (h.tokens c t ht).imp_right fun hapt => hapt.grows (.newBoundary _), by simp⟩
    exact hboundary.trans (Store.push_brings link (t := .connections a b) fun _ _ => trivial)
      (.push link _)
  have hconnections : Next.Brings σ (σ.newConnection.1.newConnection.1, []) :=
    ⟨fun c t ht => .inl (Store.tokens_newConnection (Store.tokens_newConnection ht)), by simp⟩
  have h : Next.Brings σ ((σ.fork kind p q on link).store, _) := hnew _ _ _ _ hconnections
  refine ⟨h.tokens, ?_, trivial, by simp [Store.fork]⟩
  simp only [Store.fork, List.mem_append, List.mem_cons, List.not_mem_nil, or_false]
  rintro a (ha | rfl | rfl)
  · exact h.calls a ha
  · trivial
  · trivial

theorem Cleanup.begin_brings (c : Cleanup) (σ : Store) : (c.begin link σ).Brings σ := by
  cases c with
  | program i =>
    simp only [Cleanup.begin]
    split <;> exact .of_eq rfl rfl trivial (by simp)
  | _ => exact .of_eq rfl rfl trivial (by simp [Cleanup.begin])

/-- Who asks for a release gets it or comes to the gate. -/
theorem Store.takeRelease_apt {g : BracketId} (hg : ∃ br, σ.bracket? g = some br) (x : ExitCase) :
    (σ.takeRelease g x).2.Apt (σ.takeRelease g x).1 := by
  have hapt : (Token.bracket g).Apt (σ.takeRelease g x).1 :=
    Token.Apt.grows hg (Store.Grows.takeRelease g x)
  simp only [Store.takeRelease]
  split
  · trivial
  · exact hapt

theorem Token.begin_brings {t : Token} (ht : t.Apt σ) (hσ : σ.Apt) :
    (t.begin link σ).Brings σ := by
  cases t with
  | cleanup c => exact c.begin_brings σ
  | step s =>
    have hlike : σ.Alike (σ.modifyStep s fun st => { st with slot := .cancelRequested }) :=
      .modifyStep s fun _ => ⟨rfl, rfl⟩
    have hs : (Token.step s).Apt _ := ht.grows hlike.grows
    refine .of_eq rfl rfl trivial fun f hf => ?_
    obtain rfl | rfl : f = .attempt ∨ f = .endStep s := by simpa [Token.begin] using hf
    · trivial
    · exact hs
  | bracket g =>
    exact .of_eq rfl rfl (Store.takeRelease_apt ht .cancelled) (by simp [Token.begin])
  | connection c =>
    have hgrows : σ.Grows (σ.cancel c).1 := .cancel c
    have htokens : ∀ c' t, t ∈ (σ.cancel c).1.tokens c' → t ∈ σ.tokens c' := fun _ _ =>
      Store.tokens_cancel
    have htaken : ∀ ts, (σ.cancel c).2 = some ts → ∀ t ∈ ts, t.Apt (σ.cancel c).1 := by
      intro ts hts t ht
      obtain ⟨c', -, rfl⟩ := Store.mem_of_cancel hts
      exact (hσ.tokens c' t ht).grows hgrows
    simp only [Token.begin]
    generalize σ.cancel c = x at htokens htaken
    obtain ⟨σ', _ | ts⟩ := x
    · exact ⟨fun c' t ht => .inl (htokens c' t ht), by simp, trivial, by simp⟩
    · exact ⟨fun c' t ht => .inl (htokens c' t ht), by simp, htaken ts rfl, by simp⟩
  | connections a b =>
    exact .of_eq rfl rfl (by simp [Token.begin, Stage.Apt, Node.Apt, Token.Apt])
      (by simp [Token.begin])
  | fiber f =>
    simp only [Token.begin]
    split <;> exact .of_eq rfl rfl trivial (by simp [Frame.Apt])
  | fibers a b =>
    exact .of_eq rfl rfl (by simp [Token.begin, Stage.Apt, Node.Apt, Token.Apt])
      (by simp [Token.begin])

theorem Store.sweep_brings {of : Link} {first : Option Error} {below : List Frame}
    {ts : List Token} (hts : ∀ t ∈ ts, t.Apt σ) (hb : ∀ f ∈ below, f.Apt σ) :
    (σ.sweep of first link below ts).Brings σ := by
  cases ts with
  | nil => exact .of_eq rfl rfl trivial hb
  | cons t ts =>
    obtain ⟨ht, hts⟩ := List.forall_mem_cons.1 hts
    exact .of_eq rfl rfl ht (List.forall_mem_cons.2 ⟨hts, hb⟩)

theorem Instant.perform_brings (a : Instant) (σ : Store) : Next.Brings σ (a.perform σ).1 := by
  cases a with
  | release i n => exact .of_eq rfl (Store.apt_completeSteps (by simp [Source.Due]) _)
  | _ => exact .of_eq rfl (by simp [Instant.perform])

theorem Prog.step_brings (p : Prog) (hσ : σ.Apt) : (p.step e link σ).Brings σ := by
  cases p with
  | connected register =>
    exact .of_next (.of_eq rfl (by simp [Prog.step, Activity.Apt])) trivial (by simp [Prog.step])
  | cancelable register =>
    have h := σ.openStep_brings .user link
    refine ⟨h.tokens, ?_, trivial, by simp [Prog.step]⟩
    simp only [Prog.step, List.mem_append, List.mem_singleton]
    rintro a (ha | rfl)
    · exact (h.calls a ha).grows (.of_eq rfl rfl rfl)
    · trivial
  | bracket acquire use release =>
    let br : Bracket := { owner := e, link, release }
    have hbr : (σ.newBoundary (.bracket br)).1.bracket? σ.boundaries.size = some br :=
      Store.bracket?_eq_some.2 (by rw [Store.keeper?_newBoundary, if_pos rfl])
    have hnew : Next.Brings σ ((σ.newBoundary (.bracket br)).1, []) := .of_eq rfl (by simp)
    have hpush := hnew.trans (Store.push_brings link (t := .bracket σ.boundaries.size)
      fun _ _ => ⟨br, hbr⟩) (.push link _)
    refine ⟨hpush.tokens, ?_, trivial, fun f hf => ?_⟩
    · simp only [Prog.step, List.mem_append, List.mem_singleton]
      rintro a (ha | rfl)
      · exact hpush.calls a ha
      · trivial
    · rw [List.mem_singleton.1 hf]
      exact ⟨br, hbr⟩
  | race p q on => exact σ.fork_brings .first p q on
  | both p q on f =>
    have h : (σ.fork .both p q on link).Brings σ := σ.fork_brings .both p q on
    exact ⟨h.tokens, h.calls, h.stage, by simp [Prog.step, Frame.Apt]⟩
  | racePair p q on =>
    have hnew : Next.Brings σ ((σ.newBoundary (.duel none)).1, []) := .of_eq rfl (by simp)
    have hstart := hnew.trans ((σ.newBoundary (.duel none)).1.startFiber_brings p on)
      ((σ.newBoundary (.duel none)).1.startFiber_plain p on).alike.grows
    refine ⟨hstart.tokens, ?_, trivial, by simp [Prog.step]⟩
    simp [Prog.step, Store.startFiber, Activity.Apt]
  | start p on =>
    have h := σ.startFiber_brings p on
    exact ⟨h.tokens, h.calls, trivial, by simp [Prog.step]⟩
  | spawn s p =>
    have h := σ.startFiber_brings p ((σ.scopes[s]?.map Scope.executor).getD .immediate)
    exact ⟨h.tokens, h.calls, trivial, by simp [Prog.step, Frame.Apt]⟩
  | joinEach fs =>
    cases fs <;> exact .of_eq rfl rfl trivial (by simp [Prog.step, Frame.Apt])
  | cancelScope s =>
    refine .of_eq rfl rfl (fun t ht => ?_) (by simp [Prog.step])
    obtain ⟨f, -, rfl⟩ := List.mem_map.1 ht
    trivial
  | outcome f => exact σ.awaitOutcome_brings f
  | permits s n => exact σ.awaitPermits_brings s n
  | instant a =>
    have h := a.perform_brings σ
    exact ⟨h.tokens, h.calls, trivial, by simp [Prog.step]⟩
  | shift on =>
    change (σ.wait .executor link fun s σ => ((σ, [.execute on (.resume s)]), .idle)).Brings σ
    exact Store.wait_brings (.of_eq rfl (by simp [Activity.Apt])) (.refl _)
  | sleep d => exact σ.awaitJob_brings _ _
  | remote c => exact σ.awaitJob_brings _ _
  | awaited p =>
    have h : ((σ.newFuture p).1.awaitJob (fun s _ => .poll (σ.newFuture p).2 s) true
        link).Brings (σ.newFuture p).1 := Store.awaitJob_brings _ _ _
    exact ⟨h.tokens, h.calls, h.stage, h.frames⟩
  | pop c =>
    have htokens : ∀ c' t, t ∈ (σ.popToken c).1.tokens c' → t ∈ σ.tokens c' := fun _ _ =>
      Store.tokens_popToken
    have hpopped : ∀ t, (σ.popToken c).2 = some t → t.Apt (σ.popToken c).1 := by
      intro t ht
      obtain ⟨c', -, hmem⟩ := Store.mem_of_popToken ht
      exact (hσ.tokens c' t hmem).grows (.popToken c)
    simp only [Prog.step]
    generalize σ.popToken c = x at htokens hpopped
    obtain ⟨σ', _ | t⟩ := x
    · exact ⟨fun c' t ht => .inl (htokens c' t ht), by simp, trivial, by simp⟩
    · exact ⟨fun c' t ht => .inl (htokens c' t ht), by simp, hpopped t rfl, by simp⟩
  | stored i =>
    simp only [Prog.step]
    split <;> exact .of_eq rfl rfl trivial (by simp)
  | _ => exact .of_eq rfl rfl trivial (by simp [Prog.step, Frame.Apt])

theorem Node.step_brings {n : Node} (hn : n.Apt σ) (hσ : σ.Apt) : (n.step e link σ).Brings σ := by
  cases n with
  | program p => exact p.step_brings hσ
  | result r => exact .of_eq rfl rfl trivial (by simp [Node.step])
  | token t => exact Token.begin_brings hn hσ
  | sweep of ts =>
    have hbelow : ∀ f ∈ [Frame.restore link], f.Apt σ := by simp [Frame.Apt]
    have h : (σ.sweep of none none [.restore link] ts).Brings σ := Store.sweep_brings hn hbelow
    exact h
  | release g v x =>
    simp only [Node.step]
    split <;> exact .of_eq rfl rfl trivial (by simp [Frame.Apt])
  | gate g => exact Store.awaitGate_brings hn

theorem Frame.resume_brings {f : Frame} (hf : f.Apt σ) (r : Result) :
    (f.resume r link σ).Brings σ := by
  cases f with
  | sweep of t ts first =>
    have hcollect : σ.Grows (σ.collect first r).1 := .of_eq rfl rfl rfl
    have h : ((σ.collect first r).1.sweep of (σ.collect first r).2 link [] ts).Brings
        (σ.collect first r).1 :=
      Store.sweep_brings (fun t ht => (hf t ht).grows hcollect) (by simp)
    exact ⟨h.tokens, h.calls, h.stage, h.frames⟩
  | use g f =>
    cases r with
    | ok v =>
      refine .of_eq rfl rfl trivial fun f' hf' => ?_
      rw [List.mem_singleton.1 hf']
      exact hf
    | error x => exact .of_eq rfl rfl trivial (by simp [Frame.resume])
  | release g =>
    exact .of_eq rfl rfl (Store.takeRelease_apt hf _) (by simp [Frame.resume, Frame.Apt])
  | openGate g =>
    cases r with
    | ok v =>
      have h := σ.openGate_brings g
      exact ⟨h.tokens, h.calls, trivial, by simp [Frame.resume]⟩
    | error x => exact .of_eq rfl rfl trivial (by simp [Frame.resume])
  | endBracket g used =>
    cases r with
    | ok v =>
      exact ⟨fun c t ht => .inl (Store.tokens_popToken ht), by simp [Frame.resume], trivial,
        by simp [Frame.resume]⟩
    | error x => exact .of_eq rfl rfl trivial (by simp [Frame.resume])
  | endStep s =>
    cases r with
    | error x => exact .of_eq rfl rfl trivial (by simp [Frame.resume])
    | ok v =>
      simp only [Frame.resume]
      split
      · have hlike : σ.Alike (σ.modifyStep s fun st => { st with live := false }) :=
          .modifyStep s fun _ => ⟨rfl, rfl⟩
        obtain ⟨st, hs, hlink⟩ : (Token.step s).Apt _ := Token.Apt.grows hf hlike.grows
        refine .of_next (.of_eq rfl fun a ha => ?_) trivial (by simp)
        rw [List.mem_singleton.1 ha]
        exact ⟨_, Store.step?_eq_some.1 hs, fun hnone => absurd hnone hlink⟩
      · exact .of_eq rfl rfl trivial (by simp)
  | publishCancelled f =>
    cases r with
    | ok v => exact .of_next (σ.publish_brings f _) trivial (by simp [Frame.resume])
    | error x => exact .of_eq rfl rfl trivial (by simp [Frame.resume])
  | _ =>
    unfold Frame.resume
    dsimp only
    repeat' split
    all_goals exact .of_eq rfl rfl trivial (by simp [Frame.Apt])

theorem Code.turn_brings {α : Type} {again : Code Prog α → Stage}
    {done : Except String α → Stage} (ha : ∀ c σ, (again c).Apt σ) (hd : ∀ o σ, (done o).Apt σ)
    (c : Code Prog α) (σ : Store) : (c.turn again done link σ).Brings σ := by
  refine .of_next (c.move_brings σ) ?_ (by simp [Code.turn])
  simp only [Code.turn]
  split
  · exact hd _ _
  · exact ha _ _

/-! ## Loops -/

/-- The step leaves only what is apt. -/
structure Next.Apt (next : Next) : Prop where
  store : next.1.Apt
  calls : ∀ a ∈ next.2, a.Apt next.1

theorem Next.Brings.apt {next : Next} (h : next.Brings σ) (hσ : σ.Apt) (hgrows : σ.Grows next.1)
    (hcells : next.1.boundaries.cells = σ.boundaries.cells) : next.Apt :=
  ⟨hσ.grows hgrows (fun b x hx => .inl (by rwa [Store.boundary?, hcells] at hx)) h.tokens, h.calls⟩

theorem Turn.Brings.on {t : Turn} {l : Loop} (h : t.Brings σ) (ho : t.Opens σ) (hσ : σ.Apt)
    (hgrows : σ.Grows t.store) (hl : ∀ f ∈ l.stack, f.Apt σ) : (t.on l).Apt := by
  refine ⟨hσ.grows hgrows (fun b x hx => ?_) h.tokens, ?_⟩
  · change t.store.boundaries.cells[b]? = _ at hx
    obtain ⟨hb, -⟩ | ⟨hb, -⟩ := ho.cells <;> rw [hb] at hx
    · exact .inl hx
    · rw [Array.getElem?_push] at hx
      split at hx
      · exact .inr (Option.some.inj hx).symm
      · exact .inl hx
  · simp only [Turn.on, List.mem_append, List.mem_singleton]
    rintro a (ha | rfl)
    · exact h.calls a ha
    · refine ⟨h.stage, fun f hf => ?_⟩
      obtain hf | hf := List.mem_append.1 hf
      · exact h.frames f hf
      · exact (hl f hf).grows hgrows

theorem Store.Apt.setBoundary {b : BoundaryId} {x : Boundary} (hσ : σ.Apt)
    (hparked : ∀ l, x = .parked l → ∀ f ∈ l.stack, f.Apt σ)
    (hready : ∀ r, x = .ready r → σ.Ripe b r) : (σ.setBoundary b x).Apt := by
  have hgrows : σ.Grows (σ.setBoundary b x) := .setBoundary b x
  refine ⟨fun b' l hl f hf => ?_, fun b' r hr => ?_, fun c t ht => (hσ.tokens c t ht).grows hgrows⟩
  · obtain ⟨-, hx⟩ | hl := Store.boundary?_of_setBoundary hl
    · exact (hparked l hx.symm f hf).grows hgrows
    · exact (hσ.parked b' l hl f hf).grows hgrows
  · obtain ⟨rfl, hx⟩ | hr := Store.boundary?_of_setBoundary hr
    · exact (hready r hx.symm).grows hgrows
    · exact (hσ.ready b' r hr).grows hgrows

theorem Store.leave_apt {b : BoundaryId} {l : Loop} (hσ : σ.Apt) (hl : ∀ f ∈ l.stack, f.Apt σ) :
    (σ.leave b l).Apt := by
  have hresumed : ∀ f ∈ l.stack, f.Apt (σ.setBoundary b .resumed) := fun f hf =>
    (hl f hf).grows (.setBoundary b _)
  unfold Store.leave
  split
  · exact ⟨hσ.setBoundary (by simp) (by simp),
      by simpa [Activity.Apt, Stage.Apt, Node.Apt] using hresumed⟩
  · have hset : (σ.setBoundary b (.parked l)).Apt := by
      refine hσ.setBoundary ?_ (by simp)
      rintro l' ⟨⟩
      exact hl
    exact ⟨hset.grows (.of_eq rfl rfl rfl) (fun _ _ h => .inl h) fun _ _ h => .inl h, by simp⟩
  · exact ⟨hσ, by simp⟩

/-- A boundary that is ripe is completed. -/
theorem Store.completeBoundary_apt {b : BoundaryId} {r : Result} (hσ : σ.Apt) (hb : σ.Ripe b r) :
    (σ.completeBoundary b r).Apt := by
  unfold Store.completeBoundary
  split
  · refine ⟨hσ.setBoundary (by simp) ?_, by simp⟩
    rintro _ ⟨⟩
    exact hb
  · rename_i l hl
    have hset : (σ.setBoundary b .resumed).Apt := hσ.setBoundary (by simp) (by simp)
    refine ⟨hset.grows (.of_eq rfl rfl rfl) (fun _ _ h => .inl h) fun _ _ h => .inl h, fun a ha => ?_⟩
    have hgrows : σ.Grows ((σ.setBoundary b .resumed).emit (.resumed b)) :=
      (Store.Grows.setBoundary b _).trans (.of_eq rfl rfl rfl)
    rw [List.mem_singleton.1 ha]
    exact ⟨trivial, fun f hf => (hσ.parked b l hl f hf).grows hgrows⟩
  · exact ⟨hσ.grows (.of_eq rfl rfl rfl) (fun _ _ h => .inl h) fun _ _ h => .inl h, by simp⟩

theorem Loop.step_apt {s : Stage} {l : Loop} (h : (Activity.work s l).Apt σ) (hσ : σ.Apt) :
    (l.step s σ).Apt := by
  have hend : ∀ r, Next.Apt (σ, [.deliver l.id l.sink r]) := fun r => ⟨hσ, by simp [Activity.Apt]⟩
  cases s with
  | looking n =>
    cases hc : σ.isCancelled l.link with
    | true =>
      rw [Loop.step_of_cancelled hc]
      exact hend _
    | false =>
      rw [Loop.step_of_not_cancelled hc]
      exact (Node.step_brings h.1 hσ).on (n.step_opens _ _ σ) hσ (n.step_grows _ _ σ) h.2
  | handing r =>
    obtain ⟨e, link, _ | ⟨f, fs⟩, k⟩ := l
    · exact hend r
    · obtain ⟨hf, hfs⟩ := List.forall_mem_cons.1 h.2
      exact (Frame.resume_brings hf r).on (l := ⟨e, link, fs, k⟩) (f.resume_opens r link σ) hσ
        (f.resume_grows r link σ) hfs
  | delaying c =>
    exact (Code.turn_brings (by simp [Stage.Apt]) (by rintro (m | r) σ <;> trivial) c σ).on
      (c.delaying_opens _ σ) hσ (c.delaying_plain σ).alike.grows h.2
  | suspending c =>
    exact (Code.turn_brings (by simp [Stage.Apt]) (by rintro (m | p) σ <;> trivial) c σ).on
      (c.suspending_opens _ σ) hσ (c.suspending_plain σ).alike.grows h.2
  | mapping c =>
    exact (Code.turn_brings (by simp [Stage.Apt]) (by rintro (m | v) σ <;> trivial) c σ).on
      (c.mapping_opens _ σ) hσ (c.mapping_plain σ).alike.grows h.2
  | leaving b => exact Store.leave_apt hσ h.2

theorem Activity.step_apt {a : Activity} (ha : a.Apt σ) (hσ : σ.Apt) : (a.step σ).Apt := by
  by_cases hbeside : a.Beside
  · exact (Activity.step_brings hbeside ha).apt hσ (a.step_grows σ)
      (Activity.step_aside hbeside σ).cells
  cases a with
  | start n link k =>
    have hgrows : σ.Grows (σ.begin link k).1 := .of_eq rfl rfl rfl
    refine ⟨hσ.grows hgrows (fun _ _ h => .inl h) fun _ _ h => .inl h, fun a' ha' => ?_⟩
    rw [List.mem_singleton.1 ha']
    exact ⟨Node.Apt.grows ha hgrows, by simp⟩
  | work s l => exact Loop.step_apt ha hσ
  | complete c r =>
    cases c with
    | boundary b => exact Store.completeBoundary_apt hσ ha
    | _ => exact absurd trivial hbeside
  | _ => exact absurd trivial hbeside

end Turns

namespace Session

/-- **What completes boundaries, now or later, completes only those that are ripe then**, in every
reachable state. -/
theorem apt (cs : List Choice) :
    (after cs).store.Apt ∧ ∀ a ∈ (after cs).calls, a.Apt (after cs).store := by
  refine invariant (P := fun S => S.store.Apt ∧ ∀ a ∈ S.calls, a.Apt S.store)
    ⟨⟨by simp [Store.boundary?], by simp [Store.boundary?], by simp [Store.tokens]⟩, by simp⟩
    ?_ ?_ cs
  · rintro cs i ⟨hσ, hcalls⟩
    have hnext := (i.step_brings (after cs).store).apt hσ (i.step_grows _) (i.step_aside _).cells
    refine ⟨hnext.store, fun a ha => ?_⟩
    obtain ha | ha := List.mem_append.1 ha
    · exact hnext.calls a ha
    · exact (hcalls a ha).grows (i.step_grows _)
  · rintro cs a xs ys hS ⟨hσ, hcalls⟩
    rw [hS] at hcalls
    have hnext := Activity.step_apt (hcalls a (by simp)) hσ
    refine ⟨hnext.store, fun a' ha' => ?_⟩
    obtain ha' | ha' := List.mem_append.1 ha'
    · exact hnext.calls a' ha'
    · refine (hcalls a' ?_).grows (a.step_grows _)
      simp only [List.mem_append, List.mem_cons] at ha' ⊢
      exact ha'.imp_right .inr

end Session

end CancelableEffects
