import CancelableEffects.Proofs.Seats
import CancelableEffects.Proofs.Stacks

/-!
# Accounts — the tokens of open boundaries

* `Next.Operates.tokens_eq`, `tokens_of_pop`, `tokens_of_push`: the tokens after an operation.
* `Session.owed`: the token that a boundary has on a connection.
* `Session.Awaits`: a boundary is open on a connection.
* **`Session.Answers.not_awaits`**: a loop goes on only from a boundary that is no longer open.
* `Session.Effect`: what a call does to the tokens of a connection that is for another execution, or
  for none.
* **`Session.effect`**: it takes back the token of an open boundary, or pushes it, or does nothing.
* **`Session.awaits_call`**: a boundary is open when its loop has come there, or has opened it.
-/

namespace CancelableEffects

/-! ## Tokens -/

section Tokens

variable {σ : Store} {x : Operated} {next : Next} {c : ConnectionId}

theorem Store.tokens_of_le (h : σ.connections.size ≤ c) : σ.tokens c = [] := by
  rw [tokens, Array.getElem?_eq_none h]
  rfl

/-- An operation on another connection leaves the tokens as they are, and so does the cancellation of a
connection that is not there. -/
theorem Next.Operates.tokens_eq (h : next.Operates σ x)
    (hx : ∀ op, x = some (some c, op) → op = .cancel) (hactive : next.1.isCancelled (some c) = false) :
    next.1.tokens c = σ.tokens c := by
  by_cases hlt : c < next.1.connections.size
  · rw [Store.tokens_eq, Store.tokens_eq, h.connection c hlt]
    obtain _ | ⟨link, op⟩ := x
    · rfl
    · simp only [Connection.after]
      split
      · rename_i hlink
        obtain rfl := hx op (by rw [hlink])
        rw [Store.isCancelled_some, h.connection c hlt] at hactive
        simp [Connection.after, hlink, Connection.Operation.perform] at hactive
      · rfl
  · have hle : next.1.connections.size ≤ c := Nat.le_of_not_lt hlt
    rw [Store.tokens_of_le hle, Store.tokens_of_le (Nat.le_trans h.size hle)]

theorem Next.Operates.tokens_of_pop (h : next.Operates σ (some (some c, .pop))) :
    next.1.tokens c = (σ.tokens c).tail := by
  by_cases hlt : c < next.1.connections.size
  · rw [Store.tokens_eq, Store.tokens_eq, h.connection c hlt, Connection.after, if_pos rfl]
    obtain (_ | ⟨t, ts⟩) | _ := σ.connectionAt c <;> rfl
  · have hle : next.1.connections.size ≤ c := Nat.le_of_not_lt hlt
    rw [Store.tokens_of_le hle, Store.tokens_of_le (Nat.le_trans h.size hle)]
    rfl

theorem Next.Operates.tokens_of_push {t : Token} (h : next.Operates σ (some (some c, .push t)))
    (hactive : σ.isCancelled (some c) = false) (hlt : c < σ.connections.size) :
    next.1.tokens c = t :: σ.tokens c := by
  rw [Store.tokens_eq, Store.tokens_eq, h.connection c (Nat.lt_of_lt_of_le hlt h.size),
    Connection.after, if_pos rfl]
  rw [Store.isCancelled_some] at hactive
  cases hc : σ.connectionAt c with
  | active ts => rfl
  | cancelled => simp [hc, Connection.isCancelled] at hactive

end Tokens

/-- Who means to take back a token pops the newest one. -/
theorem Activity.operation_of_withdrawal {a : Activity} {σ : Store} {link : Link} {t : Token}
    (h : a.withdrawal σ = some (link, t)) : a.operation σ = some (link, .pop) := by
  unfold operation
  split
  all_goals first | cases h | rw [h]; rfl

theorem Store.owes_of_bracket {σ : Store} {b : BoundaryId} {br : Bracket} (h : σ.bracket? b = some br)
    (c : ConnectionId) : σ.owes c b = none := by
  rw [owes, bracket?_eq_some.1 h]
  rfl

/-- The token of a step that waits. -/
theorem Store.owes_of_step {σ : Store} {i : StepId} {st : Step} (h : σ.step? i = some st)
    (hlive : st.live = true) (c : ConnectionId) :
    σ.owes c i = if st.link = some c then some (.step i) else none := by
  rw [owes, step?_eq_some.1 h]
  simp [Keeper.owes, hlive]

/-- The token of a fork that is not decided. -/
theorem Store.owes_of_fork {σ : Store} {k : ForkId} {f : Fork} (h : σ.fork? k = some f)
    (hopen : f.settled = false) (c : ConnectionId) : σ.owes c k =
      if f.parent = some c then some (.connections (some f.left) (some f.right)) else none := by
  rw [owes, fork?_eq_some.1 h]
  simp [Keeper.owes, hopen]

/-- The token of a duel that is not decided. -/
theorem Store.owes_of_duel {σ : Store} {k : DuelId} {d : Duel} (h : σ.duel? k = some d)
    (hopen : d.settled = false) (c : ConnectionId) :
    σ.owes c k = if d.parent = some c then some (.fibers d.left d.right) else none := by
  rw [owes, duel?_eq_some.1 h]
  simp [Keeper.owes, hopen]

theorem Store.Settled.owes_eq_none {σ : Store} {b : BoundaryId} (h : σ.Settled b) (c : ConnectionId) :
    σ.owes c b = none := by
  obtain ⟨x, hx, hdecided, -⟩ := h
  exact Store.Decided.owes_eq_none ⟨x, hx, hdecided⟩ c

theorem Store.Settled.bracket? {σ : Store} {b : BoundaryId} (h : σ.Settled b) : σ.bracket? b = none := by
  obtain ⟨x, hx, -, hother⟩ := h
  cases hbr : σ.bracket? b with
  | none => rfl
  | some br =>
    cases hx.symm.trans (Store.bracket?_eq_some.1 hbr)
    exact absurd rfl (hother br)

/-! ## Boundaries -/

namespace Session

variable {cs : List Choice} {b : BoundaryId} {c : ConnectionId} {r : Result}

/-- The token that the boundary has on the connection: that of a bracket unless its acquisition failed,
and that of any other keeper until it is decided. -/
def owed (c : ConnectionId) (b : BoundaryId) (S : Session) : List Token :=
  match S.store.bracket? b with
  | some br => if br.link = some c ∧ S.deals b (.acquires false) = 0 then [.bracket b] else []
  | none => (S.store.owes c b).toList

/-- The boundary is open on the connection: what completes it has not been decided, its acquisition has
not ended, or its fibers are being started. -/
inductive Awaits (c : ConnectionId) (b : BoundaryId) (S : Session) : Prop
  | owes (t : Token) (h : S.store.owes c b = some t)
  | acquires (br : Bracket) (hbr : S.store.bracket? b = some br) (hlink : br.link = some c)
    (hnever : ∀ ok, S.deals b (.acquires ok) = 0)
  | ties (h : .ties b (some c) ∈ S.matters)

/-- The fibers of a duel that is being started were not there before. -/
theorem duel_of_ties {link : Link} (h : .ties b link ∈ (after cs).matters) :
    (after cs).store.keeper? b = some (.duel none) :=
  (tied_once b cs).2 (List.countP_pos_iff.2 ⟨_, h, by simp [Matter.isTies]⟩)

/-- **A loop goes on only from a boundary that is no longer open.** -/
theorem Answers.not_awaits (h : (after cs).Answers b r)
    (hactive : (after cs).store.isCancelled (some c) = false) : ¬(after cs).Awaits c b := by
  have hkeeper : ∀ br, (after cs).store.bracket? b = some br →
      (after cs).store.keeper? b = some (.bracket br) := fun _ hbr => Store.bracket?_eq_some.1 hbr
  obtain (hsettled | ⟨br, hbr, hc⟩) | ⟨⟨br, hbr⟩, hdeals⟩ := h
  · rintro (⟨t, ht⟩ | ⟨br, hbr, -, -⟩ | htie)
    · cases (hsettled.owes_eq_none c).symm.trans ht
    · cases hsettled.bracket?.symm.trans hbr
    · obtain ⟨x, hx, hdecided, -⟩ := hsettled
      cases (duel_of_ties htie).symm.trans hx
      obtain ⟨d, hd, -⟩ := hdecided
      cases hd
  · rintro (⟨t, ht⟩ | ⟨br', hbr', hlink, -⟩ | htie)
    · cases (Store.owes_of_bracket hbr c).symm.trans ht
    · cases hbr.symm.trans hbr'
      cases hactive.symm.trans (hlink ▸ hc)
    · cases (duel_of_ties htie).symm.trans (hkeeper br hbr)
  · rintro (⟨t, ht⟩ | ⟨br', hbr', -, hnever⟩ | htie)
    · cases (Store.owes_of_bracket hbr c).symm.trans ht
    · exact absurd (hnever r.isOk) (Nat.pos_iff_ne_zero.1 hdeals)
    · cases (duel_of_ties htie).symm.trans (hkeeper br hbr)

/-- A boundary that is open on a connection has a token there, unless its fibers are being started. -/
theorem owed_of_owes {S : Session} {t : Token} (h : S.store.owes c b = some t) : S.owed c b = [t] := by
  cases hbr : S.store.bracket? b with
  | none => simp [owed, hbr, h]
  | some br => cases (Store.owes_of_bracket hbr c).symm.trans h

theorem owed_of_settled {S : Session} (h : S.store.Settled b) : S.owed c b = [] := by
  simp [owed, h.bracket?, h.owes_eq_none c]

/-- A new boundary has the token of its keeper. -/
theorem owed_of_pledges {S : Session} {x : Keeper} {t : Token} (hx : S.store.keeper? b = some x)
    (hnever : S.deals b (.acquires false) = 0) (h : x.Pledges c b t) : S.owed c b = [t] := by
  obtain h | ⟨rfl, br, rfl, hlink⟩ := h
  · exact owed_of_owes (by rw [Store.owes, hx]; exact h)
  · simp [owed, Store.bracket?_eq_some.2 hx, hlink, hnever]

theorem owed_of_not_pledges {S : Session} {x : Keeper} (hx : S.store.keeper? b = some x)
    (h : ∀ t, ¬x.Pledges c b t) : S.owed c b = [] := by
  cases hbr : S.store.bracket? b with
  | some br =>
    cases hx.symm.trans (Store.bracket?_eq_some.1 hbr)
    have hlink : br.link ≠ some c := fun hlink => h _ (.inr ⟨rfl, br, rfl, hlink⟩)
    simp [owed, hbr, hlink]
  | none =>
    have howes : x.owes c b = none := by
      cases howes : x.owes c b with
      | none => rfl
      | some t => exact absurd (.inl howes) (h t)
    simp [owed, hbr, Store.owes, hx, howes]

/-! ## Calls -/

/-- What a call does to the tokens of a connection that is not that of the loop at work: nothing, or it
takes back the newest one, that of a boundary which was open, or pushes that of one. -/
inductive Effect (c : ConnectionId) (S S' : Session) : Prop
  | apart (htokens : S'.store.tokens c = S.store.tokens c)
    (howed : ∀ b x, S.store.keeper? b = some x → S'.owed c b = S.owed c b)
  | returns (b : BoundaryId) (t : Token) (hawaits : S.Awaits c b) (howed : S.owed c b = [t])
    (htokens : S'.store.tokens c = (S.store.tokens c).tail) (hafter : S'.owed c b = [])
  | pledges (b : BoundaryId) (t : Token) (hawaits : S.Awaits c b) (howed : S.owed c b = [])
    (htokens : c < S.store.connections.size → S'.store.tokens c = t :: S.store.tokens c)
    (hafter : S'.owed c b = [t])

section Effect

variable {a : Activity} {others : List Activity}

/-- What a boundary has on a connection is kept by a step that spares it, and if there is nothing before
and after. -/
theorem owed_call {S : Session} {x : Keeper} (hx : S.store.keeper? b = some x)
    (hdoes : (∀ e ∈ a.edits S.store, e.Spares b) ∨
      S.store.owes c b = none ∧ (a.step S.store).1.owes c b = none)
    (hdeal : a.deal b S.store = .acquires false → S.store.bracketLink b ≠ some c) :
    (S.record (some a) (a.step S.store) others).owed c b = S.owed c b := by
  have hgrows := a.step_grows S.store
  cases hbr : S.store.bracket? b with
  | some br =>
    obtain ⟨br', hbr', hlike⟩ := hgrows.bracket b br hbr
    have hlink : S.store.bracketLink b = br.link := by simp [Store.bracketLink, hbr]
    have hdeals : br.link = some c → (S.record (some a) (a.step S.store) others).deals b (.acquires false) =
        S.deals b (.acquires false) := fun hc => by
      rw [deals_call, if_neg fun hd => hdeal hd (hlink.trans hc), Nat.add_zero]
    simp only [owed, record_store, hbr', hbr, hlike.link]
    split <;> split <;> simp_all
  | none =>
    have hkept : S.store.KeptOtherwise b := by
      refine ⟨x, hx, ?_⟩
      rintro br rfl
      cases hbr.symm.trans (Store.bracket?_eq_some.2 hx)
    have hbr' : (a.step S.store).1.bracket? b = none := by
      obtain ⟨x', hx', hother⟩ := hgrows.kept b hkept
      cases hbr' : (a.step S.store).1.bracket? b with
      | none => rfl
      | some br =>
        cases hx'.symm.trans (Store.bracket?_eq_some.1 hbr')
        exact absurd rfl (hother br)
    have howes : (a.step S.store).1.owes c b = S.store.owes c b := by
      obtain hspares | ⟨hbefore, hafter⟩ := hdoes
      · have hlt : b < S.store.boundaries.size := by
          have hlt := (Array.getElem?_eq_some_iff.1 hx).1
          rwa [S.store.boundaries.aligned] at hlt
        exact (a.step_does S.store).owes hspares hlt c
      · rw [hafter, hbefore]
    simp only [owed, record_store, hbr', hbr, howes]

/-- A step that settles a boundary takes back its token. -/
theorem effect_of_settles {S : Session} {k : BoundaryId} {link : Link} {t : Token}
    (hop : a.operation S.store = some (link, .pop))
    (hspares : ∀ b, b ≠ k → ∀ e ∈ a.edits S.store, e.Spares b)
    (howes : ∀ c, S.store.owes c k = if link = some c then some t else none)
    (hsettled : (a.step S.store).1.Settled k) (hdeal : ∀ b, a.deal b S.store ≠ .acquires false)
    (hactive : (a.step S.store).1.isCancelled (some c) = false) :
    Effect c S (S.record (some a) (a.step S.store) others) := by
  have hoperates := hop ▸ a.step_operates S.store
  by_cases hlink : link = some c
  · subst hlink
    have hk : S.store.owes c k = some t := by simp [howes]
    exact .returns k t (.owes t hk) (owed_of_owes hk) hoperates.tokens_of_pop (owed_of_settled hsettled)
  · refine .apart (hoperates.tokens_eq (fun op hx => ?_) hactive) fun b x hx =>
      owed_call hx ?_ fun hd => absurd hd (hdeal b)
    · cases hx
      exact absurd rfl hlink
    · by_cases hb : b = k
      · subst hb
        exact .inr ⟨by simp [howes, hlink], hsettled.owes_eq_none c⟩
      · exact .inl (hspares b hb)

/-- A step that does no more than to settle a boundary that has nothing on the connection. -/
theorem effect_of_spares {S : Session}
    (hop : ∀ op, a.operation S.store = some (some c, op) → op = .cancel)
    (hdoes : ∀ b, (∀ e ∈ a.edits S.store, e.Spares b) ∨
      S.store.owes c b = none ∧ (a.step S.store).1.owes c b = none)
    (hdeal : ∀ b, a.deal b S.store = .acquires false → S.store.bracketLink b ≠ some c)
    (hactive : (a.step S.store).1.isCancelled (some c) = false) :
    Effect c S (S.record (some a) (a.step S.store) others) :=
  .apart ((a.step_operates S.store).tokens_eq hop hactive) fun b _ hx =>
    owed_call hx (hdoes b) (hdeal b)

/-- A frame that receives a result in an execution under another connection. -/
theorem effect_of_handing {r : Result} {l : Loop} {f : Frame} {fs : List Frame}
    (hcall : .work (.handing r) l ∈ (after cs).calls) (hstack : l.stack = f :: fs)
    (hother : l.link.under l.stack ≠ some c) (hdrawn : ¬(after cs).Drawn c)
    (hactive : ((Activity.work (.handing r) l).step (after cs).store).1.isCancelled (some c) = false) :
    Effect c (after cs) ((after cs).record (some (.work (.handing r) l))
      ((Activity.work (.handing r) l).step (after cs).store) others) := by
  refine effect_of_spares ?_ (fun b => ?_) (fun b hd => ?_) hactive
  · -- the end of a bracket takes its token from where the execution has its connection, if at all
    intro op hop
    have hop : ((f.withdrawal r (after cs).store).map fun x => (x.1, Connection.Operation.pop)) =
        some (some c, op) := by simpa [Activity.operation, Activity.withdrawal, hstack] using hop
    cases f with
    | endBracket g used =>
      obtain ⟨br, hbr, hlink⟩ := brackets_under cs _ l (.inl hcall) (.endBracket g used)
        (hstack ▸ .head _) g rfl
      have hc : br.link = some c := by
        simp only [Frame.withdrawal, Store.bracketLink, hbr] at hop
        split at hop <;> simp_all
      obtain hlink | hlink := hlink
      · cases hc.symm.trans hlink
      · exact absurd (hlink.symm.trans hc) hother
    | _ => simp [Frame.withdrawal] at hop
  · -- only the end of a step decides something, that of a step under a connection that was drawn
    by_cases hspares : ∀ e ∈ (Activity.work (.handing r) l).edits (after cs).store, e.Spares b
    · exact .inl hspares
    obtain ⟨e, he, hdecides⟩ : ∃ e ∈ (Activity.work (.handing r) l).edits (after cs).store, ¬e.Spares b := by
      simpa using hspares
    cases Activity.makes_of_edits he with
    | @endStep i r l gs hl hends =>
      obtain rfl : i = b := Decidable.not_not.1 hdecides
      obtain ⟨st, c', hst, hlink, hdrawn'⟩ := drawn cs _ l (.inl hcall) i (by simp [Loop.flying, hl, Frame.flying])
      have hdoes := (Activity.work (.handing r) l).step_does (after cs).store
      simp only [Activity.edits, hl, List.head?_cons, Option.map_some, Option.getD_some, Frame.edits,
        hends, if_true] at hdoes
      refine .inr ⟨?_, (hdoes.settled_step hst).owes_eq_none c⟩
      have hc : st.link ≠ some c := fun hc => hdrawn (by cases hlink.symm.trans hc; exact hdrawn')
      rw [Store.owes, Store.step?_eq_some.1 hst]
      simp [Keeper.owes, hc]
    | releases | released => exact absurd trivial hdecides
  · obtain ⟨e, r', ha, -⟩ := Activity.of_deal_acquires hd
    cases ha

/-- A loop under another connection that looks at a node. -/
theorem effect_of_looking {S : Session} {n : Node} {l : Loop}
    (hc : S.store.isCancelled l.link = false) (hlink : l.link ≠ some c)
    (hmeddles : ¬(Activity.work (.looking n) l).Meddles c)
    (hactive : ((Activity.work (.looking n) l).step S.store).1.isCancelled (some c) = false) :
    Effect c S (S.record (some (.work (.looking n) l))
      ((Activity.work (.looking n) l).step S.store) others) := by
  refine effect_of_spares (fun op hop => ?_) (fun b => .inl ?_) (fun b hd => ?_) hactive
  · have hop : n.operation l.link S.store = some (some c, op) := by
      simpa only [Activity.operation, hc, Bool.false_eq_true, if_false] using hop
    cases op with
    | push t =>
      obtain ⟨-, hnone⟩ | ⟨-, -, x, -, ⟨hnone, -⟩ | ⟨t', ht, -⟩⟩ := n.step_pledges hc l.id
      · exact absurd hop (hnone _ _)
      · cases hnone.symm.trans hop
      · exact absurd (Prod.ext_iff.1 (Option.some.inj (ht.symm.trans hop))).1 hlink
    | pop => exact absurd (Node.of_operation_pop hop) hmeddles
    | cancel => rfl
  · -- looking at a node decides nothing
    intro e' he'
    cases Activity.makes_of_edits he' <;> trivial
  · obtain ⟨e, r', ha, -⟩ := Activity.of_deal_acquires hd
    cases ha

/-- Until its acquisition has ended, a bracket is open and has its token. -/
theorem awaits_of_acquired {e : ExecutionId} {g : BracketId}
    (hcall : .deliver e (.acquired g) r ∈ (after cs).calls)
    (hlink : (after cs).store.bracketLink g = some c) :
    (after cs).Awaits c g ∧ (after cs).owed c g = [.bracket g] := by
  obtain ⟨xs, ys, hS⟩ := List.append_of_mem hcall
  have hd : (Activity.deliver e (.acquired g) r).deal g (after cs).store = .acquires r.isOk := by
    simp [Activity.deal, Sink.deal]
  obtain ⟨htrue, hfalse, -⟩ := acquiring hS hd
  obtain ⟨br, hbr, hbrlink⟩ := Option.bind_eq_some_iff.1 hlink
  exact ⟨.acquires br hbr hbrlink fun ok => by cases ok <;> assumption, by simp [owed, hbr, hbrlink, hfalse]⟩

/-- The acquisition of a bracket ends. -/
theorem effect_of_acquired {e : ExecutionId} {g : BracketId}
    (hcall : .deliver e (.acquired g) r ∈ (after cs).calls)
    (hactive : ((Activity.deliver e (.acquired g) r).step (after cs).store).1.isCancelled (some c) = false) :
    Effect c (after cs) ((after cs).record (some (.deliver e (.acquired g) r))
      ((Activity.deliver e (.acquired g) r).step (after cs).store) others) := by
  have hspares : ∀ b, ∀ e' ∈ (Activity.deliver e (.acquired g) r).edits (after cs).store,
      e'.Spares b := fun b e' he' => by cases Activity.makes_of_edits he' <;> trivial
  have hdeal : ∀ b, (Activity.deliver e (.acquired g) r).deal b (after cs).store = .acquires false →
      b = g ∧ r.isOk = false := fun b hd => by
    obtain ⟨e', r', ha, hr⟩ := Activity.of_deal_acquires hd
    cases ha
    exact ⟨rfl, hr⟩
  have hop : (Activity.deliver e (.acquired g) r).operation (after cs).store =
      if r.isOk then none else some ((after cs).store.bracketLink g, .pop) := by
    cases r <;> rfl
  by_cases hfails : r.isOk = false ∧ (after cs).store.bracketLink g = some c
  · obtain ⟨hr, hlink⟩ := hfails
    rw [hr, hlink] at hop
    have hd : (Activity.deliver e (.acquired g) r).deal g (after cs).store = .acquires false := by
      simp [Activity.deal, Sink.deal, hr]
    obtain ⟨hawaits, howed⟩ := awaits_of_acquired hcall hlink
    obtain ⟨br, hbr, -⟩ := Option.bind_eq_some_iff.1 hlink
    obtain ⟨br', hbr', -⟩ := (Activity.step_grows (.deliver e (.acquired g) r) _).bracket g br hbr
    have hoperates := hop ▸ Activity.step_operates (.deliver e (.acquired g) r) (after cs).store
    refine .returns g (.bracket g) hawaits howed hoperates.tokens_of_pop ?_
    have hpos : (Session.record (after cs) (some (.deliver e (.acquired g) r))
        ((Activity.deliver e (.acquired g) r).step (after cs).store) others).deals g (.acquires false) ≠ 0 := by
      rw [deals_call, if_pos hd]
      omega
    simp only [owed, record_store, hbr', hpos, and_false, if_false]
  · refine effect_of_spares (fun op hx => ?_) (fun b => .inl (hspares b)) (fun b hd => ?_) hactive
    · rw [hop] at hx
      split at hx
      · cases hx
      · refine absurd ⟨?_, ?_⟩ hfails
        · simpa using ‹¬r.isOk = true›
        · exact (Prod.ext_iff.1 (Option.some.inj hx)).1
    · obtain ⟨rfl, hr⟩ := hdeal b hd
      exact fun hlink => hfails ⟨hr, hlink⟩

/-- No deal but one at the end of an acquisition is about its failure. -/
theorem deal_ne {S : Session} (ha : ∀ e g r, a ≠ .deliver e (.acquired g) r) (b : BoundaryId) :
    a.deal b S.store ≠ .acquires false := fun hd => by
  obtain ⟨e, r', rfl, -⟩ := Activity.of_deal_acquires hd
  exact ha e b r' rfl

/-- One side of a fork ends. -/
theorem effect_of_side {S : Session} {e : ExecutionId} {k : ForkId} {side : Side}
    (hactive : ((Activity.deliver e (.side k side) r).step S.store).1.isCancelled (some c) = false) :
    Effect c S (S.record (some (.deliver e (.side k side) r))
      ((Activity.deliver e (.side k side) r).step S.store) others) := by
  have hdeal := deal_ne (S := S) (a := .deliver e (.side k side) r) (by simp)
  have hdoes := (Activity.deliver e (.side k side) r).step_does S.store
  cases hf : S.store.fork? k with
  | none =>
    refine effect_of_spares ?_ ?_ (fun b hd => absurd hd (hdeal b)) hactive
    · simp [Activity.operation, Activity.withdrawal, Sink.withdrawal, hf]
    · simp [Activity.edits, Sink.edits, hf]
  | some f =>
    by_cases hsettles : f.settles side r = true
    · have hopen : f.settled = false := by simpa using (Bool.and_eq_true_iff.1 hsettles).1
      have hedits : (Activity.deliver e (.side k side) r).edits S.store = [.endsFork k] := by
        simp [Activity.edits, Sink.edits, hf, Fork.edits, hsettles, hopen]
      have hop : (Activity.deliver e (.side k side) r).operation S.store = some (f.parent, .pop) := by
        simp [Activity.operation, Activity.withdrawal, Sink.withdrawal, hf, hsettles]
      refine effect_of_settles hop (fun b hb e' he' => ?_) (Store.owes_of_fork hf hopen) ((hedits ▸ hdoes).settled_fork hf)
        hdeal hactive
      rw [hedits] at he'
      rw [List.mem_singleton.1 he']
      exact Ne.symm hb
    · refine effect_of_spares ?_ (fun b => .inl fun e' he' => ?_) (fun b hd => absurd hd (hdeal b)) hactive
      · simp [Activity.operation, Activity.withdrawal, Sink.withdrawal, hf, hsettles]
      · simp only [Activity.edits, Sink.edits, hf, Option.map_some, Option.getD_some, Fork.edits,
          if_neg hsettles] at he'
        repeat' split at he'
        · exact (List.not_mem_nil he').elim
        · rw [List.mem_singleton.1 he']
          trivial
        · exact (List.not_mem_nil he').elim

/-- A step is completed. -/
theorem effect_of_complete {S : Session} {i : StepId} {source : Source}
    (hactive : ((Activity.complete (.step i source) r).step S.store).1.isCancelled (some c) = false) :
    Effect c S (S.record (some (.complete (.step i source) r))
      ((Activity.complete (.step i source) r).step S.store) others) := by
  have hdeal := deal_ne (S := S) (a := .complete (.step i source) r) (by simp)
  have hdoes := (Activity.complete (.step i source) r).step_does S.store
  by_cases hcompletes : ∃ st, S.store.step? i = some st ∧ st.live = true ∧ st.source = source
  · obtain ⟨st, hst, hlive, hsource⟩ := hcompletes
    have hedits : (Activity.complete (.step i source) r).edits S.store = [.endsStep i] := by
      simp [Activity.edits, Store.completesStep, hst, hlive, hsource]
    have hop : (Activity.complete (.step i source) r).operation S.store = some (st.link, .pop) := by
      simp [Activity.operation, Activity.withdrawal, hst, hlive, hsource]
    refine effect_of_settles hop (fun b hb e' he' => ?_) (Store.owes_of_step hst hlive) ((hedits ▸ hdoes).settled_step hst)
      hdeal hactive
    rw [hedits] at he'
    rw [List.mem_singleton.1 he']
    exact Ne.symm hb
  · have hnever : S.store.completesStep i source = false := by
      cases hst : S.store.step? i with
      | none => simp [Store.completesStep, hst]
      | some st => simpa [Store.completesStep, hst] using fun hlive hsource =>
          hcompletes ⟨st, hst, hlive, hsource⟩
    refine effect_of_spares ?_ ?_ (fun b hd => absurd hd (hdeal b)) hactive
    · cases hst : S.store.step? i with
      | none => simp [Activity.operation, Activity.withdrawal, hst]
      | some st =>
        have hst' : ¬(st.live = true ∧ st.source = source) := fun h => hcompletes ⟨st, hst, h⟩
        simp [Activity.operation, Activity.withdrawal, hst, hst']
    · simp [Activity.edits, hnever]

/-- One fiber of a duel has published its outcome. -/
theorem effect_of_duel {S : Session} {f : FiberId} {k : DuelId} {side : Side} {o : Outcome Value}
    (hactive : ((Activity.notify f (.duel k side) o).step S.store).1.isCancelled (some c) = false) :
    Effect c S (S.record (some (.notify f (.duel k side) o))
      ((Activity.notify f (.duel k side) o).step S.store) others) := by
  have hdeal := deal_ne (S := S) (a := .notify f (.duel k side) o) (by simp)
  have hdoes := (Activity.notify f (.duel k side) o).step_does S.store
  by_cases hsettles : ∃ d, S.store.duel? k = some d ∧ d.settled = false
  · obtain ⟨d, hd, hopen⟩ := hsettles
    have hedits : (Activity.notify f (.duel k side) o).edits S.store = [.endsDuel k] := by
      simp [Activity.edits, hd, hopen]
    have hop : (Activity.notify f (.duel k side) o).operation S.store = some (d.parent, .pop) := by
      simp [Activity.operation, Activity.withdrawal, hd, hopen]
    refine effect_of_settles hop (fun b hb e' he' => ?_) (Store.owes_of_duel hd hopen) ((hedits ▸ hdoes).settled_duel hd)
      hdeal hactive
    rw [hedits] at he'
    rw [List.mem_singleton.1 he']
    exact Ne.symm hb
  · refine effect_of_spares ?_ ?_ (fun b hd => absurd hd (hdeal b)) hactive
    · cases hd : S.store.duel? k with
      | none => simp [Activity.operation, Activity.withdrawal, hd]
      | some d =>
        have hd' : d.settled = true := by simpa using fun h => hsettles ⟨d, hd, h⟩
        simp [Activity.operation, Activity.withdrawal, hd, hd']
    · cases hd : S.store.duel? k with
      | none => simp [Activity.edits, hd]
      | some d =>
        have hd' : d.settled = true := by simpa using fun h => hsettles ⟨d, hd, h⟩
        simp [Activity.edits, hd, hd']

/-- The token of a duel whose fibers are tied together. -/
theorem owes_of_tie {left right : FiberId} {parent : Link} {k : DuelId}
    (hcall : .tie left right parent k ∈ (after cs).calls) (c : ConnectionId) :
    ((Activity.tie left right parent k).step (after cs).store).1.owes c k =
      if parent = some c then some (.fibers left right) else none := by
  have hk : (after cs).store.boundaries.keepers[k]? = some (.duel none) := duel_of_tie hcall
  rw [Store.owes, (Activity.step_does _ _).keeper?]
  simp [Activity.edits, Edit.apply, Array.getElem?_modify, hk, Keeper.mapDuel, Keeper.owes]

/-- The fibers of a duel are tied together. -/
theorem effect_of_tie {left right : FiberId} {parent : Link} {k : DuelId}
    (hcall : .tie left right parent k ∈ (after cs).calls)
    (hactive : ((Activity.tie left right parent k).step (after cs).store).1.isCancelled (some c) = false) :
    Effect c (after cs) ((after cs).record (some (.tie left right parent k))
      ((Activity.tie left right parent k).step (after cs).store) others) := by
  have hnone := duel_of_tie hcall
  have howes := owes_of_tie hcall c
  by_cases hparent : parent = some c
  · subst hparent
    have hactive' : (after cs).store.isCancelled (some c) = false := by
      rw [← Bool.not_eq_true] at hactive ⊢
      exact fun hc => hactive ((Activity.step_grows _ _).cancelled _ hc)
    exact .pledges k (.fibers left right)
      (.ties (List.mem_flatMap.2 ⟨_, hcall, .head _⟩))
      (owed_of_not_pledges hnone (by simp [Keeper.Pledges, Keeper.owes]))
      ((Activity.step_operates (.tie left right (some c) k) _).tokens_of_push hactive')
      (owed_of_owes (by rw [record_store, howes, if_pos rfl]))
  · refine effect_of_spares (fun op hx => ?_) (fun b => ?_) (fun b hd => absurd hd (deal_ne (by simp) b))
      hactive
    · simp only [Activity.operation, Option.some.injEq, Prod.mk.injEq] at hx
      exact absurd hx.1 hparent
    · by_cases hb : k = b
      · subst hb
        refine .inr ⟨?_, by rw [howes, if_neg hparent]⟩
        rw [Store.owes, hnone]
        rfl
      · refine .inl fun e he => ?_
        rw [List.mem_singleton.1 he]
        exact hb

/-- **A call does nothing to the tokens of a connection**, or takes back the newest one, that of an open
boundary, or pushes that of a duel whose fibers are being started, unless it is a turn of the execution
whose connection this is. -/
theorem effect {xs ys : List Activity} (hS : (after cs).calls = xs ++ a :: ys) (hmeddles : ¬a.Meddles c)
    (hdrawn : ¬(after cs).Drawn c)
    (hactive : (a.step (after cs).store).1.isCancelled (some c) = false)
    (hother : ∀ s l t fs, a = .work s l → l.Takes (after cs).store s t fs →
      l.link.under l.stack ≠ some c) :
    Effect c (after cs) ((after cs).record (some a) (a.step (after cs).store) (xs ++ ys)) := by
  have hcall : a ∈ (after cs).calls := hS ▸ List.mem_append_right _ (.head _)
  have hcode : ∀ {α : Type} {x : Code Prog α}, a.operation (after cs).store = x.operation (after cs).store →
      (x.Pushes c → a.Meddles c) → a.edits (after cs).store = [] →
      (∀ e g r, a ≠ .deliver e (.acquired g) r) →
      Effect c (after cs) ((after cs).record (some a) (a.step (after cs).store) (xs ++ ys)) := by
    intro α x hop hx hedits ha
    refine effect_of_spares (fun op hop' => ?_) (by simp [hedits]) (fun b hd => absurd hd (deal_ne ha b))
      hactive
    exact absurd (hx (Code.of_operation (hop.symm.trans hop')).1) hmeddles
  have hidle : a.operation (after cs).store = none → a.edits (after cs).store = [] →
      (∀ e g r, a ≠ .deliver e (.acquired g) r) →
      Effect c (after cs) ((after cs).record (some a) (a.step (after cs).store) (xs ++ ys)) := by
    intro hop hedits ha
    exact effect_of_spares (by simp [hop]) (by simp [hedits]) (fun b hd => absurd hd (deal_ne ha b)) hactive
  cases a with
  | work s l =>
    obtain ⟨n, rfl, hc, -⟩ | ⟨r, rfl, hstack, -⟩ | ⟨t, fs, ht⟩ | ⟨b, rfl⟩ := l.step_takes s (after cs).store
    · exact hidle (by simp [Activity.operation, hc]) (by simp [Activity.edits, hc]) (by simp)
    · exact hidle (by simp [Activity.operation, Activity.withdrawal, hstack])
        (by simp [Activity.edits, hstack]) (by simp)
    · have hunder := hother s l t fs rfl ht
      cases ht with
      | looking n hc =>
        refine effect_of_looking hc (fun hlink => ?_) hmeddles hactive
        obtain hnone | hlink' := (fits_of_has (.inl hcall)).link_cases
        · cases hlink.symm.trans hnone
        · exact hunder (hlink'.symm.trans hlink)
      | handing r f fs hstack => exact effect_of_handing hcall hstack hunder hdrawn hactive
      | delaying x => exact hcode rfl id rfl (by simp)
      | suspending x => exact hcode rfl id rfl (by simp)
      | mapping x => exact hcode rfl id rfl (by simp)
    · exact hidle rfl rfl (by simp)
  | registering x b => exact hcode rfl id rfl (by simp)
  | registeringStep x i => exact hcode rfl id rfl (by simp)
  | calling x i => exact hcode rfl id rfl (by simp)
  | fillSlot i x =>
    refine effect_of_spares (by simp [Activity.operation, Activity.withdrawal]) (fun b => .inl fun e he => ?_)
      (fun b hd => absurd hd (deal_ne (by simp) b)) hactive
    cases Activity.makes_of_edits he
    trivial
  | deliver e k r =>
    cases k with
    | acquired g => exact effect_of_acquired hcall hactive
    | side k side => exact effect_of_side hactive
    | _ => exact hidle rfl rfl (by simp)
  | complete x r =>
    cases x with
    | step i source => exact effect_of_complete hactive
    | _ => exact hidle rfl rfl (by simp)
  | notify f x o =>
    cases x with
    | step i => exact hidle rfl rfl (by simp)
    | duel k side => exact effect_of_duel hactive
  | tie left right parent k => exact effect_of_tie hcall hactive
  | _ => exact hidle rfl rfl (by simp)

/-- A boundary is open on a connection if it was before, or if a loop with this connection has opened it
and comes there next. -/
theorem awaits_call {xs ys : List Activity} (hS : (after cs).calls = xs ++ a :: ys)
    (h : ((after cs).record (some a) (a.step (after cs).store) (xs ++ ys)).Awaits c b) :
    (after cs).Awaits c b ∨ ∃ n l, a = .work (.looking n) l ∧
      (after cs).store.isCancelled l.link = false ∧ l.link = some c ∧
        (n.step l.id l.link (after cs).store).stage = .leaving b := by
  have hcall : a ∈ (after cs).calls := hS ▸ List.mem_append_right _ (.head _)
  -- a new boundary that has a token on the connection was opened by such a loop
  have hnew : (after cs).store.keeper? b = none → ∀ x, (a.step (after cs).store).1.keeper? b = some x →
      ∀ t, x.Pledges c b t → ∃ n l, a = .work (.looking n) l ∧
        (after cs).store.isCancelled l.link = false ∧ l.link = some c ∧
          (n.step l.id l.link (after cs).store).stage = .leaving b := by
    intro hnone x hx t ht
    obtain ⟨n, l, rfl, hc, rfl, hstage, hx'⟩ := Activity.of_new_keeper hnone hx
    refine ⟨n, l, rfl, hc, ?_, hstage⟩
    obtain ⟨hstays, -⟩ | ⟨-, -, y, hy, ⟨-, hnever⟩ | ⟨t', -, hpledges⟩⟩ := n.step_pledges hc l.id
    · exact absurd hstage (hstays _)
    · cases hy.symm.trans hx'
      exact absurd ht (hnever c t)
    · cases hy.symm.trans hx'
      exact ((hpledges c t).1 ht).1
  cases h with
  | owes t ht =>
    obtain ⟨x, hx, hxt⟩ := Option.bind_eq_some_iff.1 ht
    cases hb : (after cs).store.keeper? b with
    | none => exact .inr (hnew hb x hx t (.inl hxt))
    | some y =>
      refine .inl ?_
      by_cases htie : ∃ left right parent, a = .tie left right parent b
      · obtain ⟨left, right, parent, rfl⟩ := htie
        have hparent : parent = some c := by
          have howes := (owes_of_tie hcall c).symm.trans ht
          split at howes
          · assumption
          · cases howes
        subst hparent
        exact .ties (List.mem_flatMap.2 ⟨_, hcall, .head _⟩)
      · have hedits : ∀ e ∈ a.edits (after cs).store, ∀ d, e ≠ .ties b d := by
          rintro e he d rfl
          obtain ⟨left, right, parent, rfl⟩ := Activity.of_edit_ties he
          exact htie ⟨left, right, parent, rfl⟩
        have hlt := (Array.getElem?_eq_some_iff.1 hb).1
        rw [record_store, Store.owes, (a.step_does _).keeper?] at ht
        obtain hsame | hnone := Edit.owes_foldl_or hedits hlt c
        · exact .owes t (hsame.symm.trans ht)
        · cases hnone.symm.trans ht
  | acquires br hbr hlink hnever =>
    have hx : (a.step (after cs).store).1.keeper? b = some (.bracket br) := Store.bracket?_eq_some.1 hbr
    cases hb : (after cs).store.keeper? b with
    | none => exact .inr (hnew hb _ hx _ (.inr ⟨rfl, br, rfl, hlink⟩))
    | some y =>
      obtain ⟨y', hy', hgrows⟩ := (a.step_grows (after cs).store).keeper b y hb
      cases hy'.symm.trans hx
      cases y with
      | bracket br' =>
        refine .inl (.acquires br' (Store.bracket?_eq_some.2 hb) (hgrows.link.symm.trans hlink) fun ok => ?_)
        have hzero := hnever ok
        rw [deals_call] at hzero
        exact Nat.eq_zero_of_add_eq_zero_right hzero
      | _ => exact hgrows.elim
  | ties h =>
    rw [matters_call] at h
    obtain hfollows | hold := List.mem_append.1 h
    · obtain ⟨left, q, on, rfl⟩ | ⟨rfl, p, q, on, l, rfl, hlink, hc⟩ := a.matters_follow _ _ hfollows
      · exact .inl (.ties (List.mem_flatMap.2 ⟨_, hcall, .head _⟩))
      · exact .inr ⟨_, l, rfl, hc, hlink, rfl⟩
    · obtain ⟨a', ha', hm⟩ := List.mem_flatMap.1 hold
      refine .inl (.ties (List.mem_flatMap.2 ⟨a', ?_, hm⟩))
      rw [hS]
      simp only [List.mem_append, List.mem_cons] at ha' ⊢
      exact ha'.imp_right .inr

/-- Whoever takes back a token is the end of a bracket, or acts on a boundary that is open and has
this token. -/
theorem of_withdrawal {t : Token} (hcall : a ∈ (after cs).calls)
    (h : a.withdrawal (after cs).store = some (some c, t)) :
    (∃ b, (after cs).Awaits c b ∧ (after cs).owed c b = [t]) ∨
      ∃ v l g used fs, a = .work (.handing (.ok v)) l ∧ l.stack = .endBracket g used :: fs ∧
        (after cs).store.bracketLink g = some c ∧ t = .bracket g := by
  have howes : ∀ {b}, (after cs).store.owes c b = some t →
      ∃ b, (after cs).Awaits c b ∧ (after cs).owed c b = [t] := fun h =>
    ⟨_, .owes t h, owed_of_owes h⟩
  cases a with
  | work s l =>
    refine .inr ?_
    cases s with
    | handing r =>
      obtain ⟨f, hf, h⟩ := Option.bind_eq_some_iff.1 h
      obtain ⟨fs, hstack⟩ := List.head?_eq_some_iff.1 hf
      cases f with
      | endBracket g used =>
        cases r with
        | ok v =>
          simp only [Frame.withdrawal, Except.isOk, Except.toBool, if_true, Option.some.injEq,
            Prod.mk.injEq] at h
          exact ⟨v, l, g, used, fs, rfl, hstack, h.1, h.2.symm⟩
        | error e => cases h
      | _ => cases h
    | _ => cases h
  | deliver e k r =>
    refine .inl ?_
    cases k with
    | acquired g =>
      simp only [Activity.withdrawal, Sink.withdrawal, Option.ite_none_left_eq_some, Option.some.injEq,
        Prod.mk.injEq] at h
      obtain ⟨-, hlink, rfl⟩ := h
      exact ⟨g, awaits_of_acquired hcall hlink⟩
    | side k side =>
      obtain ⟨f, hf, h⟩ := Option.bind_eq_some_iff.1 h
      split at h
      · rename_i hsettles
        have hopen : f.settled = false := by simpa using (Bool.and_eq_true_iff.1 hsettles).1
        simp only [Option.some.injEq, Prod.mk.injEq] at h
        exact howes (by rw [Store.owes_of_fork hf hopen, if_pos h.1, h.2])
      · cases h
    | _ => cases h
  | complete x r =>
    refine .inl ?_
    cases x with
    | step i source =>
      obtain ⟨st, hst, h⟩ := Option.bind_eq_some_iff.1 h
      split at h
      · rename_i hlive
        simp only [Option.some.injEq, Prod.mk.injEq] at h
        exact howes (by rw [Store.owes_of_step hst hlive.1, if_pos h.1, h.2])
      · cases h
    | _ => cases h
  | notify f x o =>
    refine .inl ?_
    cases x with
    | duel k side =>
      obtain ⟨d, hd, h⟩ := Option.bind_eq_some_iff.1 h
      split at h
      · cases h
      · rename_i hopen
        simp only [Option.some.injEq, Prod.mk.injEq] at h
        exact howes (by rw [Store.owes_of_duel hd (by simpa using hopen), if_pos h.1, h.2])
    | step i => cases h
  | _ => cases h

end Effect

end Session

end CancelableEffects
