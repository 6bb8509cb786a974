import CancelableEffects.Proofs.Sweeps

/-!
# Cancellations — the effect that takes the tokens of a connection waits for all of their brackets

* `Loop.Cancels`: a loop takes the tokens of a connection to cancel it.
* `Session.AllServed`: the brackets of some tokens are over, and their tokens were used up.
* **`Session.cancelling`**: until all brackets whose tokens it took are over, the loop runs the rest
  of the cancellation above the stack that it had.
* **`Session.cancelling_stays`**: it is not interrupted meanwhile, unless its own connection was
  cancelled before it came to the first token.
-/

namespace CancelableEffects

/-! ## A cancellation in progress -/

/-- The loop at this stage cancels the connection `c`, which was active, and takes its tokens. -/
structure Loop.Cancels (σ : Store) (c : ConnectionId) (ts : List Token) (s : Stage) (l : Loop) :
    Prop where
  stage : s = .looking (.token (.connection (some c)))
  goesOn : σ.isCancelled l.link = false
  taken : (σ.cancel (some c)).2 = some ts

/-- The brackets with a token on the connection are those among the tokens that it takes. -/
theorem Loop.Cancels.mem_armed {σ : Store} {c : ConnectionId} {ts : List Token} {s : Stage} {l : Loop}
    (h : l.Cancels σ c ts s) {g : BracketId} : g ∈ σ.armed c ↔ .bracket g ∈ ts := by
  rw [← Store.armed_of_cancel h.taken, List.mem_filterMap]
  refine ⟨fun ⟨t, ht, hg⟩ => ?_, fun hg => ⟨_, hg, rfl⟩⟩
  cases t with
  | bracket g' =>
    cases hg
    exact ht
  | _ => cases hg

theorem Loop.Cancels.active {σ : Store} {c : ConnectionId} {ts : List Token} {s : Stage} {l : Loop}
    (h : l.Cancels σ c ts s) : σ.isCancelled (some c) = false := by
  have htaken := h.taken
  simp only [Store.cancel, Store.connection?, Option.bind_some] at htaken
  simp only [Store.isCancelled]
  cases hc : σ.connections[c]? with
  | none => rfl
  | some conn =>
    cases conn with
    | active ts => rfl
    | cancelled => simp [hc, Connection.cancel] at htaken

/-- The token of the bracket was used up, and its gate is open. -/
def Session.Served (g : BracketId) (S : Session) : Prop := 0 < S.spent g ∧ S.store.Over g

/-- All brackets with a token in the list have been served. -/
def Session.AllServed (S : Session) (ts : List Token) : Prop := ∀ g, .bracket g ∈ ts → S.Served g

section Served

variable {S : Session} {call : Option Activity} {next : Next} {others : List Activity}
  {c : ConnectionId} {ts : List Token} {s : Stage} {l₀ l : Loop}

theorem Session.AllServed.record (h : S.AllServed ts) (hgrows : S.store.Grows next.1) :
    (S.record call next others).AllServed ts := fun g hg =>
  ⟨Nat.lt_of_lt_of_le (h g hg).1 spent_le_record, (h g hg).2.grows hgrows⟩

theorem Session.AllServed.step (h : S.AllServed ts) (x : Choice) : (S.step x).AllServed ts := by
  obtain hx | ⟨call, next, others, hx, hgrows⟩ := S.step_eq x <;> rw [hx]
  · exact h
  · exact h.record hgrows

theorem Session.AllServed.snoc {t : Token} (h : S.AllServed ts)
    (ht : ∀ g, t = .bracket g → S.Served g) : S.AllServed (ts ++ [t]) := by
  intro g hg
  obtain hg | hg := List.mem_append.1 hg
  · exact h g hg
  · exact ht g (List.mem_singleton.1 hg).symm

/-- A turn of the loop keeps the account of its cancellation. -/
theorem Sweeping.cancels {t : Turn} {fs : List Frame} {calls : List Activity}
    (h : Sweeping S.AllServed (some c) ts l₀ s l) (ht : l.Takes S.store s t fs)
    (htends : l.Tends S s) :
    Sweeping (S.record call (t.store, calls) others).AllServed (some c) ts l₀ t.stage
      (t.loop l fs) := by
  have hgrows : S.store.Grows (t.store, calls).1 := ht.grows
  refine h.turn ht (fun _ h => h.record hgrows) (fun g hg => (List.not_mem_nil hg).elim) ?_
  rintro done token rest first enclosing r rfl hstack hdone
  refine (hdone.snoc ?_).record hgrows
  rintro g rfl
  obtain ⟨-, htending, hused⟩ := htends [] c g rest first _ hstack
  exact ⟨hused.resolve_left (fun h => nomatch h.1), htending.over_of_handing⟩

end Served

namespace Session

variable {cs₀ : List Choice} {place : Nat} {c : ConnectionId} {ts : List Token} {s₀ : Stage}
  {l₀ : Loop}

theorem step_of_cancels (hcancels : l₀.Cancels (after cs₀).store c ts s₀) :
    l₀.step s₀ (after cs₀).store =
      (((after cs₀).store.cancel (some c)).1, [.work (.looking (.sweep (some c) ts)) l₀]) := by
  obtain ⟨rfl, hc, htaken⟩ := hcancels
  rw [l₀.step_of_not_cancelled hc]
  simp only [Node.step, Token.begin]
  generalize (after cs₀).store.cancel (some c) = x at htaken ⊢
  obtain ⟨σ, taken⟩ := x
  subst htaken
  rfl

/-- After the step in which a loop cancels a connection it is about to run the tokens. -/
theorem work_of_cancels (hcall : (after cs₀).calls[place]? = some (.work s₀ l₀))
    (hcancels : l₀.Cancels (after cs₀).store c ts s₀) :
    .work (.looking (.sweep (some c) ts)) l₀ ∈ (after (.call place :: cs₀)).calls := by
  change _ ∈ ((after cs₀).step (.call place)).calls
  simp only [step, hcall, record_calls, Activity.step, step_of_cancels hcancels]
  exact List.mem_cons_self

/-- From then on the connection is cancelled. -/
theorem isCancelled_of_cancels (hcall : (after cs₀).calls[place]? = some (.work s₀ l₀))
    (hcancels : l₀.Cancels (after cs₀).store c ts s₀) (cs : List Choice) :
    (after (cs ++ .call place :: cs₀)).store.isCancelled (some c) = true := by
  refine (after_grows _ cs).cancelled _ ?_
  change ((after cs₀).step (.call place)).store.isCancelled (some c) = true
  simp only [step, hcall, record_store, Activity.step, step_of_cancels hcancels]
  exact Store.isCancelled_cancel (Store.lt_of_cancel hcancels.taken)

/-- **A loop that cancels a connection runs the tokens that it took above the stack that it had**,
until all brackets among them are over. -/
theorem cancelling (hcall : (after cs₀).calls[place]? = some (.work s₀ l₀))
    (hcancels : l₀.Cancels (after cs₀).store c ts s₀) (cs : List Choice) (s : Stage) (l : Loop)
    (hl : (after (cs ++ .call place :: cs₀)).Has s l) (hid : l.id = l₀.id) :
    Sweeping (after (cs ++ .call place :: cs₀)).AllServed (some c) ts l₀ s l := by
  refine follow (P := fun S s l => Sweeping S.AllServed (some c) ts l₀ s l)
    (.inl (work_of_cancels hcall hcancels)) .takes ?_ ?_ ?_ cs s l hl hid
  · intro S call next others s l hgrows h
    exact h.imp fun _ h => h.record hgrows
  · intro cs s l t fs others hcalls hid h ht
    exact h.cancels ht (tends _ s l (.inl hcalls))
  · intro S b l r hripe h
    exact h.resumed r

/-- **A cancellation that has come to its first token is not interrupted** before all brackets are
over. Its loop can be stopped before that, when its own connection was cancelled, by itself or by
another one, and then nobody runs the tokens that it took. -/
theorem cancelling_stays (hcall : (after cs₀).calls[place]? = some (.work s₀ l₀))
    (hcancels : l₀.Cancels (after cs₀).store c ts s₀) (cs : List Choice) :
    (after (cs ++ .call place :: cs₀)).AllServed ts ∨
      (∃ s l, (after (cs ++ .call place :: cs₀)).Has s l ∧ l.id = l₀.id) ∨
      ∃ σ, σ.isCancelled l₀.link = true ∧
        ⟨some (.work (.looking (.sweep (some c) ts)) l₀), σ,
          σ, [.deliver l₀.id l₀.sink (.error .cancelled)]⟩ ∈
            (after (cs ++ .call place :: cs₀)).past := by
  induction cs with
  | nil => exact .inr (.inl ⟨_, l₀, .inl (work_of_cancels hcall hcancels), rfl⟩)
  | cons x cs ih =>
    obtain hserved | ⟨s, l, hl, hid⟩ | ⟨σ, hc, hm⟩ := ih
    · exact .inl (hserved.step x)
    · obtain ⟨s', l', hl', hid'⟩ | ⟨place', rfl, hcall', hends⟩ := has_next hl x
      · exact .inr (.inl ⟨s', l', hl', hid'.trans hid⟩)
      have hcancelling := cancelling hcall hcancels cs s l hl hid
      cases hcancelling with
      | takes =>
        obtain ⟨n, -, hc⟩ | ⟨r, hr, -⟩ := hends
        · refine .inr (.inr ⟨_, hc, (past_call hcall').symm ▸ ?_⟩)
          rw [Activity.step, Loop.step_of_cancelled hc]
          exact List.mem_cons_self
        · cases hr
      | runs s l above done rest t first enclosing hts hstack hdone =>
        have hlink : l.link = none :=
          (fits_of_has hl).link_eq_none (show Frame.restore enclosing ∈ l.stack by simp [hstack])
        obtain ⟨n, -, hc⟩ | ⟨r, -, hempty⟩ := hends
        · rw [hlink] at hc
          cases hc
        · simp [hempty] at hstack
      | ends s l hserved => exact .inl (hserved.step _)
    · exact .inr (.inr ⟨σ, hc, (past_suffix_step _ x).subset hm⟩)

end Session

end CancelableEffects
