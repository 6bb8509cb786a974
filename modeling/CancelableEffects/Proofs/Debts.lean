import CancelableEffects.Proofs.Keepers
import CancelableEffects.Proofs.Loops

/-!
# Debts — which token a boundary has on its connection, and until when

* `Keeper.owes`, `Store.owes`: the token of a step, a fork or a duel that has not been decided.
* `Keeper.Decided`, `Store.Decided`, `Store.Settled`: it has been decided, and is no bracket.
* `Next.Does.owes`: edits that decide nothing leave the tokens as they are.
* `Activity.step_decided`, `Activity.step_duel_none`: what was decided stays so, and a duel waits for
  its fibers until they are tied together.
* **`Activity.matters_follow`**: how a call comes up that completes a boundary.
* `Activity.step_ready`: a boundary is ready when it was completed.
-/

namespace CancelableEffects

/-! ## Keepers -/

/-- The keeper has been decided: the step was completed or cancelled, the fork or the duel is settled. -/
def Keeper.Decided : Keeper → Prop
  | .callback | .bracket _ => True
  | .step st => st.live = false
  | .fork f => f.settled = true
  | .duel d => ∃ x, d = some x ∧ x.settled = true

/-- The token that the keeper of the boundary `b`, other than a bracket, has on the connection. -/
def Keeper.owes (c : ConnectionId) (b : BoundaryId) : Keeper → Option Token
  | .step st => if st.link = some c ∧ st.live = true then some (.step b) else none
  | .fork f => if f.parent = some c ∧ f.settled = false then
      some (.connections (some f.left) (some f.right)) else none
  | .duel (some d) => if d.parent = some c ∧ d.settled = false then some (.fibers d.left d.right)
      else none
  | _ => none

theorem Keeper.Decided.owes_eq_none {x : Keeper} (h : x.Decided) (c : ConnectionId) (b : BoundaryId) :
    x.owes c b = none := by
  cases x with
  | step st => simp [owes, show st.live = false from h]
  | fork f => simp [owes, show f.settled = true from h]
  | duel d =>
    obtain ⟨d, rfl, hd⟩ := h
    simp [owes, hd]
  | _ => rfl

/-- Whatever the keepers are, the edit keeps the property of the keeper of a boundary. -/
def Edit.Keeps (P : BoundaryId → Keeper → Prop) (e : Edit) : Prop :=
  ∀ (xs : Array Keeper) (b : BoundaryId) (x : Keeper), xs[b]? = some x → P b x →
    ∃ x', (e.apply xs)[b]? = some x' ∧ P b x'

section Edits

variable {P : BoundaryId → Keeper → Prop} {c : ConnectionId}

theorem Edit.keeps_foldl {es : List Edit} (h : ∀ e ∈ es, e.Keeps P) {xs : Array Keeper}
    {b : BoundaryId} {x : Keeper} (hx : xs[b]? = some x) (hP : P b x) :
    ∃ x', (es.foldl Edit.apply xs)[b]? = some x' ∧ P b x' := by
  induction es generalizing xs x with
  | nil => exact ⟨x, hx, hP⟩
  | cons e es ih =>
    obtain ⟨he, hes⟩ := List.forall_mem_cons.1 h
    obtain ⟨x', hx', hP'⟩ := he xs b x hx hP
    exact ih hes hx' hP'

theorem Edit.getElem?_modify {xs : Array Keeper} {b b' : BoundaryId} {f : Keeper → Keeper}
    {x : Keeper} (hx : xs[b]? = some x) (hP : P b x) (h : b' = b → P b (f x)) :
    ∃ x', (xs.modify b' f)[b]? = some x' ∧ P b x' := by
  rw [Array.getElem?_modify]
  split
  · rename_i hb
    exact ⟨f x, by rw [hx]; rfl, h hb⟩
  · exact ⟨x, hx, hP⟩

/-- A keeper that was decided stays so, unless a duel begins anew. -/
theorem Edit.keeps_decided {e : Edit} {k : BoundaryId} (he : ∀ d, e ≠ .ties k d) :
    e.Keeps fun b x => b = k ∧ x.Decided := by
  rintro xs b x hx ⟨rfl, hdecided⟩
  have hmodify : ∀ (b' : BoundaryId) (f : Keeper → Keeper), (b' = b → (f x).Decided) →
      ∃ x', (xs.modify b' f)[b]? = some x' ∧ b = b ∧ x'.Decided := fun b' f hf =>
    getElem?_modify (P := fun b x => b = b ∧ x.Decided) hx ⟨rfl, hdecided⟩ fun hb => ⟨rfl, hf hb⟩
  cases e with
  | opens y =>
    obtain ⟨hlt, rfl⟩ := Array.getElem?_eq_some_iff.1 hx
    exact ⟨_, Array.getElem?_push_lt hlt, rfl, hdecided⟩
  | ties k d => exact hmodify _ _ fun hk => absurd (hk ▸ rfl) (he d)
  | value k side v => cases side <;> exact hmodify _ _ fun _ => by cases x <;> exact hdecided
  | endsStep s => exact hmodify _ _ fun _ => by cases x <;> first | exact hdecided | rfl
  | endsFork k => exact hmodify _ _ fun _ => by cases x <;> first | exact hdecided | rfl
  | endsDuel k =>
    refine hmodify _ _ fun _ => ?_
    cases x with
    | duel d =>
      obtain ⟨d, rfl, -⟩ := hdecided
      exact ⟨_, rfl, rfl⟩
    | _ => exact hdecided
  | _ => exact hmodify _ _ fun _ => by cases x <;> exact hdecided

/-- A duel whose fibers are not both there stays so until it is tied together. -/
theorem Edit.keeps_duel_none {e : Edit} {k : DuelId} (he : ∀ d, e ≠ .ties k d) :
    e.Keeps fun b x => b = k ∧ x = .duel none := by
  rintro xs b x hx ⟨rfl, rfl⟩
  have hmodify : ∀ (b' : BoundaryId) (f : Keeper → Keeper), (b' = b → f (.duel none) = .duel none) →
      ∃ x', (xs.modify b' f)[b]? = some x' ∧ b = b ∧ x' = .duel none := fun b' f hf =>
    getElem?_modify (P := fun b x => b = b ∧ x = .duel none) hx ⟨rfl, rfl⟩ fun hb => ⟨rfl, hf hb⟩
  cases e with
  | opens y =>
    obtain ⟨hlt, hx⟩ := Array.getElem?_eq_some_iff.1 hx
    exact ⟨_, Array.getElem?_push_lt hlt, rfl, hx⟩
  | ties k d => exact hmodify _ _ fun hk => absurd (hk ▸ rfl) (he d)
  | value k side v => cases side <;> exact hmodify _ _ fun _ => rfl
  | _ => exact hmodify _ _ fun _ => rfl

/-- The edit does not decide what completes the boundary, and does not begin its duel. -/
def Edit.Spares (b : BoundaryId) : Edit → Prop
  | .endsStep k | .endsFork k | .endsDuel k | .ties k _ => k ≠ b
  | _ => True

theorem Edit.size_le (e : Edit) (xs : Array Keeper) : xs.size ≤ (e.apply xs).size := by
  cases e with
  | value k side v => cases side <;> simp [Edit.apply]
  | _ => simp [Edit.apply]

theorem Edit.Spares.owes {e : Edit} {b : BoundaryId} (h : e.Spares b) {xs : Array Keeper}
    (hb : b < xs.size) (c : ConnectionId) :
    (e.apply xs)[b]?.bind (·.owes c b) = xs[b]?.bind (·.owes c b) := by
  have hmodify : ∀ (k : BoundaryId) (f : Keeper → Keeper), (k = b → ∀ x, (f x).owes c b = x.owes c b) →
      (xs.modify k f)[b]?.bind (·.owes c b) = xs[b]?.bind (·.owes c b) := by
    intro k f hf
    rw [Array.getElem?_modify]
    split
    · rename_i hk
      cases xs[b]? with
      | none => rfl
      | some x => exact hf hk x
    · rfl
  cases e with
  | opens y => rw [Edit.apply, Array.getElem?_push, if_neg (Nat.ne_of_lt hb)]
  | value k side v => cases side <;> exact hmodify _ _ fun _ x => by cases x <;> rfl
  | bracket g f => exact hmodify _ _ fun _ x => by cases x <;> rfl
  | slot s y => exact hmodify _ _ fun _ x => by cases x <;> rfl
  | _ => exact hmodify _ _ fun hk => absurd hk h

theorem Edit.owes_foldl {es : List Edit} {b : BoundaryId} (h : ∀ e ∈ es, e.Spares b)
    {xs : Array Keeper} (hb : b < xs.size) (c : ConnectionId) :
    (es.foldl Edit.apply xs)[b]?.bind (·.owes c b) = xs[b]?.bind (·.owes c b) := by
  induction es generalizing xs with
  | nil => rfl
  | cons e es ih =>
    obtain ⟨he, hes⟩ := List.forall_mem_cons.1 h
    rw [List.foldl_cons, ih hes (Nat.lt_of_lt_of_le hb (e.size_le xs)), he.owes hb]

/-- An edit that does not begin the duel of a boundary leaves it its token, or takes that away. -/
theorem Edit.owes_or {e : Edit} {b : BoundaryId} (he : ∀ d, e ≠ .ties b d) {xs : Array Keeper}
    (hb : b < xs.size) (c : ConnectionId) :
    (e.apply xs)[b]?.bind (·.owes c b) = xs[b]?.bind (·.owes c b) ∨
      (e.apply xs)[b]?.bind (·.owes c b) = none := by
  by_cases hspares : e.Spares b
  · exact .inl (hspares.owes hb c)
  have hmodify : ∀ f : Keeper → Keeper, (∀ x, (f x).owes c b = x.owes c b ∨ (f x).owes c b = none) →
      (xs.modify b f)[b]?.bind (·.owes c b) = xs[b]?.bind (·.owes c b) ∨
        (xs.modify b f)[b]?.bind (·.owes c b) = none := by
    intro f hf
    rw [Array.getElem?_modify, if_pos rfl, Array.getElem?_eq_getElem hb]
    exact hf _
  cases e with
  | ties k d => exact absurd rfl (Decidable.not_not.1 hspares ▸ he d)
  | endsStep k =>
    obtain rfl : k = b := Decidable.not_not.1 hspares
    exact hmodify _ fun x => by cases x <;> simp [Keeper.mapStep, Keeper.owes]
  | endsFork k =>
    obtain rfl : k = b := Decidable.not_not.1 hspares
    exact hmodify _ fun x => by cases x <;> simp [Keeper.mapFork, Keeper.owes]
  | endsDuel k =>
    obtain rfl : k = b := Decidable.not_not.1 hspares
    exact hmodify _ fun x => by
      cases x with
      | duel d => cases d <;> simp [Keeper.mapDuel, Keeper.owes]
      | _ => exact .inl rfl
  | _ => exact absurd trivial hspares

theorem Edit.owes_foldl_or {es : List Edit} {b : BoundaryId} (h : ∀ e ∈ es, ∀ d, e ≠ .ties b d)
    {xs : Array Keeper} (hb : b < xs.size) (c : ConnectionId) :
    (es.foldl Edit.apply xs)[b]?.bind (·.owes c b) = xs[b]?.bind (·.owes c b) ∨
      (es.foldl Edit.apply xs)[b]?.bind (·.owes c b) = none := by
  induction es generalizing xs with
  | nil => exact .inl rfl
  | cons e es ih =>
    obtain ⟨he, hes⟩ := List.forall_mem_cons.1 h
    obtain hsame | hnone := ih hes (Nat.lt_of_lt_of_le hb (e.size_le xs))
    · rw [List.foldl_cons, hsame]
      exact Edit.owes_or he hb c
    · exact .inr hnone

end Edits

/-! ## Stores -/

/-- The boundary is there and has been decided. -/
def Store.Decided (b : BoundaryId) (σ : Store) : Prop := ∃ x, σ.keeper? b = some x ∧ x.Decided

/-- The token that the keeper of the boundary, other than a bracket, has on the connection. -/
def Store.owes (c : ConnectionId) (b : BoundaryId) (σ : Store) : Option Token :=
  (σ.keeper? b).bind (·.owes c b)

theorem Store.Decided.owes_eq_none {σ : Store} {b : BoundaryId} (h : σ.Decided b) (c : ConnectionId) :
    σ.owes c b = none := by
  obtain ⟨x, hx, hdecided⟩ := h
  simp [owes, hx, hdecided.owes_eq_none c b]

section Does

variable {σ : Store} {next : Next} {es : List Edit} {ms : List Matter} {c : ConnectionId}

theorem Next.Does.keeper? (h : next.Does σ es ms) (b : BoundaryId) :
    next.1.keeper? b = (es.foldl Edit.apply σ.boundaries.keepers)[b]? := by
  rw [Store.keeper?, h.keepers]

theorem Next.Does.keeps {P : BoundaryId → Keeper → Prop} (h : next.Does σ es ms)
    (hes : ∀ e ∈ es, e.Keeps P) {b : BoundaryId} {x : Keeper} (hx : σ.keeper? b = some x)
    (hP : P b x) : ∃ x', next.1.keeper? b = some x' ∧ P b x' := by
  rw [h.keeper?]
  exact Edit.keeps_foldl hes hx hP

theorem Next.Does.owes (h : next.Does σ es ms) {b : BoundaryId} (hes : ∀ e ∈ es, e.Spares b)
    (hb : b < σ.boundaries.size) (c : ConnectionId) : next.1.owes c b = σ.owes c b := by
  rw [Store.owes, h.keeper?]
  exact Edit.owes_foldl hes (σ.boundaries.aligned ▸ hb) c

end Does

/-- The duel that the edit is about. -/
def Edit.duel? : Edit → Option DuelId
  | .endsDuel k | .ties k _ => some k
  | _ => none

/-- Only the call that ties a duel together, or tells it the outcome of a fiber, changes it. -/
theorem Activity.of_edit_duel {a : Activity} {σ : Store} {e : Edit} {k : DuelId} (h : e ∈ a.edits σ)
    (hk : e.duel? = some k) :
    (∃ left right parent, a = .tie left right parent k ∧ e = .ties k { parent, left, right }) ∨
      ∃ f x o d, a = .notify f (.duel k x) o ∧ σ.duel? k = some d ∧ d.settled = false ∧
        e = .endsDuel k := by
  cases a.makes_of_edits h with
  | endsDuel f x o hd hopen =>
    cases hk
    exact .inr ⟨f, x, o, _, rfl, hd, hopen, rfl⟩
  | ties left right parent k' =>
    cases hk
    exact .inl ⟨left, right, parent, rfl, rfl⟩
  | _ => cases hk

/-- Only the call that ties a duel together begins it anew. -/
theorem Activity.of_edit_ties {a : Activity} {σ : Store} {k : DuelId} {d : Duel}
    (h : .ties k d ∈ a.edits σ) : ∃ left right parent, a = .tie left right parent k := by
  obtain ⟨left, right, parent, rfl, -⟩ | ⟨-, -, -, -, -, -, -, heq⟩ := Activity.of_edit_duel h rfl
  · exact ⟨left, right, parent, rfl⟩
  · cases heq

/-- A boundary that was decided stays so, unless a duel begins anew there. -/
theorem Activity.step_decided {a : Activity} {σ : Store} {b : BoundaryId}
    (ha : ∀ left right parent, a ≠ .tie left right parent b) (h : σ.Decided b) :
    (a.step σ).1.Decided b := by
  obtain ⟨x, hx, hdecided⟩ := h
  have hes : ∀ e ∈ a.edits σ, e.Keeps fun b' x => b' = b ∧ x.Decided := by
    intro e he
    refine Edit.keeps_decided ?_
    rintro d rfl
    obtain ⟨left, right, parent, rfl⟩ := Activity.of_edit_ties he
    exact ha left right parent rfl
  obtain ⟨x', hx', -, hdecided'⟩ := (a.step_does σ).keeps hes hx ⟨rfl, hdecided⟩
  exact ⟨x', hx', hdecided'⟩

/-- A duel whose fibers are not both there stays so until it is tied together. -/
theorem Activity.step_duel_none {a : Activity} {σ : Store} {k : DuelId}
    (ha : ∀ left right parent, a ≠ .tie left right parent k) (h : σ.keeper? k = some (.duel none)) :
    (a.step σ).1.keeper? k = some (.duel none) := by
  have hes : ∀ e ∈ a.edits σ, e.Keeps fun b x => b = k ∧ x = .duel none := by
    intro e he
    refine Edit.keeps_duel_none ?_
    rintro d rfl
    obtain ⟨left, right, parent, rfl⟩ := Activity.of_edit_ties he
    exact ha left right parent rfl
  obtain ⟨x', hx', -, rfl⟩ := (a.step_does σ).keeps hes h ⟨rfl, rfl⟩
  exact hx'

/-! ## Tokens that are pushed -/

/-- The token `t` is that of the new boundary `b`, whose keeper is `x`. -/
def Keeper.Pledges (x : Keeper) (c : ConnectionId) (b : BoundaryId) (t : Token) : Prop :=
  x.owes c b = some t ∨ t = .bracket b ∧ ∃ br, x = .bracket br ∧ br.link = some c

theorem Keeper.Pledges.of_step {x : Keeper} {c : ConnectionId} {b : BoundaryId} {s : StepId}
    (h : x.Pledges c b (.step s)) : s = b ∧ ∃ st, x = .step st ∧ st.link = some c := by
  obtain h | ⟨h, -⟩ := h
  · cases x with
    | step st =>
      simp only [Keeper.owes] at h
      split at h
      · rename_i hlink
        cases h
        exact ⟨rfl, st, rfl, hlink.1⟩
      · cases h
    | fork f => simp only [Keeper.owes] at h; split at h <;> cases h
    | duel d =>
      cases d with
      | none => cases h
      | some d => simp only [Keeper.owes] at h; split at h <;> cases h
    | _ => cases h
  · cases h

section Opened

variable {e : ExecutionId} {link : Link} {σ : Store} {x : Keeper}

theorem Prog.step_keeper {p : Prog} (hc : σ.isCancelled link = false) (h : p.opens e link σ = some x) :
    ((Node.program p).step e link σ).store.keeper? σ.boundaries.size = some x := by
  have hsize : σ.boundaries.size = σ.boundaries.keepers.size := σ.boundaries.aligned.symm
  rw [(Node.step_does hc (.program p) e).keeper?, Node.edits, h, hsize]
  exact Array.getElem?_push_size

theorem Node.gate_keeper (hc : σ.isCancelled link = false) (g : BracketId) (e : ExecutionId) :
    ((Node.gate g).step e link σ).store.keeper? σ.boundaries.size = some (.step { source := .gate g, link }) := by
  -- the new keeper is not the bracket whose gate is awaited
  obtain ⟨x, hx, rfl⟩ := Edit.getElem?_modify
    (P := fun _ y => y = .step { source := .gate g, link })
    (f := .mapBracket (.await σ.boundaries.size)) Array.getElem?_push_size rfl
    fun (_ : g = σ.boundaries.keepers.size) => rfl
  have hsize : σ.boundaries.size = σ.boundaries.keepers.size := σ.boundaries.aligned.symm
  rw [(Node.step_does hc (.gate g) e).keeper?, hsize]
  exact hx

/-- A boundary is opened for a program, or at a gate. -/
theorem Node.of_keeper {n : Node} (hc : σ.isCancelled link = false)
    (hx : (n.step e link σ).store.keeper? σ.boundaries.size = some x) :
    (∃ p, n = .program p ∧ p.opens e link σ = some x) ∨
      ∃ g, n = .gate g ∧ x = .step { source := .gate g, link } := by
  have hkeeper := ((Node.step_does hc n e).keeper? σ.boundaries.size).symm.trans hx
  have hnone : σ.boundaries.keepers[σ.boundaries.size]? = none := Store.keeper?_size
  cases n with
  | program p =>
    cases hopens : p.opens e link σ with
    | none => simp [Node.edits, hopens, hnone] at hkeeper
    | some y => exact .inl ⟨p, rfl, hopens.trans ((Prog.step_keeper hc hopens).symm.trans hx)⟩
  | gate g => exact .inr ⟨g, rfl, Option.some.inj (hx.symm.trans (Node.gate_keeper hc g e))⟩
  | token t => cases t <;> simp [Node.edits, Edit.apply, Array.getElem?_modify, hnone] at hkeeper
  | _ => simp [Node.edits, hnone] at hkeeper

end Opened

/-- A loop opens no boundary and pushes no token, or opens a boundary to which it comes next, and
pushes the token of that boundary, if it has one, on its connection. -/
theorem Node.step_pledges {n : Node} {link : Link} {σ : Store} (hc : σ.isCancelled link = false)
    (e : ExecutionId) :
    (∀ b, (n.step e link σ).stage ≠ .leaving b) ∧
        (∀ link' t, n.operation link σ ≠ some (link', .push t)) ∨
      (n.step e link σ).stage = .leaving σ.boundaries.size ∧ (n.step e link σ).link = link ∧
        ∃ x, (n.step e link σ).store.keeper? σ.boundaries.size = some x ∧
          ((n.operation link σ = none ∧ ∀ c t, ¬x.Pledges c σ.boundaries.size t) ∨
            ∃ t, n.operation link σ = some (link, .push t) ∧
              ∀ c t', x.Pledges c σ.boundaries.size t' ↔ link = some c ∧ t' = t) := by
  cases n with
  | program p =>
    cases p with
    | connected | racePair =>
      exact .inr ⟨rfl, rfl, _, Prog.step_keeper hc rfl, .inl ⟨rfl, by simp [Keeper.Pledges, Keeper.owes]⟩⟩
    | joinEach fs => cases fs <;> exact .inl ⟨by simp [Node.step, Prog.step], by simp [Node.operation, Prog.operation]⟩
    | pop c =>
      refine .inl ⟨?_, by simp [Node.operation, Prog.operation]⟩
      simp only [Node.step, Prog.step]
      split <;> simp
    | stored i =>
      refine .inl ⟨?_, by simp [Node.operation, Prog.operation]⟩
      simp only [Node.step, Prog.step]
      split <;> simp
    | cancelable | bracket | race | both | outcome | permits | shift | sleep | remote | awaited =>
      refine .inr ⟨rfl, rfl, _, Prog.step_keeper hc rfl, .inr ⟨_, rfl, ?_⟩⟩
      simp [Keeper.Pledges, Keeper.owes, eq_comm, and_comm]
    | _ => exact .inl ⟨by simp [Node.step, Prog.step], by simp [Node.operation, Prog.operation]⟩
  | token t =>
    refine .inl ⟨?_, by cases t <;> simp [Node.operation]⟩
    cases t with
    | cleanup c =>
      cases c with
      | program i =>
        simp only [Node.step, Token.begin, Cleanup.begin]
        split <;> simp
      | _ => simp [Node.step, Token.begin, Cleanup.begin]
    | connection c =>
      simp only [Node.step, Token.begin]
      split <;> simp
    | fiber f =>
      simp only [Node.step, Token.begin]
      split <;> simp
    | _ => simp [Node.step, Token.begin]
  | sweep of ts =>
    refine .inl ⟨?_, by simp [Node.operation]⟩
    cases ts <;> simp [Node.step, Store.sweep]
  | release g v x =>
    refine .inl ⟨?_, by simp [Node.operation]⟩
    simp only [Node.step]
    split <;> simp
  | gate g =>
    refine .inr ⟨rfl, rfl, _, Node.gate_keeper hc g e, .inr ⟨_, rfl, ?_⟩⟩
    simp [Keeper.Pledges, Keeper.owes, eq_comm, and_comm]
  | result r => exact .inl ⟨by simp [Node.step], by simp [Node.operation]⟩

/-- A boundary is opened by a loop that looks at a node and comes there next. -/
theorem Activity.of_new_keeper {a : Activity} {σ : Store} {b : BoundaryId} {x : Keeper}
    (hb : σ.keeper? b = none) (hx : (a.step σ).1.keeper? b = some x) :
    ∃ n l, a = .work (.looking n) l ∧ σ.isCancelled l.link = false ∧ b = σ.boundaries.size ∧
      (n.step l.id l.link σ).stage = .leaving b ∧ (n.step l.id l.link σ).store.keeper? b = some x := by
  have hle : σ.boundaries.cells.size ≤ b := by
    have hle := Array.getElem?_eq_none_iff.1 hb
    rwa [σ.boundaries.aligned] at hle
  have hlt : b < (a.step σ).1.boundaries.cells.size := by
    have hlt := (Array.getElem?_eq_some_iff.1 hx).1
    rwa [(a.step σ).1.boundaries.aligned] at hlt
  have hsame : (a.step σ).1.boundaries.cells.size ≠ σ.boundaries.cells.size :=
    fun hsame => Nat.not_lt.2 hle (hsame ▸ hlt)
  by_cases hbeside : a.Beside
  · exact absurd (congrArg Array.size (Activity.step_aside hbeside σ).cells) hsame
  cases a with
  | start n link k => exact absurd rfl hsame
  | work s l =>
    obtain ⟨n, rfl, -, hstep⟩ | ⟨r, rfl, -, hstep⟩ | ⟨t, fs, ht⟩ | ⟨b', rfl⟩ := l.step_takes s σ
    · exact absurd (by rw [Activity.step, hstep]) hsame
    · exact absurd (by rw [Activity.step, hstep]) hsame
    · have hstep : (Activity.work s l).step σ = _ := ht.step
      rw [hstep] at hx hlt hsame
      obtain ⟨hcells, -⟩ | ⟨hcells, hstage⟩ := ht.opens.cells
      · exact absurd (congrArg Array.size hcells) hsame
      · obtain ⟨n, rfl, hc, rfl⟩ := ht.of_leaving hstage
        obtain rfl : b = σ.boundaries.size := by
          rw [hcells, Array.size_push] at hlt
          exact Nat.le_antisymm (Nat.le_of_lt_succ hlt) hle
        exact ⟨n, l, rfl, hc, rfl, hstage, hx⟩
    · refine absurd ?_ hsame
      simp only [Activity.step, Loop.step, Store.leave]
      split <;> simp [Store.setBoundary, Boundaries.set, Store.emit]
  | complete y r =>
    cases y with
    | boundary b' =>
      refine absurd ?_ hsame
      simp only [Activity.step, Completer.complete, Store.completeBoundary]
      split <;> simp [Store.setBoundary, Boundaries.set, Store.emit]
    | _ => exact absurd trivial hbeside
  | _ => exact absurd trivial hbeside

/-- The closure registers a clean-up program on the connection. -/
def Code.Pushes {α : Type} (c : ConnectionId) : Code Prog α → Prop
  | .push link _ _ => link = some c
  | _ => False

/-- Code that was given the connection uses it: it pushes a token, or pops the newest one. -/
def Activity.Meddles (c : ConnectionId) : Activity → Prop
  | .work (.delaying x) _ => x.Pushes c
  | .work (.suspending x) _ => x.Pushes c
  | .work (.mapping x) _ => x.Pushes c
  | .work (.looking (.program (.pop link))) _ => link = some c
  | .registering x _ => x.Pushes c
  | .registeringStep x _ => x.Pushes c
  | .calling x _ => x.Pushes c
  | _ => False

/-- Code outside the machine that was given the connection uses it. -/
def Input.Meddles (c : ConnectionId) : Input → Prop
  | .move x => x.Pushes c
  | .pushPair link _ _ | .dropToken link => link = some c
  | _ => False

instance Code.decidablePushes {α : Type} (c : ConnectionId) : ∀ x : Code Prog α, Decidable (x.Pushes c)
  | .push link _ _ => inferInstanceAs (Decidable (link = some c))
  | .ret _ | .panic _ | .log _ _ | .read _ _ | .write _ _ _ | .launch _ _ | .answer _ _ _ | .keep _ _ =>
    isFalse id

instance Activity.decidableMeddles (c : ConnectionId) (a : Activity) : Decidable (a.Meddles c) := by
  unfold Meddles
  split <;> infer_instance

instance Input.decidableMeddles (c : ConnectionId) (i : Input) : Decidable (i.Meddles c) := by
  unfold Meddles
  split <;> infer_instance

theorem Code.of_operation {α : Type} {x : Code Prog α} {σ : Store} {c : ConnectionId}
    {op : Connection.Operation Token} (h : x.operation σ = some (some c, op)) :
    x.Pushes c ∧ op = .push (.cleanup (.program σ.programs.size)) := by
  cases x <;> simp_all [Code.operation, Code.Pushes]

/-- The token is of a kind that code or the outside world pushes. -/
def Token.Foreign : Token → Prop
  | .cleanup _ | .connections _ _ => True
  | _ => False

/-- A token is pushed by a loop that opens a boundary, for a duel, or by code. -/
theorem Activity.of_operation_push {a : Activity} {σ : Store} {c : ConnectionId} {t : Token}
    (h : a.operation σ = some (some c, .push t)) :
    (∃ n l, a = .work (.looking n) l ∧ σ.isCancelled l.link = false ∧
      n.operation l.link σ = some (some c, .push t)) ∨
      (∃ left right k, a = .tie left right (some c) k ∧ t = .fibers left right) ∨
      a.Meddles c ∧ t.Foreign := by
  have hcode : ∀ {α : Type} {x : Code Prog α}, x.operation σ = some (some c, .push t) →
      x.Pushes c ∧ t.Foreign := fun hx => by
    obtain ⟨hpushes, ht⟩ := Code.of_operation hx
    cases ht
    exact ⟨hpushes, trivial⟩
  cases a with
  | work s l =>
    cases s with
    | looking n =>
      simp only [Activity.operation] at h
      split at h
      · cases h
      · rename_i hc
        exact .inl ⟨n, l, rfl, Bool.eq_false_iff.2 hc, h⟩
    | delaying x => exact .inr (.inr (hcode h))
    | suspending x => exact .inr (.inr (hcode h))
    | mapping x => exact .inr (.inr (hcode h))
    | _ => simp [Activity.operation] at h
  | registering x b => exact .inr (.inr (hcode h))
  | registeringStep x s => exact .inr (.inr (hcode h))
  | calling x s => exact .inr (.inr (hcode h))
  | tie left right parent k =>
    simp only [Activity.operation, Option.some.injEq, Prod.mk.injEq,
      Connection.Operation.push.injEq] at h
    obtain ⟨rfl, rfl⟩ := h
    exact .inr (.inl ⟨left, right, k, rfl, rfl⟩)
  | _ => simp [Activity.operation] at h

/-- Only code that was given the connection pops its newest token. -/
theorem Node.of_operation_pop {n : Node} {link : Link} {σ : Store} {c : ConnectionId} {l : Loop}
    (h : n.operation link σ = some (some c, .pop)) : (Activity.work (.looking n) l).Meddles c := by
  cases n with
  | program p =>
    cases p <;> simp only [Node.operation, Prog.operation, Option.some.injEq, Prod.mk.injEq,
      reduceCtorEq, and_false, and_true] at h
    exact h
  | token t => cases t <;> simp [Node.operation] at h
  | _ => simp [Node.operation] at h

theorem Input.of_operation {i : Input} {σ : Store} {c : ConnectionId}
    {op : Connection.Operation Token} (h : i.operation σ = some (some c, op)) :
    i.Meddles c ∧ ∀ t, op = .push t → t.Foreign := by
  cases i with
  | move x =>
    obtain ⟨hpushes, rfl⟩ := Code.of_operation h
    exact ⟨hpushes, by rintro t ⟨⟩; trivial⟩
  | pushPair link left right =>
    simp only [Input.operation, Option.some.injEq, Prod.mk.injEq] at h
    obtain ⟨rfl, rfl⟩ := h
    exact ⟨rfl, by rintro t ⟨⟩; trivial⟩
  | dropToken link =>
    simp only [Input.operation, Option.some.injEq, Prod.mk.injEq] at h
    obtain ⟨rfl, rfl⟩ := h
    exact ⟨rfl, by rintro t ⟨⟩⟩
  | _ => cases h

/-! ## Calls that decide -/

/-- The boundary is there, its keeper is not a bracket, and it has been decided. -/
def Store.Settled (b : BoundaryId) (σ : Store) : Prop :=
  ∃ x, σ.keeper? b = some x ∧ x.Decided ∧ ∀ br, x ≠ .bracket br

theorem Store.fork?_eq_some {k : ForkId} {f : Fork} {σ : Store} :
    σ.fork? k = some f ↔ σ.keeper? k = some (.fork f) := by
  unfold Store.fork?
  split <;> simp_all

theorem Store.duel?_eq_some {k : DuelId} {d : Duel} {σ : Store} :
    σ.duel? k = some d ↔ σ.keeper? k = some (.duel (some d)) := by
  unfold Store.duel?
  split <;> simp_all

section Settled

variable {σ : Store} {next : Next} {ms : List Matter}

theorem Next.Does.settled_step {s : StepId} {st : Step} (h : next.Does σ [.endsStep s] ms)
    (hs : σ.step? s = some st) : next.1.Settled s := by
  refine ⟨.step { st with live := false }, ?_, rfl, by simp⟩
  have hx : σ.boundaries.keepers[s]? = _ := Store.step?_eq_some.1 hs
  simp [h.keeper?, Edit.apply, Array.getElem?_modify, hx, Keeper.mapStep]

theorem Next.Does.settled_fork {k : ForkId} {f : Fork} (h : next.Does σ [.endsFork k] ms)
    (hf : σ.fork? k = some f) : next.1.Settled k := by
  refine ⟨.fork { f with settled := true }, ?_, rfl, by simp⟩
  have hx : σ.boundaries.keepers[k]? = _ := Store.fork?_eq_some.1 hf
  simp [h.keeper?, Edit.apply, Array.getElem?_modify, hx, Keeper.mapFork]

theorem Next.Does.settled_duel {k : DuelId} {d : Duel} (h : next.Does σ [.endsDuel k] ms)
    (hd : σ.duel? k = some d) : next.1.Settled k := by
  refine ⟨.duel (some { d with settled := true }), ?_, ⟨_, rfl, rfl⟩, by simp⟩
  have hx : σ.boundaries.keepers[k]? = _ := Store.duel?_eq_some.1 hd
  simp [h.keeper?, Edit.apply, Array.getElem?_modify, hx, Keeper.mapDuel]

end Settled

/-- A boundary that was settled stays so, unless a duel begins anew there. -/
theorem Activity.step_settled {a : Activity} {σ : Store} {b : BoundaryId}
    (ha : ∀ left right parent, a ≠ .tie left right parent b) (h : σ.Settled b) :
    (a.step σ).1.Settled b := by
  obtain ⟨x, hx, hdecided, hother⟩ := h
  obtain ⟨x', hx', hdecided'⟩ := Activity.step_decided ha ⟨x, hx, hdecided⟩
  obtain ⟨y, hy, hother'⟩ := (a.step_grows σ).kept b ⟨x, hx, hother⟩
  cases hx'.symm.trans hy
  exact ⟨x', hx', hdecided', hother'⟩

/-- How a matter comes up by the step of the call `a`: a boundary is completed when its keeper has been
decided, or at the end of an execution that is for that, or at the end of the acquisition of its
bracket; such an execution begins when the keeper has been decided, or because the connection of the
bracket was cancelled; a duel is begun and gone on with. -/
def Matter.Follows (a : Activity) (σ : Store) : Matter → Prop
  | .completes b r => (a.step σ).1.Settled b ∨
      (∃ e k r', a = .deliver e k r' ∧ .ends b ∈ k.ends) ∨
      ∃ e r', a = .deliver e (.acquired b) r' ∧ r'.isOk = r.isOk
  | .ends b => (a.step σ).1.Settled b ∨ ∃ br, σ.bracket? b = some br ∧ σ.isCancelled br.link = true
  | .ties k parent => (∃ left q on, a = .startRight left q on parent k) ∨
      k = σ.boundaries.size ∧ ∃ p q on l, a = .work (.looking (.program (.racePair p q on))) l ∧
        l.link = parent ∧ σ.isCancelled l.link = false
  | .runs _ => False

/-- **Every matter of the calls that follow a step comes up in its way.** -/
theorem Activity.matters_follow (a : Activity) (σ : Store) : ∀ m ∈ a.matters σ, m.Follows a σ := by
  intro m h
  have hdoes := a.step_does σ
  cases a.raises_of_matters h with
  | @racePair p q on l hc => exact .inr ⟨rfl, p, q, on, l, rfl, rfl, hc⟩
  | startRight left q on parent k => exact .inl ⟨left, q, on, rfl⟩
  | callback r hb => exact .inl ⟨.callback, by rw [hdoes.keeper?]; exact hb, trivial, by simp⟩
  | step r hs hc =>
    simp only [Activity.edits, hc, if_true] at hdoes
    exact .inl (hdoes.settled_step hs)
  | endStep hl hs hends =>
    simp only [Activity.edits, hl, List.head?_cons, Option.map_some, Option.getD_some, Frame.edits, hends,
      if_true] at hdoes
    exact .inl (hdoes.settled_step hs)
  | refused e x hg | acquired e v hg hc => exact .inr (.inr ⟨e, _, rfl, rfl⟩)
  | acquiredLate e v hg hc => exact .inr ⟨_, hg, hc⟩
  | releasedLate e r hg => exact .inr (.inl ⟨e, _, r, rfl, .head _⟩)
  | @side k f x r m e hf hmatters =>
    obtain ⟨hsettles, hm⟩ := Fork.of_matters hmatters
    have hopen : f.settled = false := by simpa using (Bool.and_eq_true_iff.1 hsettles).1
    simp only [Activity.edits, Sink.edits, hf, Option.map_some, Option.getD_some, Fork.edits, hopen, hsettles,
      Bool.false_eq_true, if_false, if_true] at hdoes
    have hsettled := hdoes.settled_fork hf
    obtain rfl | ⟨v, rfl⟩ := hm
    · exact .inl hsettled
    · exact .inl hsettled
  | settle e x r hf => exact .inr (.inl ⟨e, _, r, rfl, .head _⟩)
  | outcome f x o hd hopen =>
    simp only [Activity.edits, hd, hopen, Bool.false_eq_true, if_false] at hdoes
    cases o <;> exact .inl (hdoes.settled_duel hd)
  | fail e cause r hd => exact .inr (.inl ⟨e, _, r, rfl, .head _⟩)

/-- A boundary is ready only if it was ready before, or is completed in the step. -/
theorem Activity.step_ready {a : Activity} {σ : Store} {b : BoundaryId} {r : Result}
    (h : (a.step σ).1.boundary? b = some (.ready r)) :
    σ.boundary? b = some (.ready r) ∨ a = .complete (.boundary b) r := by
  by_cases hbeside : a.Beside
  · exact .inl ((Activity.step_aside hbeside σ).boundary? b ▸ h)
  cases a with
  | start n link k => exact .inl h
  | work s l =>
    obtain ⟨n, rfl, -, hstep⟩ | ⟨r', rfl, -, hstep⟩ | ⟨t, fs, ht⟩ | ⟨b', rfl⟩ := l.step_takes s σ
    · exact .inl (by simpa only [Activity.step, hstep] using h)
    · exact .inl (by simpa only [Activity.step, hstep] using h)
    · simp only [Activity.step, ht.step] at h
      change t.store.boundaries.cells[b]? = _ at h
      refine .inl ?_
      obtain ⟨hcells, -⟩ | ⟨hcells, -⟩ := ht.opens.cells <;> rw [hcells] at h
      · exact h
      · rw [Array.getElem?_push] at h
        split at h
        · cases h
        · exact h
    · refine .inl ?_
      simp only [Activity.step, Loop.step, Store.leave] at h
      split at h
      · obtain ⟨-, h⟩ | h := Store.boundary?_of_setBoundary h
        · cases h
        · exact h
      · obtain ⟨-, h⟩ | h := Store.boundary?_of_setBoundary (σ := σ) h
        · cases h
        · exact h
      · exact h
  | complete c r' =>
    cases c with
    | boundary b' =>
      simp only [Activity.step, Completer.complete, Store.completeBoundary] at h
      split at h
      · obtain ⟨rfl, hr⟩ | h := Store.boundary?_of_setBoundary (σ := σ) h
        · cases hr
          exact .inr rfl
        · exact .inl h
      · obtain ⟨-, h⟩ | h := Store.boundary?_of_setBoundary (σ := σ) h
        · cases h
        · exact .inl h
      · exact .inl h
    | _ => exact absurd trivial hbeside
  | _ => exact absurd trivial hbeside

end CancelableEffects
