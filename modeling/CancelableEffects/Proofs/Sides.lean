import CancelableEffects.Proofs.Forks
import CancelableEffects.Proofs.Seats

/-!
# Sides — the two executions of a fork, and what comes of them

* `Session.ends`: the ends of the sides of a fork.
* `Session.Comes`: a call is pending or was made.
* `Session.Forks`: a loop opens a fork.
* **`Session.Forks.seats`**, **`Session.Forks.ends_nodup`**: each side has one execution, which ends once.
* **`Session.Forks.fork_of_ends`**: a fork is what the ends of its sides made of it.
* **`Session.Forks.forked`**: who comes to settle the fork, and what comes to its boundary.
* **`Session.resumed_of_registering`**, `Session.Forks.resumed`: the loop that opened a boundary goes on with
  what was offered there.
-/

namespace CancelableEffects

/-! ## Sessions -/

/-- The side of the fork that has ended at this moment, and its result. -/
def Moment.end? (k : ForkId) (m : Moment) : Option (Side × Result) := m.call.bind (·.end? k)

/-- The program of the side. -/
def Side.choose (p q : Prog) : Side → Prog
  | .left => p
  | .right => q

/-- The fork that is opened under the connection. -/
def Store.newFork (kind : ForkKind) (link : Link) (σ : Store) : Fork :=
  ⟨kind, link, σ.connections.size, σ.connections.size + 1, false, none, none⟩

namespace Session

/-- The ends of the sides of the fork so far, the latest first. -/
def ends (k : ForkId) (S : Session) : List (Side × Result) := S.past.filterMap (·.end? k)

/-- The call is pending or was made. -/
def Comes (a : Activity) (S : Session) : Prop := a ∈ S.calls ∨ ∃ m ∈ S.past, m.call = some a

/-- With the choice of the place, the loop `l₀` opens a fork of `p` and `q`, and leaves the frames `fs`. -/
structure Forks (kind : ForkKind) (p q : Prog) (on : Executor) (fs : List Frame) (l₀ : Loop) (place : Nat)
    (cs₀ : List Choice) : Prop where
  live : (after cs₀).store.isCancelled l₀.link = false
  looks : ∃ prog, (after cs₀).calls[place]? = some (.work (.looking (.program prog)) l₀) ∧
    prog.step l₀.id l₀.link (after cs₀).store =
      { (after cs₀).store.fork kind p q on l₀.link with frames := fs }

section Comes

variable {S : Session} {cs : List Choice} {a a' : Activity} {next : Next}

theorem comes_call {place : Nat} (ha : S.calls[place]? = some a) :
    (S.record (some a) next (S.calls.eraseIdx place)).Comes a' ↔ a' ∈ next.2 ∨ S.Comes a' := by
  obtain ⟨hlt, rfl⟩ := List.getElem?_eq_some_iff.1 ha
  have hcalls : a' ∈ S.calls ↔ a' = S.calls[place] ∨ a' ∈ S.calls.eraseIdx place := by
    rw [← (List.getElem_cons_eraseIdx_perm hlt).mem_iff, List.mem_cons]
  simp only [Comes, record_calls, record_past, hcalls, List.mem_append, List.mem_cons, exists_eq_or_imp,
    Option.some.injEq]
  constructor
  · rintro ((h | h) | h | h)
    exacts [.inl h, .inr (.inl (.inr h)), .inr (.inl (.inl h.symm)), .inr (.inr h)]
  · rintro (h | (h | h) | h)
    exacts [.inl (.inl h), .inr (.inl h.symm), .inl (.inr h), .inr (.inr h)]

theorem comes_input : (S.record none next S.calls).Comes a' ↔ a' ∈ next.2 ∨ S.Comes a' := by
  simp [Comes, or_assoc]

theorem ends_call (k : ForkId) (others : List Activity) :
    (S.record (some a) next others).ends k = (a.end? k).toList ++ S.ends k := by
  cases h : a.end? k <;> simp [ends, Moment.end?, h]

theorem ends_input (k : ForkId) (others : List Activity) :
    (S.record none next others).ends k = S.ends k := by
  simp [ends, Moment.end?]

theorem mem_ends {k : ForkId} {x : Side × Result} :
    x ∈ S.ends k ↔ ∃ m ∈ S.past, ∃ e, m.call = some (.deliver e (.side k x.1) x.2) := by
  constructor
  · intro hx
    obtain ⟨m, hm, hend⟩ := List.mem_filterMap.1 hx
    obtain ⟨a, hcall, hend⟩ := Option.bind_eq_some_iff.1 hend
    obtain ⟨e, rfl⟩ := a.of_end? hend
    exact ⟨m, hm, e, hcall⟩
  · rintro ⟨m, hm, e, hcall⟩
    exact List.mem_filterMap.2 ⟨m, hm, by rw [Moment.end?, hcall]; exact if_pos rfl⟩

theorem Answers.lt {b : BoundaryId} {r : Result} (h : (after cs).Answers b r) :
    b < (after cs).store.boundaries.size := by
  have hkeeper : ∀ {x}, (after cs).store.keeper? b = some x → b < (after cs).store.boundaries.size := fun hx => by
    show b < (after cs).store.boundaries.cells.size
    rw [← (after cs).store.boundaries.aligned]
    exact (Array.getElem?_eq_some_iff.1 hx).1
  rcases h with (⟨x, hx, -⟩ | ⟨br, hbr, -⟩) | ⟨⟨br, hbr⟩, -⟩
  · exact hkeeper hx
  · exact hkeeper (Store.bracket?_eq_some.1 hbr)
  · exact hkeeper (Store.bracket?_eq_some.1 hbr)

/-- A call that completes a boundary, now or later, does so where one is. -/
theorem Comes.lt (h : (after cs).Comes a) {m : Matter} {b : BoundaryId} (hm : m ∈ a.carries)
    (hb : m.boundary? = some b) : b < (after cs).store.boundaries.size := by
  have hpending : ∀ cs', a ∈ (after cs').calls → b < (after cs').store.boundaries.size := fun cs' ha => by
    have hmatters : m ∈ (after cs').matters := List.mem_flatMap.2 ⟨a, ha, hm⟩
    cases m with
    | completes b' r =>
      cases hb
      exact ((orderly cs').completes b r hmatters).lt
    | ends b' =>
      cases hb
      exact Answers.lt (r := .ok .unit) (.inl ((orderly cs').ends b hmatters))
    | _ => cases hb
  rcases h with h | ⟨m', hm', hcall⟩
  · exact hpending cs h
  · obtain ⟨later, earlier, hpast⟩ := List.append_of_mem hm'
    obtain ⟨cs₂, x, cs₁, rfl, -, hmade⟩ := exists_made hpast
    refine Nat.lt_of_lt_of_le (hpending cs₁ ?_)
      (List.append_cons cs₂ x cs₁ ▸ (after_grows cs₁ (cs₂ ++ [x])).boundaries_le)
    rcases hmade.how with ⟨i, -, hnone, -⟩ | ⟨place, a', -, hcalls, hcall', -⟩
    · cases hnone.symm.trans hcall
    · cases hcall'.symm.trans hcall
      exact List.mem_of_getElem? hcalls

/-- An execution for a side is known. -/
theorem seat_of_start {m : Moment} {n : Node} {link : Link} {k : ForkId} {side : Side}
    (hm : m ∈ S.past) (hcall : m.call = some (.start n link (.side k side))) :
    m.seat? = some ⟨link, .side k side, n⟩ ∧ ⟨link, .side k side, n⟩ ∈ S.seats := by
  have hseat : m.seat? = some ⟨link, .side k side, n⟩ := by
    unfold Moment.seat?
    rw [hcall]
    cases link <;> rfl
  exact ⟨hseat, List.mem_append_left _ (List.mem_filterMap.2 ⟨m, hm, hseat⟩)⟩

/-- Only sides of forks that are there have executions. -/
theorem side_lt {e : ExecutionId} {k : ForkId} {side : Side} (h : (after cs).Began e (.side k side)) :
    k < (after cs).store.boundaries.size := by
  obtain ⟨m, hm, ⟨n, link, hcall⟩, -⟩ := h
  obtain ⟨c, -, -, hknown⟩ := (seated cs).there _ (seat_of_start hm hcall).2
  exact hknown.side k side rfl

end Comes

/-! ## The loop at a boundary -/

section Opened

variable {cs₀ cs : List Choice} {b : BoundaryId} {l₀ l : Loop} {r : Result}

/-- Only the loop that is about to come to a new boundary comes there. -/
theorem leaver_of_registering (hb : (after cs₀).store.boundary? b = some .registering)
    (hl₀ : .work (.leaving b) l₀ ∈ (after cs₀).calls) (hl : (after (cs ++ cs₀)).Has (.leaving b) l) :
    l = l₀ := by
  have htells := tells b cs₀
  rw [Tells, hb] at htells
  refine each_from (P := fun S s l => s = .leaving b → l = l₀) ?_ (fun _ hs => hs) ?_ ?_ ?_ cs _ _ hl rfl
  · rintro s l (hl | ⟨b', hb', hparked⟩) rfl
    · -- one loop comes there
      obtain ⟨l', hone⟩ := List.length_eq_one_iff.1 htells.2.1
      have hmem : ∀ {l}, .work (.leaving b) l ∈ (after cs₀).calls → l = l' := fun hl =>
        List.mem_singleton.1 (hone ▸ List.mem_filterMap.2 ⟨_, hl, if_pos rfl⟩)
      rw [hmem hl, hmem hl₀]
    · cases hb'
      cases hb.symm.trans hparked
  · intro cs n link k others hcall hs
    cases hs
  · intro cs s l t fs' others hcall hP ht hs
    obtain ⟨n, rfl, hlive, rfl⟩ := ht.of_leaving hs
    rcases Node.step_pledges hlive l.id with ⟨hno, -⟩ | ⟨hstage, -⟩
    · exact absurd hs (hno _)
    · have hle := (after_grows cs₀ cs).boundaries_le
      have hlt : b < (after cs₀).store.boundaries.size := (Array.getElem?_eq_some_iff.1 hb).1
      exact absurd (Stage.leaving.inj (hstage.symm.trans hs)) (Nat.ne_of_gt (Nat.lt_of_lt_of_le hlt hle))
  · intro S b l r hripe hP hs
    cases hs

/-- **The loop that is about to come to a new boundary goes on from there**, with a result that was offered
there. -/
theorem resumed_of_registering (hb : (after cs₀).store.boundary? b = some .registering)
    (hl₀ : .work (.leaving b) l₀ ∈ (after cs₀).calls) (hl : (r, l) ∈ (after (cs ++ cs₀)).resumptions b) :
    l = l₀ ∧ r ∈ (after (cs ++ cs₀)).offers b := by
  constructor
  · obtain ⟨m, hm, hres⟩ := List.mem_filterMap.1 hl
    obtain ⟨later, hpast⟩ := past_suffix cs₀ cs
    rw [← hpast] at hm
    rcases List.mem_append.1 hm with hm | hm
    · obtain ⟨newer, older, rfl⟩ := List.append_of_mem hm
      rw [List.append_assoc, List.cons_append] at hpast
      obtain ⟨cs₂, x, cs₁, rfl, -, hmade⟩ := exists_of_later hpast.symm (List.suffix_append _ _)
      exact leaver_of_registering hb hl₀ (hmade.of_resumption hres).1
    · -- before, nobody went on from there
      have htells := tells b cs₀
      rw [Tells, hb] at htells
      have hnone : (r, l) ∈ (after cs₀).resumptions _ := List.mem_filterMap.2 ⟨m, hm, hres⟩
      rw [htells.2.2.2] at hnone
      exact (List.not_mem_nil hnone).elim
  · rw [resumptions_eq, Option.mem_toList, Option.bind_eq_some_iff] at hl
    obtain ⟨r', hlast, hl⟩ := hl
    obtain ⟨l', -, heq⟩ := Option.map_eq_some_iff.1 hl
    cases heq
    exact List.mem_of_getLast? hlast

/-- What comes to a boundary is offered there. -/
theorem comes_complete :
    (after cs).Comes (.complete (.boundary b) r) ↔
      .complete (.boundary b) r ∈ (after cs).calls ∨ r ∈ (after cs).offers b := by
  refine or_congr_right ⟨?_, fun hr => ?_⟩
  · rintro ⟨m, hm, hcall⟩
    obtain ⟨later, earlier, hpast⟩ := List.append_of_mem hm
    obtain ⟨cs₂, x, cs₁, -, -, hmade⟩ := exists_made hpast
    have hlt : b < m.before.boundaries.size := by
      rcases hmade.how with ⟨i, -, hnone, -⟩ | ⟨place, a', -, hcalls, hcall', -⟩
      · cases hnone.symm.trans hcall
      · cases hcall'.symm.trans hcall
        rw [hmade.before]
        exact Comes.lt (.inl (List.mem_of_getElem? hcalls)) (.head _) rfl
    refine List.mem_filterMap.2 ⟨m, hm, ?_⟩
    rw [Moment.offer?, if_pos hlt, hcall]
    exact if_pos rfl
  · obtain ⟨m, hm, hoffer⟩ := List.mem_filterMap.1 hr
    refine ⟨m, hm, ?_⟩
    rw [Moment.offer?] at hoffer
    split at hoffer
    · obtain ⟨a, hcall, ha⟩ := Option.bind_eq_some_iff.1 hoffer
      rw [hcall, a.of_offer? ha]
    · cases hoffer

end Opened

section Fork

variable {kind : ForkKind} {p q : Prog} {on : Executor} {fs : List Frame} {l₀ : Loop} {place : Nat}
  {cs₀ : List Choice}

/-- The loop that comes to the boundary of the fork next. -/
theorem Forks.opened (h : Forks kind p q on fs l₀ place cs₀) :
    ∃ prog others, (∀ a ∈ others, a ∈ (after cs₀).calls) ∧
      after (.call place :: cs₀) = (after cs₀).record (some (.work (.looking (.program prog)) l₀))
        (((after cs₀).store.fork kind p q on l₀.link).store,
          ((after cs₀).store.fork kind p q on l₀.link).calls ++
            [.work (.leaving (after cs₀).store.boundaries.size) { l₀ with stack := fs ++ l₀.stack }])
        others := by
  obtain ⟨prog, hcall, hstep⟩ := h.looks
  refine ⟨prog, (after cs₀).calls.eraseIdx place, fun a ha => List.mem_of_mem_eraseIdx ha,
    (step_call hcall).trans (congrArg (record _ _ · _) ?_)⟩
  show (if (after cs₀).store.isCancelled l₀.link = true then _ else
    (prog.step l₀.id l₀.link (after cs₀).store).on l₀) = _
  rw [h.live, if_neg Bool.false_ne_true, hstep]
  rfl

theorem Forks.calls (h : Forks kind p q on fs l₀ place cs₀) :
    ((after cs₀).store.fork kind p q on l₀.link).calls =
      [.execute on (.side p (after cs₀).store.connections.size (after cs₀).store.boundaries.size .left),
        .execute on (.side q ((after cs₀).store.connections.size + 1) (after cs₀).store.boundaries.size .right)] := by
  have hsame := ((Store.Alike.newConnection (σ := (after cs₀).store)).trans (Store.Alike.newConnection.trans
    (.newBoundary (x := .fork ((after cs₀).store.newFork kind l₀.link)) nofun))).cancelled l₀.link
  show (if Store.isCancelled l₀.link _ = true then _ else []) ++ _ = _
  rw [if_neg]
  · simp
  · exact fun hc => Bool.false_ne_true ((h.live.symm.trans hsame.symm).trans hc)

theorem Forks.fork? (h : Forks kind p q on fs l₀ place cs₀) :
    (after (.call place :: cs₀)).store.fork? (after cs₀).store.boundaries.size =
      some ((after cs₀).store.newFork kind l₀.link) := by
  obtain ⟨prog, others, -, hafter⟩ := h.opened
  rw [hafter, record_store, Store.fork?_eq_some]
  refine (Store.keeper?_newBoundary _ _).trans ((if_pos rfl).trans ?_)
  simp [Store.newFork]

/-- No call about the boundary of the fork has come before. -/
theorem Forks.not_comes (h : Forks kind p q on fs l₀ place cs₀) {a : Activity} {m : Matter}
    (hm : m ∈ a.carries) (hb : m.boundary? = some (after cs₀).store.boundaries.size) :
    ¬(after (.call place :: cs₀)).Comes a := by
  have hold : ¬(after cs₀).Comes a := fun ha => Nat.lt_irrefl _ (ha.lt hm hb)
  obtain ⟨prog, others, hothers, hafter⟩ := h.opened
  rw [hafter, h.calls]
  rintro (ha | ⟨m', hm', hcall⟩)
  · simp only [record_calls, List.cons_append, List.nil_append, List.mem_cons] at ha
    rcases ha with rfl | rfl | rfl | ha
    · exact List.not_mem_nil hm
    · exact List.not_mem_nil hm
    · exact List.not_mem_nil hm
    · exact hold (.inl (hothers a ha))
  · rcases List.mem_cons.1 hm' with rfl | hm'
    · cases hcall
      exact List.not_mem_nil hm
    · exact hold (.inr ⟨m', hm', hcall⟩)

/-- No side has ended before. -/
theorem Forks.ends (h : Forks kind p q on fs l₀ place cs₀) :
    (after (.call place :: cs₀)).ends (after cs₀).store.boundaries.size = [] := by
  obtain ⟨prog, others, -, hafter⟩ := h.opened
  rw [hafter, ends_call]
  refine List.eq_nil_iff_forall_not_mem.2 fun x hx => ?_
  obtain ⟨m, hm, e, hcall⟩ := mem_ends.1 (show x ∈ (after cs₀).ends _ from hx)
  exact Nat.lt_irrefl _ (side_lt (began_of_delivered hm hcall).1)

/-- **The executions of the sides are those with which the fork begins**: that of `p` on the left and that
of `q` on the right, each under its own connection. -/
theorem Forks.seats (h : Forks kind p q on fs l₀ place cs₀) {cs : List Choice} {y : Seat} {side : Side}
    (hy : y ∈ (after (cs ++ .call place :: cs₀)).seats)
    (hside : y.sink = .side (after cs₀).store.boundaries.size side) :
    y ∈ (after cs₀).store.sideSeats p q := by
  have hlt : (after cs₀).store.boundaries.size < (after (.call place :: cs₀)).store.boundaries.size := by
    show _ < (after (.call place :: cs₀)).store.boundaries.cells.size
    rw [← (after (.call place :: cs₀)).store.boundaries.aligned]
    exact (Array.getElem?_eq_some_iff.1 (Store.fork?_eq_some.1 h.fork?)).1
  have hy' := side_of_later cs hy hside hlt
  have hold : y ∉ (after cs₀).seats := fun hy => by
    obtain ⟨c, -, -, hknown⟩ := (seated cs₀).there y hy
    exact Nat.lt_irrefl _ (hknown.side _ _ hside)
  obtain ⟨prog, others, hothers, hafter⟩ := h.opened
  rw [hafter, Session.seats] at hy'
  simp only [List.mem_append, record_past, record_calls, record_store, List.mem_filterMap,
    List.mem_cons] at hy'
  -- what the fork leaves to begin, and what was to begin before
  have hnew : y ∈ Next.seats (((after cs₀).store.fork kind p q on l₀.link).store,
      ((after cs₀).store.fork kind p q on l₀.link).calls) → y ∈ (after cs₀).store.sideSeats p q := fun hy => by
    rw [Store.seats_fork] at hy
    exact (List.mem_append.1 hy).resolve_right fun hy =>
      hold (List.mem_append_right _ (List.mem_append_right _ hy))
  rcases hy' with ⟨m, rfl | hm, hseat⟩ | ⟨a, (ha | ha) | ha, hseat⟩ | hy'
  · cases hseat
  · exact absurd (List.mem_append_left _ (List.mem_filterMap.2 ⟨m, hm, hseat⟩)) hold
  · exact hnew (List.mem_append_left _ (List.mem_filterMap.2 ⟨a, ha, hseat⟩))
  · rcases ha with rfl | ha
    · cases hseat
    · exact (List.not_mem_nil ha).elim
  · exact absurd (List.mem_append_right _ (List.mem_append_left _
      (List.mem_filterMap.2 ⟨a, hothers a ha, hseat⟩))) hold
  · exact hnew (List.mem_append_right _ hy')

/-- The program of a side, and the connection under which it runs. -/
theorem Store.mem_sideSeats {σ : Store} {y : Seat} (hy : y ∈ σ.sideSeats p q) {side : Side}
    (hside : y.sink = .side σ.boundaries.size side) (kind : ForkKind) (link : Link) :
    y.link = some ((σ.newFork kind link).connection side) ∧ y.node = .program (side.choose p q) := by
  simp only [Store.sideSeats, List.mem_cons, List.not_mem_nil, or_false] at hy
  rcases hy with rfl | rfl <;> cases hside <;> exact ⟨rfl, rfl⟩

/-- Each side has one execution at most. -/
theorem Forks.side_unique (h : Forks kind p q on fs l₀ place cs₀) {cs : List Choice} {e e' : ExecutionId}
    {side : Side}
    (he : (after (cs ++ .call place :: cs₀)).Began e (.side (after cs₀).store.boundaries.size side))
    (he' : (after (cs ++ .call place :: cs₀)).Began e' (.side (after cs₀).store.boundaries.size side)) :
    e' = e := by
  obtain ⟨m, hm, ⟨n, link, hcall⟩, rfl⟩ := he
  obtain ⟨m', hm', ⟨n', link', hcall'⟩, rfl⟩ := he'
  obtain ⟨hseat, hmem⟩ := seat_of_start hm hcall
  obtain ⟨hseat', hmem'⟩ := seat_of_start hm' hcall'
  obtain ⟨rfl, -⟩ := Store.mem_sideSeats (h.seats hmem rfl) rfl kind l₀.link
  obtain ⟨rfl, -⟩ := Store.mem_sideSeats (h.seats hmem' rfl) rfl kind l₀.link
  rw [seat_unique hm hm' hseat hseat']

/-- **Each side ends once.** -/
theorem Forks.ends_nodup (h : Forks kind p q on fs l₀ place cs₀) (cs : List Choice) :
    (((after (cs ++ .call place :: cs₀)).ends (after cs₀).store.boundaries.size).map Prod.fst).Nodup := by
  refine List.nodup_iff_count_le_one.2 fun side => ?_
  -- all ends of the side are deliveries of one execution
  obtain ⟨e, he⟩ : ∃ e, ∀ m ∈ (after (cs ++ .call place :: cs₀)).past, ∀ e' r,
      m.call = some (.deliver e' (.side (after cs₀).store.boundaries.size side) r) → e' = e := by
    by_cases hsome : ∃ e, (after (cs ++ .call place :: cs₀)).Began e
        (.side (after cs₀).store.boundaries.size side)
    · obtain ⟨e, he⟩ := hsome
      exact ⟨e, fun m hm e' r hcall => h.side_unique he (began_of_delivered hm hcall).1⟩
    · exact ⟨0, fun m hm e' r hcall => absurd ⟨e', (began_of_delivered hm hcall).1⟩ hsome⟩
  have hdelivered : (after (cs ++ .call place :: cs₀)).delivered e ≤ 1 := by
    have hledger := ledger e (cs ++ .call place :: cs₀)
    simp only [holders] at hledger
    split at hledger <;> omega
  rw [List.count, List.countP_map, Session.ends, List.countP_filterMap]
  refine Nat.le_trans (List.countP_mono_left fun m hm hend => ?_) hdelivered
  cases hx : m.end? (after cs₀).store.boundaries.size with
  | none =>
    rw [hx] at hend
    cases hend
  | some x =>
    obtain rfl : x.1 = side := by simpa [hx] using hend
    obtain ⟨a, hcall, ha⟩ := Option.bind_eq_some_iff.1 hx
    obtain ⟨e', rfl⟩ := a.of_end? ha
    rw [Moment.delivers, hcall, he m hm e' x.2 hcall]
    simp

/-- **A fork is what the ends of its sides made of it.** -/
theorem Forks.fork_of_ends (h : Forks kind p q on fs l₀ place cs₀) (cs : List Choice) :
    (after (cs ++ .call place :: cs₀)).store.fork? (after cs₀).store.boundaries.size =
      some (((after cs₀).store.newFork kind l₀.link).after
        ((after (cs ++ .call place :: cs₀)).ends (after cs₀).store.boundaries.size)) := by
  refine invariant_from (P := fun S => S.store.fork? (after cs₀).store.boundaries.size =
    some (((after cs₀).store.newFork kind l₀.link).after (S.ends (after cs₀).store.boundaries.size)))
    ?_ ?_ ?_ cs
  · rw [h.ends]
    exact h.fork?
  · intro cs i hfork
    rw [record_store, ends_input]
    exact i.step_fork? hfork
  · intro cs a xs ys hS hfork
    rw [record_store, a.step_fork? hfork, ends_call]
    cases a.end? (after cs₀).store.boundaries.size <;> rfl

/-- Who comes to settle the fork, and what comes to its boundary: the other side is cancelled because of
the first end that decides, and the boundary is completed with the values of both sides, or when the
cancellation is over. -/
structure Forked (k : ForkId) (f : Fork) (S : Session) : Prop where
  settlers : ∀ n link r, S.Comes (.start n link (.settle k r)) ↔
    ∃ x, f.kind.decider? (S.ends k) = some x ∧ .start n link (.settle k r) = f.cancelsOther k x
  completions : ∀ r, S.Comes (.complete (.boundary k) r) ↔
    (f.kind = .both ∧ ∃ v, Paired (S.ends k) v ∧ r = .ok v) ∨
      ∃ m ∈ S.past, ∃ e x r', m.call = some (.deliver e (.settle k x) r') ∧ r = x.afterCancel r'

/-- What follows a call, if it is about the fork. -/
theorem mem_step_of_fork {σ : Store} {k : ForkId} {f : Fork} (hf : σ.fork? k = some f)
    {a a' : Activity} (ha' : a' ∈ (a.step σ).2) {m : Matter} (hm : m ∈ a'.carries)
    (hb : m.boundary? = some k) :
    (∃ e x r, a = .deliver e (.side k x) r ∧ a' ∈ f.answer k x r) ∨
      ∃ e x r, a = .deliver e (.settle k x) r ∧ a' = .complete (.boundary k) (x.afterCancel r) := by
  have hmatters : m ∈ a.matters σ := by
    rw [← (a.step_does σ).matters]
    exact List.mem_flatMap.2 ⟨a', ha', hm⟩
  rcases a.of_matter_fork hmatters hb hf with ⟨e, x, r, rfl⟩ | ⟨e, x, r, rfl, -⟩
  · refine .inl ⟨e, x, r, rfl, ?_⟩
    rw [← Store.endSide_calls hf]
    exact ha'
  · refine .inr ⟨e, x, r, rfl, ?_⟩
    simp only [Activity.step, Sink.receive, hf] at ha'
    exact List.mem_singleton.1 ha'

theorem Forked.input {k : ForkId} {f : Fork} {S : Session} (h : Forked k f S) (i : Input) :
    Forked k f (S.record none (i.step S.store) S.calls) := by
  have hnext : ∀ {a m}, m ∈ Activity.carries a → a ∉ (i.step S.store).2 := fun hm ha => by
    have hmatters := List.mem_flatMap.2 ⟨_, ha, hm⟩
    rw [(i.step_does S.store).matters] at hmatters
    exact List.not_mem_nil hmatters
  refine ⟨fun n link r => ?_, fun r => ?_⟩
  · rw [comes_input, or_iff_right (hnext (.head _)), ends_input]
    exact h.settlers n link r
  · rw [comes_input, or_iff_right (hnext (.head _)), ends_input, h.completions]
    simp

theorem Forked.call {k : ForkId} {f : Fork} {S : Session} (h : Forked k f S) (hfresh : f.Fresh)
    (hfork : S.store.fork? k = some (f.after (S.ends k))) {place : Nat} {a : Activity}
    (ha : S.calls[place]? = some a) (hnodup : (((a.end? k).toList ++ S.ends k).map Prod.fst).Nodup) :
    Forked k f (S.record (some a) (a.step S.store) (S.calls.eraseIdx place)) := by
  -- what follows the call if it is the end of a side, and if it is not
  have hside : ∀ {e x r a'}, a = .deliver e (.side k x) r →
      (a' ∈ (a.step S.store).2 ↔ a' ∈ (f.after (S.ends k)).answer k x r) := by
    rintro e x r a' rfl
    rw [← Store.endSide_calls hfork]
    rfl
  have hend : ∀ {e x r}, a = .deliver e (.side k x) r → a.end? k = some (x, r) := by
    rintro e x r rfl
    exact if_pos rfl
  refine ⟨fun n link r => ?_, fun r => ?_⟩
  · rw [comes_call ha, ends_call]
    constructor
    · rintro (hnew | hold)
      · rcases mem_step_of_fork hfork hnew (.head _) rfl with ⟨e, x, r', rfl, hanswer⟩ | ⟨e, x, r', -, ha'⟩
        · rw [hend rfl] at hnodup ⊢
          rcases (hfresh.mem_answer hnodup).1 hanswer with ⟨-, hdecides, ha'⟩ | ⟨-, v, -, ha'⟩
          · exact ⟨(x, r'), hdecides, ha'⟩
          · cases ha'
        · cases ha'
      · obtain ⟨x, hx, ha'⟩ := (h.settlers n link r).1 hold
        refine ⟨x, ?_, ha'⟩
        cases a.end? k with
        | none => exact hx
        | some y => exact ForkKind.decider?_stays hx
    · rintro ⟨x, hx, ha'⟩
      cases hend' : a.end? k with
      | none =>
        rw [hend'] at hx
        exact .inr ((h.settlers n link r).2 ⟨x, hx, ha'⟩)
      | some y =>
        obtain ⟨e, rfl⟩ := a.of_end? hend'
        rw [hend'] at hx hnodup
        cases hold : f.kind.decider? (S.ends k) with
        | some z =>
          obtain rfl : z = x := Option.some.inj ((ForkKind.decider?_stays hold).symm.trans hx)
          exact .inr ((h.settlers n link r).2 ⟨z, hold, ha'⟩)
        | none =>
          obtain rfl : y = x := by
            have hfirst := hx
            rw [Option.toList_some, List.singleton_append, ForkKind.decider?_cons, hold,
              Option.none_or] at hfirst
            split at hfirst <;> cases hfirst
            rfl
          exact .inl ((hside rfl).2 ((hfresh.mem_answer hnodup).2 (.inl ⟨hold, hx, ha'⟩)))
  · rw [comes_call ha, ends_call]
    constructor
    · rintro (hnew | hold)
      · rcases mem_step_of_fork hfork hnew (.head _) rfl with ⟨e, x, r', rfl, hanswer⟩ | ⟨e, x, r', rfl, ha'⟩
        · rw [hend rfl] at hnodup ⊢
          rcases (hfresh.mem_answer hnodup).1 hanswer with ⟨-, -, ha'⟩ | ⟨hkind, v, hpaired, ha'⟩
          · cases ha'
          · cases ha'
            exact .inl ⟨hkind, v, hpaired, rfl⟩
        · cases ha'
          exact .inr ⟨_, .head _, e, x, r', rfl, rfl⟩
      · rcases (h.completions r).1 hold with ⟨hkind, v, ⟨b, c, hv, hleft, hright⟩, hr⟩ | ⟨m, hm, hdelivered⟩
        · exact .inl ⟨hkind, v, ⟨b, c, hv, List.mem_append_right _ hleft, List.mem_append_right _ hright⟩, hr⟩
        · exact .inr ⟨m, .tail _ hm, hdelivered⟩
    · rintro (⟨hkind, v, hpaired, rfl⟩ | ⟨m, hm, e, x, r', hcall, rfl⟩)
      · cases hend' : a.end? k with
        | none =>
          rw [hend'] at hpaired
          exact .inr ((h.completions _).2 (.inl ⟨hkind, v, hpaired, rfl⟩))
        | some y =>
          obtain ⟨e, rfl⟩ := a.of_end? hend'
          rw [hend'] at hpaired hnodup
          exact .inl ((hside rfl).2 ((hfresh.mem_answer hnodup).2 (.inr ⟨hkind, v, hpaired, rfl⟩)))
      · rcases List.mem_cons.1 hm with rfl | hm
        · cases hcall
          left
          simp only [Activity.step, Sink.receive, hfork]
          exact .head _
        · exact .inr ((h.completions _).2 (.inr ⟨m, hm, e, x, r', hcall, rfl⟩))

/-- **In every reachable state** the fork has been dealt with. -/
theorem Forks.forked (h : Forks kind p q on fs l₀ place cs₀) (cs : List Choice) :
    Forked (after cs₀).store.boundaries.size ((after cs₀).store.newFork kind l₀.link)
      (after (cs ++ .call place :: cs₀)) := by
  induction cs with
  | nil =>
    show Forked _ _ (after (.call place :: cs₀))
    refine ⟨fun n link r => ⟨fun ha => absurd ha (h.not_comes (.head _) rfl), ?_⟩,
      fun r => ⟨fun ha => absurd ha (h.not_comes (.head _) rfl), ?_⟩⟩
    · rintro ⟨x, hx, -⟩
      rw [h.ends] at hx
      cases hx
    · rintro (⟨-, v, ⟨a, b, -, hleft, -⟩, -⟩ | ⟨m, hm, e, x, r', hcall, -⟩)
      · rw [h.ends] at hleft
        exact (List.not_mem_nil hleft).elim
      · -- no execution was for this fork before
        obtain ⟨prog, others, -, hafter⟩ := h.opened
        rw [hafter] at hm
        rcases List.mem_cons.1 hm with rfl | hm
        · cases hcall
        · have hbegan := (began_of_delivered hm hcall).1
          have hconcluded := (orderly cs₀).began e _ (after cs₀).store.boundaries.size hbegan (.head _)
          exact absurd (Answers.lt (r := .ok .unit) (.inl hconcluded)) (Nat.lt_irrefl _)
  | cons x cs ih =>
    rw [List.cons_append]
    cases x with
    | input i => exact ih.input i
    | call place' =>
      have hnodup := h.ends_nodup (.call place' :: cs)
      rw [List.cons_append] at hnodup
      rw [after] at hnodup ⊢
      cases ha : (after (cs ++ .call place :: cs₀)).calls[place']? with
      | none => simpa only [step, ha] using ih
      | some a =>
        rw [step_call ha] at hnodup ⊢
        rw [ends_call] at hnodup
        exact ih.call ⟨rfl, rfl, rfl⟩ (h.fork_of_ends cs) ha hnodup

/-! ## The loop that opened the fork -/

theorem Forks.registering (h : Forks kind p q on fs l₀ place cs₀) :
    (after (.call place :: cs₀)).store.boundary? (after cs₀).store.boundaries.size = some .registering := by
  obtain ⟨prog, others, -, hafter⟩ := h.opened
  rw [hafter]
  exact Array.getElem?_push_size

theorem Forks.leaving (h : Forks kind p q on fs l₀ place cs₀) :
    .work (.leaving (after cs₀).store.boundaries.size) { l₀ with stack := fs ++ l₀.stack } ∈
      (after (.call place :: cs₀)).calls := by
  obtain ⟨prog, others, -, hafter⟩ := h.opened
  rw [hafter]
  simp

/-- **The loop that opened the fork goes on from its boundary**, with a result that was offered there. -/
theorem Forks.resumed (h : Forks kind p q on fs l₀ place cs₀) {cs : List Choice} {r : Result} {l : Loop}
    (hl : (r, l) ∈ (after (cs ++ .call place :: cs₀)).resumptions (after cs₀).store.boundaries.size) :
    l = { l₀ with stack := fs ++ l₀.stack } ∧
      r ∈ (after (cs ++ .call place :: cs₀)).offers (after cs₀).store.boundaries.size :=
  resumed_of_registering h.registering h.leaving hl

end Fork

end Session

end CancelableEffects
