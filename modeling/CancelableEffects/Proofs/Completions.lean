import CancelableEffects.Proofs.Lockstep
import CancelableEffects.Proofs.Segments

/-!
# Completions — in place or from outside, which makes no difference

A step that is completed while it is registered lets its loop go on in place. A step that is completed later
finds its loop parked, and who completes it runs the loop on. Both are the same act of the execution.

* `Moment.InPlace`, `Moment.Late`, **`Session.Made.got_iff`**: the two ways in which a loop goes on from a boundary.
* `Session.CompletedInPlace`, `Session.CompletedLate`: a boundary is completed before its loop leaves it, or at any
  later moment.
* `Session.Indistinguishable`: whatever comes of one session comes of the other one.
* **`Session.CompletedLate.exists_inPlace`**, **`Session.CompletedInPlace.exists_late`**: so it is with a completion
  in place and a late one.
* `Act.AnsweredAlike`, `Act.DoneAlike`: the world answers two executions alike, and they do the same.
* **`Strand.Comes.alike`**, **`Session.completions_alike`**: who is answered alike does the same, and ends with the
  same result, however its steps are completed.
* **`Session.in_place_or_late`**: all of it.
-/

namespace CancelableEffects

/-! ## Two ways to go on -/

namespace Moment

/-- The loop comes to leave the boundary, and goes on at once, as that was completed in place. -/
def InPlace (b : BoundaryId) (r : Result) (l : Loop) (m : Moment) : Prop :=
  m.call = some (.work (.leaving b) l) ∧ m.before.boundary? b = some (.ready r)

/-- The boundary is completed from outside, and the loop that waits there goes on. -/
def Late (b : BoundaryId) (r : Result) (l : Loop) (m : Moment) : Prop :=
  m.call = some (.complete (.boundary b) r) ∧ m.before.boundary? b = some (.parked l)

end Moment

section Steps

variable {σ : Store} {b : BoundaryId} {l l' : Loop} {r r' : Result}

/-! What a boundary makes of a completion, and of a loop that leaves it. -/

theorem Activity.complete_of_registering (h : σ.boundary? b = some .registering) (r : Result) :
    (Activity.complete (.boundary b) r).step σ = (σ.setBoundary b (.ready r), []) := by
  simp only [Activity.step, Completer.complete, Store.completeBoundary, h]

theorem Activity.complete_of_parked (h : σ.boundary? b = some (.parked l)) (r : Result) :
    (Activity.complete (.boundary b) r).step σ =
      ((σ.setBoundary b .resumed).emit (.resumed b), [.work (.looking (.result r)) l]) := by
  simp only [Activity.step, Completer.complete, Store.completeBoundary, h]

theorem Activity.leave_of_registering (h : σ.boundary? b = some .registering) (l : Loop) :
    (Activity.work (.leaving b) l).step σ = ((σ.setBoundary b (.parked l)).emit (.parked b), []) := by
  simp only [Activity.step, Loop.step, Store.leave, h]

theorem Activity.leave_of_ready (h : σ.boundary? b = some (.ready r)) (l : Loop) :
    (Activity.work (.leaving b) l).step σ = (σ.setBoundary b .resumed, [.work (.looking (.result r)) l]) := by
  simp only [Activity.step, Loop.step, Store.leave, h]

/-- A loop that comes to leave a boundary goes on at once if that was completed. -/
theorem Store.of_leave (h : (σ.leave b l').2 = [.work (.looking (.result r)) l]) :
    σ.boundary? b = some (.ready r) ∧ l' = l := by
  unfold leave at h
  split at h
  · rename_i r' hcell
    cases h
    exact ⟨hcell, rfl⟩
  · cases h
  · cases h

/-- The completion of a boundary makes a loop go on if that waits there. -/
theorem Store.of_completeBoundary (h : (σ.completeBoundary b r').2 = [.work (.looking (.result r)) l]) :
    σ.boundary? b = some (.parked l) ∧ r' = r := by
  unfold completeBoundary at h
  split at h
  · cases h
  · rename_i l' hcell
    cases h
    exact ⟨hcell, rfl⟩
  · cases h

end Steps

/-- **A loop goes on from a boundary in one of two ways.** -/
theorem Session.Made.got_iff {cs : List Choice} {c : Choice} {m : Moment} {b : BoundaryId} {r : Result} {l : Loop}
    (hm : Made cs c m) : m.act? = some (.leaving b, l, .got b r) ↔ m.InPlace b r l ∨ m.Late b r l := by
  have hnext : ∀ a, m.call = some a → m.next = a.step m.before := fun a ha => by
    obtain ⟨i, -, hcall, -⟩ | ⟨place, a', -, -, hcall, hnext⟩ := hm.how
    · cases hcall.symm.trans ha
    · cases hcall.symm.trans ha
      exact hnext
  constructor
  · intro hact
    have hresumed : m.resumption? b = some (r, l) := by
      unfold Moment.act? at hact
      split at hact
      · obtain ⟨⟨r', l'⟩, hr, hx⟩ := Option.map_eq_some_iff.1 hact
        cases hx
        exact hr
      · obtain ⟨⟨r', l'⟩, hr, hx⟩ := Option.map_eq_some_iff.1 hact
        cases hx
        exact hr
      · split at hact <;> cases hact
      · cases hact
    obtain ⟨hcalls, ⟨l', hcall⟩ | ⟨r', hcall⟩⟩ := m.of_resumption? hresumed
    · have hleave : (m.before.leave b l').2 = [.work (.looking (.result r)) l] := by
        rw [← hcalls, hnext _ hcall]
        rfl
      obtain ⟨hcell, rfl⟩ := Store.of_leave hleave
      exact .inl ⟨hcall, hcell⟩
    · have hcomplete : (m.before.completeBoundary b r').2 = [.work (.looking (.result r)) l] := by
        rw [← hcalls, hnext _ hcall]
        rfl
      obtain ⟨hcell, rfl⟩ := Store.of_completeBoundary hcomplete
      exact .inr ⟨hcall, hcell⟩
  · rintro (⟨hcall, hcell⟩ | ⟨hcall, hcell⟩)
    · have hleft : m.next.2 = [.work (.looking (.result r)) l] := by
        rw [hnext _ hcall, Activity.leave_of_ready hcell]
      simp [Moment.act?, hcall, Moment.resumption?, Moment.leaver?, Activity.leaver?, hleft]
    · have hlt : b < m.before.boundaries.size := (Array.getElem?_eq_some_iff.1 hcell).1
      have hleft : m.next.2 = [.work (.looking (.result r)) l] := by
        rw [hnext _ hcall, Activity.complete_of_parked hcell]
      simp [Moment.act?, hcall, Moment.resumption?, Moment.offer?, Activity.offer?, hlt, hleft]

/-! ## At once or at any later moment -/

namespace Session

/-- The pending call takes its step. -/
def Calls (a : Activity) (cs cs' : List Choice) : Prop :=
  ∃ place, cs' = .call place :: cs ∧ (after cs).calls[place]? = some a

/-- Some things happen, but none at the boundary, and no step of the execution. -/
def Meanwhile (b : BoundaryId) (e : ExecutionId) (cs cs' : List Choice) : Prop :=
  ∃ ds later, cs' = ds ++ cs ∧ (after cs').past = later ++ (after cs).past ∧
    ∀ m ∈ later, ∀ a, m.call = some a → a.KeepsOff b e

theorem Meanwhile.refl (b : BoundaryId) (e : ExecutionId) (cs : List Choice) : Meanwhile b e cs cs :=
  ⟨[], [], rfl, rfl, fun _ h => absurd h List.not_mem_nil⟩

/-- The boundary is completed in place: its loop leaves it only then, and goes on at once. Others have done
something since. -/
def CompletedInPlace (b : BoundaryId) (r : Result) (l : Loop) (cs₀ cs : List Choice) : Prop :=
  ∃ cs₁ cs₂, Calls (.complete (.boundary b) r) cs₀ cs₁ ∧ Calls (.work (.leaving b) l) cs₁ cs₂ ∧
    Meanwhile b l.id cs₂ cs

/-- The boundary is completed from outside: its loop comes to wait there, others do something, and then it is
completed. -/
def CompletedLate (b : BoundaryId) (r : Result) (l : Loop) (cs₀ cs : List Choice) : Prop :=
  ∃ cs₁ cs₂, Calls (.work (.leaving b) l) cs₀ cs₁ ∧ Meanwhile b l.id cs₁ cs₂ ∧
    Calls (.complete (.boundary b) r) cs₂ cs

/-- Since `cs₀` every execution has done the same in both sessions, and returned the same. The same calls are pending,
and the stores differ in nothing but their pasts. -/
structure Matches (cs₀ cs₁ cs₂ : List Choice) : Prop where
  store : (after cs₁).store.Level (after cs₂).store
  calls : (after cs₁).calls.Perm (after cs₂).calls
  returned : ∀ e, (after cs₁).returned e = (after cs₂).returned e
  deeds : ∃ later₁ later₂, (after cs₁).past = later₁ ++ (after cs₀).past ∧
    (after cs₂).past = later₂ ++ (after cs₀).past ∧
      ∀ e, List.Forall₂ Act.Alike (deeds e later₁) (deeds e later₂)

/-- Whatever comes of one session comes of the other one. -/
def Indistinguishable (cs₀ cs₁ cs₂ : List Choice) : Prop :=
  (∀ es₂, ∃ es₁, Matches cs₀ (es₁ ++ cs₁) (es₂ ++ cs₂)) ∧ ∀ es₁, ∃ es₂, Matches cs₀ (es₁ ++ cs₁) (es₂ ++ cs₂)

section Exchange

variable {b : BoundaryId} {r : Result} {l : Loop} {cs cs' cs₀ cs₁ cs₂ : List Choice} {c : Choice} {m : Moment}

theorem Beside.matches {later₁ later₂ : List Moment}
    (h : Beside Store.Level [] [] (after cs₁) (after cs₂)) (habreast : Abreast cs₀ cs₀ cs₁ cs₂ later₁ later₂) :
    Matches cs₀ cs₁ cs₂ := by
  obtain ⟨rest, hrest₁, hrest₂⟩ := h.calls
  have hcalls := hrest₁.trans hrest₂.symm
  exact ⟨h.store, hcalls, habreast.returned rfl hcalls, _, _, habreast.past₁, habreast.past₂, habreast.deeds⟩

/-- Sessions with the same calls, and with stores that differ in their pasts, have the same future. -/
theorem Beside.indistinguishable {later₁ later₂ : List Moment}
    (h : Beside Store.Level [] [] (after cs₁) (after cs₂)) (habreast : Abreast cs₀ cs₀ cs₁ cs₂ later₁ later₂) :
    Indistinguishable cs₀ cs₁ cs₂ := by
  refine ⟨fun es₂ => ?_, fun es₁ => ?_⟩
  · obtain ⟨later, hpast⟩ := past_suffix cs₂ es₂
    obtain ⟨es₁, later', h', habreast'⟩ := h.run Store.level_lockstep hpast.symm fun _ _ _ _ => ⟨trivial, nofun⟩
    exact ⟨es₁, h'.matches (habreast.trans habreast')⟩
  · obtain ⟨later, hpast⟩ := past_suffix cs₁ es₁
    obtain ⟨es₂, later', h', habreast'⟩ := (h.symm Store.Level.symm).run Store.level_lockstep hpast.symm
      fun _ _ _ _ => ⟨trivial, nofun⟩
    exact ⟨es₂, (h'.symm Store.Level.symm).matches (habreast.trans habreast'.symm)⟩

/-! ### Calls that take their steps -/

namespace Calls

variable {a : Activity}

theorem exists_of_mem (h : a ∈ (after cs).calls) : ∃ cs', Calls a cs cs' := by
  obtain ⟨place, ha⟩ := List.getElem?_of_mem h
  exact ⟨_, place, rfl, ha⟩

theorem exists_rest (h : Calls a cs cs') : ∃ rest, (after cs).calls.Perm (a :: rest) := by
  obtain ⟨place, -, ha⟩ := h
  exact ⟨_, (perm_cons_eraseIdx ha).symm⟩

theorem store (h : Calls a cs cs') : (after cs').store = (a.step (after cs).store).1 := by
  obtain ⟨place, rfl, ha⟩ := h
  exact (made_call ha).store

theorem perm {rest : List Activity} (h : Calls a cs cs') (hrest : (after cs).calls.Perm (a :: rest)) :
    (after cs').calls.Perm ((a.step (after cs).store).2 ++ rest) := by
  obtain ⟨place, rfl, ha⟩ := h
  rw [calls_call ha]
  exact (perm_eraseIdx ha hrest).append_left _

end Calls

/-- The calls have been made since then, and the executions have acted. -/
def Brings (as : List Activity) (acts : ExecutionId → List Act) (cs cs' : List Choice) : Prop :=
  ∃ later, (after cs').past = later ++ (after cs).past ∧ later.filterMap Moment.call = as ∧
    ∀ e, deeds e later = acts e

theorem Brings.trans {as as' : List Activity} {acts acts' : ExecutionId → List Act} {cs'' : List Choice}
    (h : Brings as acts cs cs') (h' : Brings as' acts' cs' cs'') :
    Brings (as' ++ as) (fun e => acts e ++ acts' e) cs cs'' := by
  obtain ⟨later, hpast, rfl, hacts⟩ := h
  obtain ⟨later', hpast', rfl, hacts'⟩ := h'
  refine ⟨later' ++ later, by rw [hpast', hpast, List.append_assoc], List.filterMap_append, fun e => ?_⟩
  rw [deeds_append, hacts, hacts']

/-- What the executions do when a loop goes on from a boundary. -/
def gets (b : BoundaryId) (r : Result) (l : Loop) (e : ExecutionId) : List Act := if l.id = e then [.got b r] else []

/-- Nobody acts at a boundary from which nobody goes on. -/
theorem Calls.brings_nothing {a : Activity} (h : Calls a cs cs')
    (ha : (∃ l, a = .work (.leaving b) l) ∨ ∃ r, a = .complete (.boundary b) r)
    (hnone : (a.step (after cs).store).2 = []) :
    Brings [a] (fun _ => []) cs cs' := by
  obtain ⟨place, rfl, hplace⟩ := h
  refine ⟨[_], (made_call hplace).past, rfl, fun e => ?_⟩
  rw [deeds_cons]
  refine deedsOf_of_nil ?_
  obtain ⟨l, rfl⟩ | ⟨r, rfl⟩ := ha <;> simp [Moment.actsOf, Moment.act?, Moment.resumption?, hnone]

/-- The loop that goes on from a boundary gets the result. -/
theorem Calls.brings_result {a : Activity} (h : Calls a cs cs')
    (ha : (a = .work (.leaving b) l ∧ (after cs).store.boundary? b = some (.ready r)) ∨
      a = .complete (.boundary b) r ∧ (after cs).store.boundary? b = some (.parked l)) :
    Brings [a] (gets b r l) cs cs' := by
  obtain ⟨place, rfl, hplace⟩ := h
  have hact := (made_call hplace).got_iff.2 (ha.imp (fun h => ⟨congrArg some h.1, h.2⟩)
    fun h => ⟨congrArg some h.1, h.2⟩)
  refine ⟨[_], (made_call hplace).past, rfl, fun e => ?_⟩
  rw [deeds_cons, deedsOf_of_not_stops (not_stops_of_got hact), Moment.actsOf, hact]
  rfl

/-- The execution of a loop that waits does nothing while nobody is at its boundary. -/
theorem Meanwhile.waits {later : List Moment} (hl : (after cs).Has (.leaving b) l) {ds : List Choice}
    (hpast : (after (ds ++ cs)).past = later ++ (after cs).past)
    (hoff : ∀ m ∈ later, ∀ a, m.call = some a → a.KeepsOff b l.id) :
    (after (ds ++ cs)).Has (.leaving b) l ∧ deeds l.id later = [] := by
  refine later_induction (P := fun ds later => (∀ m ∈ later, ∀ a, m.call = some a → a.KeepsOff b l.id) →
    (after (ds ++ cs)).Has (.leaving b) l ∧ deeds l.id later = []) (fun _ => ⟨hl, rfl⟩)
      (fun c ds later hsame ih hoff => ?_) (fun c ds m later hm ih hoff => ?_) ds hpast hoff
  · rw [List.cons_append, hsame]
    exact ih hoff
  · obtain ⟨hl', hdeeds⟩ := ih fun m hm => hoff m (.tail _ hm)
    obtain ⟨hstays, hother, -⟩ | ⟨b', r, hb', hact, hgone⟩ | ⟨place, -, hcall, hleaving⟩ := fares hl' hm
    · refine ⟨hstays, ?_⟩
      rw [deeds_cons, hdeeds, deedsOf_of_nil (actsOf_of_other hother), List.append_nil]
    · obtain ⟨-, ⟨l', hcall⟩ | ⟨r', hcall⟩⟩ := m.of_resumption? (hm.resumption? hl' hgone)
      · exact absurd rfl (hoff m (.head _) _ hcall).1
      · exact absurd rfl (hoff m (.head _) _ hcall)
    · exact absurd rfl (hleaving b)

/-! ### The exchange -/

/-- A boundary that is completed in place, and one at which the loop comes to wait instead. -/
theorem beside_of_completed {cs₃ : List Choice} (hcell : (after cs₀).store.boundary? b = some .registering)
    (h₁ : Calls (.complete (.boundary b) r) cs₀ cs₁) (h₂ : Calls (.work (.leaving b) l) cs₁ cs₂)
    (h₃ : Calls (.work (.leaving b) l) cs₀ cs₃) :
    Beside (Store.Veiled b .resumed (.parked l)) [.work (.looking (.result r)) l] [.complete (.boundary b) r]
        (after cs₂) (after cs₃) ∧
      Brings [.work (.leaving b) l, .complete (.boundary b) r] (gets b r l) cs₀ cs₂ ∧
        Brings [.work (.leaving b) l] (fun _ => []) cs₀ cs₃ := by
  have hready := Activity.complete_of_registering hcell r
  have hstore₁ := h₁.store.trans (congrArg Prod.fst hready)
  have hcell₁ : (after cs₁).store.boundary? b = some (.ready r) := by
    rw [hstore₁]
    exact Store.boundary?_setBoundary hcell
  have hgone := Activity.leave_of_ready hcell₁ l
  have hparked := Activity.leave_of_registering hcell l
  have hstore₂ := h₂.store.trans (congrArg Prod.fst hgone)
  have hstore₃ := h₃.store.trans (congrArg Prod.fst hparked)
  obtain ⟨rest₁, hrest₁⟩ := h₁.exists_rest
  have hcalls₁ := h₁.perm hrest₁
  rw [hready, List.nil_append] at hcalls₁
  obtain ⟨rest, hrest⟩ := h₂.exists_rest
  have hcalls₂ := h₂.perm hrest
  rw [hgone] at hcalls₂
  have hcalls₃ := h₃.perm (hrest₁.trans (((hcalls₁.symm.trans hrest).cons _).trans (.swap ..)))
  rw [hparked, List.nil_append] at hcalls₃
  refine ⟨⟨⟨⟨(after cs₀).store.history, ?_⟩, ?_⟩, rest, hcalls₂, hcalls₃⟩, ?_, ?_⟩
  · rw [hstore₂, hstore₁, hstore₃]
    simp [Store.veil, Store.setBoundary, Store.emit, Boundaries.set]
  · rw [hstore₃]
    exact Store.boundary?_setBoundary hcell
  · exact (h₁.brings_nothing (.inr ⟨r, rfl⟩) (congrArg Prod.snd hready)).trans (h₂.brings_result (.inl ⟨rfl, hcell₁⟩))
  · exact h₃.brings_nothing (.inl ⟨l, rfl⟩) (congrArg Prod.snd hparked)

/-- The loop that has waited goes on as the other one did. -/
theorem level_of_completed {cs₃ : List Choice}
    (h : Beside (Store.Veiled b .resumed (.parked l)) [.work (.looking (.result r)) l] [.complete (.boundary b) r]
      (after cs₁) (after cs₂)) (h' : Calls (.complete (.boundary b) r) cs₂ cs₃) :
    Beside Store.Level [] [] (after cs₁) (after cs₃) ∧ Brings [.complete (.boundary b) r] (gets b r l) cs₂ cs₃ := by
  obtain ⟨⟨⟨history, hstore⟩, hcell⟩, rest, hcalls₁, hcalls₂⟩ := h
  have hgone := Activity.complete_of_parked hcell r
  have hstore₃ := h'.store.trans (congrArg Prod.fst hgone)
  have hcalls₃ := h'.perm hcalls₂
  rw [hgone] at hcalls₃
  refine ⟨⟨⟨history, ?_⟩, _, hcalls₁, hcalls₃⟩, h'.brings_result (.inr ⟨rfl, hcell⟩)⟩
  rw [hstore, hstore₃]
  rfl

/-- **So nobody can tell them apart** when others have done the same in both sessions meanwhile. -/
theorem indistinguishable_of_completed {cs₃ cs₄ ds₁ ds₂ : List Choice} {later₁ later₂ : List Moment}
    (hcell : (after cs₀).store.boundary? b = some .registering)
    (h₁ : Calls (.complete (.boundary b) r) cs₀ cs₁) (h₂ : Calls (.work (.leaving b) l) cs₁ cs₂)
    (h₃ : Calls (.work (.leaving b) l) cs₀ cs₃) (h₄ : Calls (.complete (.boundary b) r) (ds₂ ++ cs₃) cs₄)
    (hbeside : Beside (Store.Veiled b .resumed (.parked l)) [.work (.looking (.result r)) l]
      [.complete (.boundary b) r] (after (ds₁ ++ cs₂)) (after (ds₂ ++ cs₃)))
    (habreast : Abreast cs₂ cs₃ (ds₁ ++ cs₂) (ds₂ ++ cs₃) later₁ later₂)
    (hoff : ∀ m ∈ later₂, ∀ a, m.call = some a → a.KeepsOff b l.id) :
    Indistinguishable cs₀ (ds₁ ++ cs₂) cs₄ := by
  obtain ⟨hbeside₀, ⟨first₁, hpast₁, hcalled₁, hdeeds₁⟩, first₂, hpast₂, hcalled₂, hdeeds₂⟩ :=
    beside_of_completed hcell h₁ h₂ h₃
  obtain ⟨hlevel, last, hpast, hcalled, hdeeds⟩ := level_of_completed hbeside h₄
  obtain ⟨-, hwaits⟩ := Meanwhile.waits (.inr ⟨b, rfl, hbeside₀.store.2⟩) habreast.past₂ hoff
  have htogether : Abreast cs₀ cs₀ (ds₁ ++ cs₂) cs₄ (later₁ ++ first₁) (last ++ (later₂ ++ first₂)) := by
    refine ⟨?_, ?_, ?_, ?_⟩
    · rw [habreast.past₁, hpast₁, List.append_assoc]
    · rw [hpast, habreast.past₂, hpast₂, List.append_assoc, List.append_assoc]
    · rw [List.filterMap_append, List.filterMap_append, List.filterMap_append, hcalled₁, hcalled₂, hcalled]
      rw [← List.singleton_append, ← List.append_assoc]
      exact ((habreast.called.append_right _).append_right _).trans List.perm_append_comm
    · intro e
      rw [deeds_append, deeds_append, deeds_append, hdeeds₁, hdeeds₂, hdeeds, List.nil_append]
      have hothers := habreast.deeds e
      by_cases he : l.id = e
      · subst he
        rw [hwaits] at hothers ⊢
        rw [List.forall₂_nil_right_iff.1 hothers, List.append_nil, List.nil_append, gets, if_pos rfl]
        exact .cons ⟨rfl, rfl⟩ .nil
      · rw [gets, if_neg he, List.nil_append, List.append_nil]
        exact hothers
  exact hlevel.indistinguishable htogether

theorem Abreast.keepsOff {cs₁' cs₂' : List Choice} {later₁ later₂ : List Moment} {e : ExecutionId}
    (h : Abreast cs₁ cs₂ cs₁' cs₂' later₁ later₂)
    (hoff : ∀ m ∈ later₂, ∀ a, m.call = some a → a.KeepsOff b e) :
    ∀ m ∈ later₁, ∀ a, m.call = some a → a.KeepsOff b e := fun m hm a ha => by
  obtain ⟨m', hm', ha'⟩ := List.mem_filterMap.1 (h.called.mem_iff.1 (List.mem_filterMap.2 ⟨m, hm, ha⟩))
  exact hoff m' hm' a ha'

/-- **What comes of a late completion comes of one in place**, if the boundary could be completed then. -/
theorem CompletedLate.exists_inPlace (hcell : (after cs₀).store.boundary? b = some .registering)
    (hcomplete : .complete (.boundary b) r ∈ (after cs₀).calls) (h : CompletedLate b r l cs₀ cs) :
    ∃ cs', CompletedInPlace b r l cs₀ cs' ∧ Indistinguishable cs₀ cs' cs := by
  obtain ⟨cs₃, _, h₃, ⟨ds₂, later₂, rfl, hpast, hoff⟩, h₄⟩ := h
  obtain ⟨cs₁, h₁⟩ := Calls.exists_of_mem hcomplete
  obtain ⟨cs₂, h₂⟩ : ∃ cs₂, Calls (.work (.leaving b) l) cs₁ cs₂ := by
    obtain ⟨rest₁, hrest₁⟩ := h₁.exists_rest
    obtain ⟨rest₃, hrest₃⟩ := h₃.exists_rest
    have hleave := hrest₁.mem_iff.1 (hrest₃.mem_iff.2 List.mem_cons_self)
    obtain hsame | hleave := List.mem_cons.1 hleave
    · cases hsame
    · exact Calls.exists_of_mem ((h₁.perm hrest₁).mem_iff.2 (List.mem_append_right _ hleave))
  obtain ⟨ds₁, later₁, hbeside, habreast⟩ := (beside_of_completed hcell h₁ h₂ h₃).1.run
    (Store.veiled_lockstep b _ _ l.id) hpast fun m hm a ha => ⟨hoff m hm a ha, fun hmem => by
      obtain rfl := List.mem_singleton.1 hmem
      exact hoff m hm _ ha rfl⟩
  exact ⟨_, ⟨cs₁, cs₂, h₁, h₂, ds₁, later₁, rfl, habreast.past₁, habreast.keepsOff hoff⟩,
    indistinguishable_of_completed hcell h₁ h₂ h₃ h₄ hbeside habreast hoff⟩

/-- **What comes of a completion in place comes of a late one**, as late as the loop has not yet gone on. -/
theorem CompletedInPlace.exists_late (hcell : (after cs₀).store.boundary? b = some .registering)
    (h : CompletedInPlace b r l cs₀ cs) :
    ∃ cs', CompletedLate b r l cs₀ cs' ∧ Indistinguishable cs₀ cs cs' := by
  obtain ⟨cs₁, cs₂, h₁, h₂, ds₁, later₁, rfl, hpast, hoff⟩ := h
  obtain ⟨cs₃, h₃⟩ : ∃ cs₃, Calls (.work (.leaving b) l) cs₀ cs₃ := by
    obtain ⟨rest₁, hrest₁⟩ := h₁.exists_rest
    obtain ⟨rest₂, hrest₂⟩ := h₂.exists_rest
    have hleave := (h₁.perm hrest₁).mem_iff.1 (hrest₂.mem_iff.2 List.mem_cons_self)
    obtain hnew | hleave := List.mem_append.1 hleave
    · rw [Activity.complete_of_registering hcell] at hnew
      cases hnew
    · exact Calls.exists_of_mem (hrest₁.mem_iff.2 (.tail _ hleave))
  obtain ⟨ds₂, later₂, hbeside, habreast⟩ := ((beside_of_completed hcell h₁ h₂ h₃).1.symm Store.Veiled.symm).run
    (Store.veiled_lockstep b _ _ l.id) hpast fun m hm a ha => ⟨hoff m hm a ha, fun hmem => by
      obtain rfl := List.mem_singleton.1 hmem
      exact (hoff m hm _ ha).2 rfl⟩
  have hoff₂ := habreast.keepsOff hoff
  obtain ⟨cs₄, h₄⟩ : ∃ cs₄, Calls (.complete (.boundary b) r) (ds₂ ++ cs₃) cs₄ := by
    obtain ⟨rest, hrest, -⟩ := hbeside.calls
    exact Calls.exists_of_mem (hrest.mem_iff.2 List.mem_cons_self)
  exact ⟨cs₄, ⟨cs₃, _, h₃, ⟨ds₂, later₂, rfl, habreast.past₁, hoff₂⟩, h₄⟩,
    indistinguishable_of_completed hcell h₁ h₂ h₃ h₄ (hbeside.symm Store.Veiled.symm) habreast.symm hoff₂⟩

end Exchange

end Session

/-! ## The same answers -/

namespace Act

/-- The world answers both acts alike: it shows the same, or completes the boundary with the same result. -/
def Answered : Act → Act → Prop
  | did σ _ _, did τ _ _ => σ.Shows τ
  | got _ r, got _ r' => r = r'
  | _, _ => True

/-- As far as both have come, and as long as they have done the same, the world answers both alike. -/
def AnsweredAlike : List Act → List Act → Prop
  | a :: as, b :: bs => a.Answered b ∧ (a.Alike b → AnsweredAlike as bs)
  | _, _ => True

/-- As far as both have come they have done the same. -/
def DoneAlike : List Act → List Act → Prop
  | a :: as, b :: bs => a.Alike b ∧ DoneAlike as bs
  | _, _ => True

theorem Answered.symm {a b : Act} (h : a.Answered b) : b.Answered a := by
  cases a <;> cases b <;> first | exact trivial | exact Store.Shows.symm h | exact Eq.symm h

theorem AnsweredAlike.symm {as bs : List Act} (h : AnsweredAlike as bs) : AnsweredAlike bs as := by
  induction as generalizing bs with
  | nil => cases bs <;> exact trivial
  | cons a as ih =>
    cases bs with
    | nil => exact trivial
    | cons b bs => exact ⟨h.1.symm, fun halike => ih (h.2 halike.symm)⟩

end Act

namespace Strand

variable {x y z : Strand} {as bs : List Act} {r r' : Result} {link link' : Link}

/-- **A strand that is answered alike does the same.** -/
theorem Does.alike (h : x.Does as y) (h' : x.Does bs z) : (as = [] ∧ bs = [] ∧ y = z) ∨
    ∃ a b, as = [a] ∧ bs = [b] ∧ (a.Answered b → a.Alike b ∧ y = z) := by
  cases h with
  | @turns e σ t fs ht =>
    cases h' with
    | @turns e' τ t' fs' ht' =>
      by_cases hacts : x.stage.acts x.stack = true
      · refine .inr ⟨_, _, if_pos hacts, if_pos hacts, fun hshows => ?_⟩
        obtain ⟨hsame, rfl⟩ := ht.inStep ht' rfl rfl hshows
        refine ⟨⟨hsame.store, hsame.calls⟩, ?_⟩
        rw [next, next, hsame.stage, hsame.link, hsame.frames]
      · have hidle : ∀ σ t, x.stage.deed x.stack σ t = [] := fun σ t => if_neg hacts
        have hy := Does.turns ht
        have hz := Does.turns ht'
        rw [hidle] at hy hz
        exact .inl ⟨hidle σ t, hidle τ t', hy.unique hz⟩
    | gets hb r =>
      rw [hb] at ht
      cases ht
  | gets hb r =>
    cases h' with
    | turns ht' =>
      rw [hb] at ht'
      cases ht'
    | gets hb' r' =>
      obtain rfl := Stage.leaving.inj (hb.symm.trans hb')
      refine .inr ⟨_, _, rfl, rfl, fun hr => ?_⟩
      obtain rfl : r = r' := hr
      exact ⟨⟨rfl, rfl⟩, rfl⟩

/-- **So it does in a run**, and who has done less is on the way to where the other one has come. -/
theorem Comes.alike (h : x.Comes as y) (h' : x.Comes bs z) (hanswers : Act.AnsweredAlike as bs) :
    Act.DoneAlike as bs ∧ (as.length ≤ bs.length → ∃ bs₁ bs₂, bs = bs₁ ++ bs₂ ∧ bs₁.length = as.length ∧
      y.Meets bs₂ z) := by
  induction h generalizing bs with
  | here => exact ⟨trivial, fun _ => ⟨[], bs, rfl, rfl, .inl h'⟩⟩
  | @goesOn x x' y as₁ as₂ hdoes hcomes ih =>
    cases h' with
    | here =>
      refine ⟨?_, fun hlength => ?_⟩
      · cases as₁ ++ as₂ <;> exact trivial
      · have hnil : as₁ ++ as₂ = [] := List.length_eq_zero_iff.1 (Nat.le_zero.1 hlength)
        exact ⟨[], [], rfl, by rw [hnil], .inr ⟨rfl, hnil ▸ .goesOn hdoes hcomes⟩⟩
    | @goesOn _ x'' _ bs₁ bs₂ hdoes' hcomes' =>
      obtain ⟨rfl, rfl, rfl⟩ | ⟨a, b, rfl, rfl, hsame⟩ := hdoes.alike hdoes'
      · exact ih hcomes' hanswers
      · obtain ⟨hanswered, hrest⟩ := hanswers
        obtain ⟨halike, rfl⟩ := hsame hanswered
        obtain ⟨hdone, hahead⟩ := ih hcomes' (hrest halike)
        refine ⟨⟨halike, hdone⟩, fun hlength => ?_⟩
        obtain ⟨bs₃, bs₄, rfl, hlength', hmeets⟩ := hahead (by simpa using hlength)
        exact ⟨b :: bs₃, bs₄, rfl, by simp [hlength'], hmeets⟩

/-- Who has come to its end does nothing more. -/
theorem Meets.of_ended (h : (Strand.mk (.handing r) link []).Meets as z) :
    as = [] ∧ z.Comes [] ⟨.handing r, link, []⟩ := by
  obtain h | ⟨rfl, h⟩ := h
  · cases h with
    | here => exact ⟨rfl, .here⟩
    | goesOn hx =>
      cases hx with
      | turns ht => cases ht with
        | handing r f fs hstack => cases hstack
      | gets hb => cases hb
  · exact ⟨rfl, h⟩

/-- Nobody who is answered alike has done more than who has come to its end. -/
theorem Comes.length_le_of_ended (h : x.Comes as ⟨.handing r, link, []⟩) (h' : x.Comes bs z)
    (hanswers : Act.AnsweredAlike as bs) : bs.length ≤ as.length := by
  by_contra hlt
  obtain ⟨bs₁, bs₂, rfl, hlength, hmeets⟩ := (h.alike h' hanswers).2 (Nat.le_of_not_le hlt)
  rw [hmeets.of_ended.1, List.append_nil] at hlt
  exact hlt (Nat.le_of_eq hlength)

/-- **Who is answered alike ends alike.** -/
theorem Comes.ends_alike (h : x.Comes as ⟨.handing r, link, []⟩) (h' : x.Comes bs ⟨.handing r', link', []⟩)
    (hanswers : Act.AnsweredAlike as bs) : r = r' := by
  obtain ⟨bs₁, bs₂, -, -, hmeets⟩ := (h.alike h' hanswers).2 (h'.length_le_of_ended h hanswers.symm)
  cases hmeets.of_ended.2.of_ended
  rfl

end Strand

namespace Session

variable {cs₀ cs₁ cs₂ : List Choice} {s : Stage} {l : Loop} {later₁ later₂ : List Moment}

/-- **An execution that is answered alike does the same, and returns the same**, however its steps are completed:
two futures of one session, in none of which it is cancelled. -/
theorem completions_alike (hl : (after cs₀).Has s l)
    (hpast₁ : (after (cs₁ ++ cs₀)).past = later₁ ++ (after cs₀).past)
    (hpast₂ : (after (cs₂ ++ cs₀)).past = later₂ ++ (after cs₀).past)
    (hactive₁ : (after (cs₁ ++ cs₀)).store.isCancelled (l.link.under l.stack) = false)
    (hactive₂ : (after (cs₂ ++ cs₀)).store.isCancelled (l.link.under l.stack) = false)
    (hanswers : Act.AnsweredAlike (deeds l.id later₁) (deeds l.id later₂)) :
    Act.DoneAlike (deeds l.id later₁) (deeds l.id later₂) ∧
      (∀ r ∈ (after (cs₁ ++ cs₀)).returned l.id, (deeds l.id later₂).length ≤ (deeds l.id later₁).length) ∧
      (∀ r ∈ (after (cs₂ ++ cs₀)).returned l.id, (deeds l.id later₁).length ≤ (deeds l.id later₂).length) ∧
      ∀ r₁ ∈ (after (cs₁ ++ cs₀)).returned l.id, ∀ r₂ ∈ (after (cs₂ ++ cs₀)).returned l.id, r₁ = r₂ := by
  obtain ⟨z₁, hcomes₁, -, hend₁⟩ := comes_of_active hl hpast₁ hactive₁
  obtain ⟨z₂, hcomes₂, -, hend₂⟩ := comes_of_active hl hpast₂ hactive₂
  refine ⟨(hcomes₁.alike hcomes₂ hanswers).1, fun r hr => ?_, fun r hr => ?_, fun r₁ hr₁ r₂ hr₂ => ?_⟩
  · cases hend₁ r hr
    exact hcomes₁.length_le_of_ended hcomes₂ hanswers
  · cases hend₂ r hr
    exact hcomes₂.length_le_of_ended hcomes₁ hanswers.symm
  · cases hend₁ r₁ hr₁
    cases hend₂ r₂ hr₂
    exact hcomes₁.ends_alike hcomes₂ hanswers

/-- **A completion in place and a late one cannot be told apart.** A loop goes on from a boundary, and gets the
result, when it leaves one that was completed, and when the one at which it waits is completed. Whoever is about to
complete a boundary may do so before its loop leaves it, or at any later moment while others go on: whatever comes
of the one session comes of the other one, and every execution does the same in both and returns the same. And in
any two futures of a session an execution that is not cancelled does the same and returns the same, if the world
answers it alike, though any of its steps be completed in place, and any late, in each of them: once it has
returned in one it does no more in the other. -/
theorem in_place_or_late (cs₀ : List Choice) (l : Loop) :
    (∀ cs c m b r, Made cs c m → (m.act? = some (.leaving b, l, .got b r) ↔ m.InPlace b r l ∨ m.Late b r l)) ∧
      (∀ b r, (after cs₀).store.boundary? b = some .registering →
        (∀ cs, CompletedInPlace b r l cs₀ cs →
          ∃ cs', CompletedLate b r l cs₀ cs' ∧ Indistinguishable cs₀ cs cs') ∧
        (.complete (.boundary b) r ∈ (after cs₀).calls → ∀ cs, CompletedLate b r l cs₀ cs →
          ∃ cs', CompletedInPlace b r l cs₀ cs' ∧ Indistinguishable cs₀ cs' cs)) ∧
      ∀ s cs₁ cs₂ later₁ later₂, (after cs₀).Has s l →
        (after (cs₁ ++ cs₀)).past = later₁ ++ (after cs₀).past →
        (after (cs₂ ++ cs₀)).past = later₂ ++ (after cs₀).past →
        (after (cs₁ ++ cs₀)).store.isCancelled (l.link.under l.stack) = false →
        (after (cs₂ ++ cs₀)).store.isCancelled (l.link.under l.stack) = false →
        Act.AnsweredAlike (deeds l.id later₁) (deeds l.id later₂) →
          Act.DoneAlike (deeds l.id later₁) (deeds l.id later₂) ∧
            (∀ r ∈ (after (cs₁ ++ cs₀)).returned l.id, (deeds l.id later₂).length ≤ (deeds l.id later₁).length) ∧
            (∀ r ∈ (after (cs₂ ++ cs₀)).returned l.id, (deeds l.id later₁).length ≤ (deeds l.id later₂).length) ∧
            ∀ r₁ ∈ (after (cs₁ ++ cs₀)).returned l.id, ∀ r₂ ∈ (after (cs₂ ++ cs₀)).returned l.id, r₁ = r₂ :=
  ⟨fun _ _ _ _ _ hm => hm.got_iff,
    fun _ _ hcell => ⟨fun _ h => h.exists_late hcell, fun hcomplete _ h => h.exists_inPlace hcell hcomplete⟩,
    fun _ _ _ _ _ hl hpast₁ hpast₂ hactive₁ hactive₂ hanswers =>
      completions_alike hl hpast₁ hpast₂ hactive₁ hactive₂ hanswers⟩

/-- A program whose step is completed while it is registered, and that writes a line then. -/
def answered : Prog :=
  .bind (.connected fun _ c => .answer c (.ok .unit) (.ret ())) fun v => .log "resumed" (.ret (.pure v))

/-- The answer has come to the boundary, which the loop is about to leave. -/
def aboutToLeave : List Choice := List.replicate 5 (.call 0) ++ [.input (.run answered none false)]

/-- The loop that leaves it. -/
def leaver : Loop := ⟨0, none, [.bind fun v => .log "resumed" (.ret (.pure v))], .observer 0⟩

/-- The boundary is completed in place, and the program goes on. -/
def atOnceThen (steps : Nat) : List Choice := List.replicate steps (.call 0) ++ [.call 1, .call 0]

/-- The boundary is completed when the loop waits there, and the program goes on. -/
def lateThen (steps : Nat) : List Choice := List.replicate steps (.call 0) ++ [.call 0, .call 2]

/-- Nobody can tell whether the step has been completed in place or late: the line is written in both cases, and the
program returns what it was answered. -/
theorem answered_either_way :
    (∃ cs, CompletedLate 0 (.ok .unit) leaver aboutToLeave cs ∧
        Indistinguishable aboutToLeave (atOnceThen 0 ++ aboutToLeave) cs) ∧
      (∃ cs, CompletedInPlace 0 (.ok .unit) leaver aboutToLeave cs ∧
        Indistinguishable aboutToLeave cs (lateThen 0 ++ aboutToLeave)) ∧
      Act.DoneAlike (deeds 0 ((after (atOnceThen 6 ++ aboutToLeave)).past.take 8))
        (deeds 0 ((after (lateThen 6 ++ aboutToLeave)).past.take 8)) ∧
      (deeds 0 ((after (atOnceThen 6 ++ aboutToLeave)).past.take 8)).length = 2 ∧
      (after (atOnceThen 6 ++ aboutToLeave)).returned 0 = [.ok .unit] ∧
      (after (lateThen 6 ++ aboutToLeave)).returned 0 = [.ok .unit] := by
  have hcell : (after aboutToLeave).store.boundary? 0 = some .registering := rfl
  have hcomplete : (after aboutToLeave).calls[0]? = some (.complete (.boundary 0) (.ok .unit)) := rfl
  have hpending : .complete (.boundary 0) (.ok .unit) ∈ (after aboutToLeave).calls := List.mem_of_getElem? hcomplete
  have hleave : (after aboutToLeave).calls[2]? = some (.work (.leaving 0) leaver) := rfl
  have hhas : (after aboutToLeave).Has (.leaving 0) leaver := .inl (List.mem_of_getElem? hleave)
  have hinPlace : CompletedInPlace 0 (.ok .unit) leaver aboutToLeave (atOnceThen 0 ++ aboutToLeave) :=
    ⟨_, _, ⟨0, rfl, hcomplete⟩, ⟨1, rfl, rfl⟩, .refl ..⟩
  have hlate : CompletedLate 0 (.ok .unit) leaver aboutToLeave (lateThen 0 ++ aboutToLeave) :=
    ⟨_, _, ⟨2, rfl, hleave⟩, .refl .., 0, rfl, rfl⟩
  have hanswers : Act.AnsweredAlike (deeds 0 ((after (atOnceThen 6 ++ aboutToLeave)).past.take 8))
      (deeds 0 ((after (lateThen 6 ++ aboutToLeave)).past.take 8)) :=
    ⟨rfl, fun _ => ⟨⟨rfl, rfl, rfl, rfl, rfl, rfl, rfl, rfl, rfl⟩, fun _ => trivial⟩⟩
  obtain ⟨-, hcompleted, halike⟩ := in_place_or_late aboutToLeave leaver
  obtain ⟨hexists_late, hexists_inPlace⟩ := hcompleted 0 (.ok .unit) hcell
  have hdone := halike (.leaving 0) (atOnceThen 6) (lateThen 6) _ _ hhas rfl rfl rfl rfl hanswers
  exact ⟨hexists_late _ hinPlace, hexists_inPlace hpending _ hlate, hdone.1, rfl, rfl, rfl⟩

end Session

end CancelableEffects
