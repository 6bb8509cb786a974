import CancelableEffects.Proofs.Executions
import CancelableEffects.Proofs.Waits

/-!
# Loops — what holds of every loop

* `Session.Has`: a loop is at work at a stage, or waits at a boundary.
* `Loop.Takes`: a turn that a loop takes.
* **`Session.Has.moves`**: every loop came to its stage by a step of its own, by the completion of its
  boundary, or before.
* **`Session.each_from`**: what holds of every loop, and is kept while others take their steps, by the
  turns of the loop itself and when it goes on from a boundary, holds of every loop from then on.
* **`Session.follow`**: and so does what holds of one loop.
* `Session.has_unique`: an execution that is at work is nowhere else.
-/

namespace CancelableEffects

/-! ## Turns of a loop -/

/-- At this stage the loop takes the turn, above the frames `fs` of its stack. -/
inductive Loop.Takes (l : Loop) (σ : Store) : Stage → Turn → List Frame → Prop
  | looking (n : Node) (h : σ.isCancelled l.link = false) :
    Takes l σ (.looking n) (n.step l.id l.link σ) l.stack
  | handing (r : Result) (f : Frame) (fs : List Frame) (h : l.stack = f :: fs) :
    Takes l σ (.handing r) (f.resume r l.link σ) fs
  | delaying (c : Code Prog (Except Error Value)) :
    Takes l σ (.delaying c) (c.turn .delaying .delayed l.link σ) l.stack
  | suspending (c : Code Prog Prog) :
    Takes l σ (.suspending c) (c.turn .suspending .suspended l.link σ) l.stack
  | mapping (c : Code Prog Value) :
    Takes l σ (.mapping c) (c.turn .mapping .mapped l.link σ) l.stack

section Takes

variable {l : Loop} {σ : Store} {s : Stage} {t : Turn} {fs : List Frame}

theorem Loop.Takes.opens (h : l.Takes σ s t fs) : t.Opens σ := by
  cases h with
  | looking n h => exact n.step_opens _ _ σ
  | handing r f fs h => exact f.resume_opens r _ σ
  | delaying c => exact c.delaying_opens _ σ
  | suspending c => exact c.suspending_opens _ σ
  | mapping c => exact c.mapping_opens _ σ

theorem Loop.Takes.grows (h : l.Takes σ s t fs) : σ.Grows t.store := by
  cases h with
  | looking n h => exact n.step_grows _ _ σ
  | handing r f fs h => exact f.resume_grows r _ σ
  | delaying c => exact (c.delaying_plain σ).alike.grows
  | suspending c => exact (c.suspending_plain σ).alike.grows
  | mapping c => exact (c.mapping_plain σ).alike.grows

/-- The loop after the turn. -/
def Turn.loop (t : Turn) (l : Loop) (fs : List Frame) : Loop :=
  { l with link := t.link, stack := t.frames ++ fs }

theorem Loop.Takes.step (h : l.Takes σ s t fs) :
    l.step s σ = (t.store, t.calls ++ [.work t.stage (t.loop l fs)]) := by
  cases h with
  | looking n h => exact l.step_of_not_cancelled h n
  | handing r f fs h =>
    obtain ⟨e, link, stack, k⟩ := l
    subst h
    rfl
  | _ => rfl

/-- A turn leaves the connection under which the execution began. -/
theorem Loop.Takes.under (h : l.Takes σ s t fs) :
    (t.loop l fs).link.under (t.loop l fs).stack = l.link.under l.stack := by
  have happend : (t.loop l fs).link.under (t.loop l fs).stack = (t.link.under t.frames).under fs :=
    List.foldl_append
  rw [happend]
  cases h with
  | looking n h => rw [n.step_under]
  | handing r f fs h => rw [f.resume_under, h, Link.under_cons]
  | _ => rfl

/-- A frame and all below it stay on the stack until the frame receives a result. -/
theorem Loop.Takes.keeps {f : Frame} {above below : List Frame} (h : l.Takes σ s t fs)
    (hstack : l.stack = above ++ f :: below) :
    (∃ above, (t.loop l fs).stack = above ++ f :: below) ∨
      ∃ r, s = .handing r ∧ above = [] ∧ fs = below ∧ t = f.resume r l.link σ := by
  have happend : ∀ frames, ∃ above, frames ++ l.stack = above ++ f :: below := fun frames =>
    ⟨frames ++ above, by rw [hstack, List.append_assoc]⟩
  cases h with
  | handing r f' fs hl =>
    obtain ⟨rfl, hf⟩ | ⟨above, rfl, rfl⟩ := List.cons_eq_append_iff.1 (hl.symm.trans hstack)
    · obtain ⟨rfl, rfl⟩ := List.cons.inj hf
      exact .inr ⟨r, rfl, rfl, rfl, rfl⟩
    · exact .inl ⟨_ ++ above, (List.append_assoc _ _ _).symm⟩
  | looking n _ => exact .inl (happend _)
  | delaying c => exact .inl (happend _)
  | suspending c => exact .inl (happend _)
  | mapping c => exact .inl (happend _)

/-- Only by looking at a node does a loop come to a boundary. -/
theorem Loop.Takes.of_leaving {b : BoundaryId} (h : l.Takes σ s t fs) (hb : t.stage = .leaving b) :
    ∃ n, s = .looking n ∧ σ.isCancelled l.link = false ∧ t = n.step l.id l.link σ := by
  cases h with
  | looking n h => exact ⟨n, rfl, h, rfl⟩
  | handing r f fs h => exact absurd hb (f.resume_stays r l.link σ b)
  | delaying c =>
    exact absurd hb (c.turn_stays (by simp) (by rintro (m | r) b <;> simp [Stage.delayed]) l.link σ b)
  | suspending c =>
    exact absurd hb (c.turn_stays (by simp) (by rintro (m | p) b <;> simp [Stage.suspended]) l.link σ b)
  | mapping c =>
    exact absurd hb (c.turn_stays (by simp) (by rintro (m | v) b <;> simp [Stage.mapped]) l.link σ b)

/-- A loop at work is stopped, or has come to its end, or takes a turn, or comes to a boundary. -/
theorem Loop.step_takes (s : Stage) (l : Loop) (σ : Store) :
    (∃ n, s = .looking n ∧ σ.isCancelled l.link = true ∧
        l.step s σ = (σ, [.deliver l.id l.sink (.error .cancelled)])) ∨
      (∃ r, s = .handing r ∧ l.stack = [] ∧ l.step s σ = (σ, [.deliver l.id l.sink r])) ∨
      (∃ t fs, l.Takes σ s t fs) ∨ ∃ b, s = .leaving b := by
  cases s with
  | looking n =>
    cases hc : σ.isCancelled l.link with
    | true => exact .inl ⟨n, rfl, rfl, l.step_of_cancelled hc n⟩
    | false => exact .inr (.inr (.inl ⟨_, _, .looking n hc⟩))
  | handing r =>
    obtain ⟨e, link, _ | ⟨f, fs⟩, k⟩ := l
    · exact .inr (.inl ⟨r, rfl, rfl, rfl⟩)
    · exact .inr (.inr (.inl ⟨_, _, .handing r f fs rfl⟩))
  | delaying c => exact .inr (.inr (.inl ⟨_, _, .delaying c⟩))
  | suspending c => exact .inr (.inr (.inl ⟨_, _, .suspending c⟩))
  | mapping c => exact .inr (.inr (.inl ⟨_, _, .mapping c⟩))
  | leaving b => exact .inr (.inr (.inr ⟨b, rfl⟩))

/-- Only a loop that is stopped or has come to its end has its result delivered. -/
theorem Activity.step_delivers {e : ExecutionId} {k : Sink} {r : Result} {a : Activity}
    (h : .deliver e k r ∈ (a.step σ).2) :
    ∃ s l, a = .work s l ∧ l.id = e ∧
      ((∃ n, s = .looking n ∧ σ.isCancelled l.link = true) ∨ ∃ r, s = .handing r ∧ l.stack = []) := by
  by_cases hbeside : a.Beside
  · exact ((Activity.step_aside hbeside σ).apart _ h).elim
  cases a with
  | start n link k' => simp [Activity.step, Store.begin] at h
  | work s l =>
    simp only [Activity.step] at h
    obtain ⟨n, rfl, hc, hstep⟩ | ⟨r', rfl, hstack, hstep⟩ | ⟨t, fs, ht⟩ | ⟨b, rfl⟩ := l.step_takes s σ
    · rw [hstep, List.mem_singleton, Activity.deliver.injEq] at h
      exact ⟨_, l, rfl, h.1.symm, .inl ⟨n, rfl, hc⟩⟩
    · rw [hstep, List.mem_singleton, Activity.deliver.injEq] at h
      exact ⟨_, l, rfl, h.1.symm, .inr ⟨r', rfl, hstack⟩⟩
    · simp only [ht.step, List.mem_append, List.mem_singleton, reduceCtorEq, or_false] at h
      exact (ht.opens.apart _ h).elim
    · simp only [Loop.step, Store.leave] at h
      split at h <;> simp at h
  | complete c r' =>
    cases c with
    | boundary b =>
      simp only [Activity.step, Completer.complete, Store.completeBoundary] at h
      split at h <;> simp at h
    | _ => exact absurd trivial hbeside
  | _ => exact absurd trivial hbeside

end Takes

/-! ## The loops of a session -/

namespace Session

/-- The loop is at work at the stage, or waits at the boundary to which it has come. -/
def Has (s : Stage) (l : Loop) (S : Session) : Prop :=
  .work s l ∈ S.calls ∨ ∃ b, s = .leaving b ∧ S.store.boundary? b = some (.parked l)

/-- How the choice brings the loop to the stage. -/
inductive Moves (S : Session) (x : Choice) (s : Stage) (l : Loop) : Prop
  | stays (h : S.Has s l)
  | begins (place : Nat) (n : Node) (link : Link) (k : Sink) (hx : x = .call place)
    (hcall : S.calls[place]? = some (.start n link k)) (hs : s = .looking n)
    (hl : l = (S.store.begin link k).2)
  | turns (place : Nat) (s₀ : Stage) (l₀ : Loop) (t : Turn) (fs : List Frame) (hx : x = .call place)
    (hcall : S.calls[place]? = some (.work s₀ l₀)) (ht : l₀.Takes S.store s₀ t fs)
    (hs : s = t.stage) (hl : l = t.loop l₀ fs)
  | goesOn (place : Nat) (b : BoundaryId) (r : Result) (hx : x = .call place)
    (hcall : S.calls[place]? = some (.work (.leaving b) l))
    (hready : S.store.boundary? b = some (.ready r)) (hs : s = .looking (.result r))
  | wakes (place : Nat) (b : BoundaryId) (r : Result) (hx : x = .call place)
    (hcall : S.calls[place]? = some (.complete (.boundary b) r))
    (hparked : S.store.boundary? b = some (.parked l)) (hs : s = .looking (.result r))

section Moves

variable {S : Session} {call : Option Activity} {others : List Activity} {s : Stage} {l : Loop}

/-- A step in which no loop is at work leaves the loops where they are. -/
theorem Has.of_aside {next : Next} (h : (S.record call next others).Has s l)
    (hnext : next.Aside S.store) (hothers : ∀ a ∈ others, a ∈ S.calls) : S.Has s l := by
  obtain h | ⟨b, hb, hl⟩ := h
  · obtain h | h := List.mem_append.1 h
    · exact (hnext.apart _ h).elim
    · exact .inl (hothers _ h)
  · rw [record_store, hnext.boundary?] at hl
    exact .inr ⟨b, hb, hl⟩

/-- After a turn there are the loop that took it and those that were there before. -/
theorem Has.of_turn {l' : Loop} {t : Turn}
    (h : (S.record call (t.store, t.calls ++ [.work t.stage l']) others).Has s l)
    (ht : t.Opens S.store) (hothers : ∀ a ∈ others, a ∈ S.calls) :
    s = t.stage ∧ l = l' ∨ S.Has s l := by
  obtain h | ⟨b, hb, hl⟩ := h
  · simp only [record_calls, List.mem_append, List.mem_singleton, Activity.work.injEq] at h
    obtain (h | h) | h := h
    · exact (ht.apart _ h).elim
    · exact .inl h
    · exact .inr (.inl (hothers _ h))
  · refine .inr (.inr ⟨b, hb, ?_⟩)
    change t.store.boundaries.cells[b]? = _ at hl
    obtain ⟨hcells, -⟩ | ⟨hcells, -⟩ := ht.cells <;> rw [hcells] at hl
    · exact hl
    · rw [Array.getElem?_push] at hl
      split at hl
      · cases hl
      · exact hl

/-- When a loop has delivered its result, the others are where they were. -/
theorem Has.of_end {e : ExecutionId} {k : Sink} {r : Result}
    (h : (S.record call (S.store, [.deliver e k r]) others).Has s l)
    (hothers : ∀ a ∈ others, a ∈ S.calls) : S.Has s l := by
  obtain h | h := h
  · simp only [record_calls, List.mem_append, List.mem_singleton, reduceCtorEq, false_or] at h
    exact .inl (hothers _ h)
  · exact .inr h

theorem Has.moves_leave {place : Nat} {b : BoundaryId} {l₀ : Loop}
    (hcall : S.calls[place]? = some (.work (.leaving b) l₀))
    (h : (S.record (some (.work (.leaving b) l₀)) (S.store.leave b l₀)
      (S.calls.eraseIdx place)).Has s l) : S.Moves (.call place) s l := by
  have hothers : ∀ a ∈ S.calls.eraseIdx place, a ∈ S.calls := fun a ha => List.mem_of_mem_eraseIdx ha
  revert h
  unfold Store.leave
  split
  · rename_i r hr
    rintro (h | ⟨b', hb, hl⟩)
    · simp only [record_calls, List.mem_append, List.mem_singleton, Activity.work.injEq] at h
      obtain ⟨rfl, rfl⟩ | h := h
      · exact .goesOn place b r rfl hcall hr rfl
      · exact .stays (.inl (hothers _ h))
    · obtain ⟨-, h⟩ | h := Store.boundary?_of_setBoundary hl
      · cases h
      · exact .stays (.inr ⟨b', hb, h⟩)
  · rintro (h | ⟨b', rfl, hl⟩)
    · exact .stays (.inl (hothers _ h))
    · obtain ⟨rfl, h⟩ | h := Store.boundary?_of_setBoundary hl
      · cases h
        exact .stays (.inl (List.mem_of_getElem? hcall))
      · exact .stays (.inr ⟨b', rfl, h⟩)
  · rintro (h | h)
    · exact .stays (.inl (hothers _ h))
    · exact .stays (.inr h)

theorem Has.moves_complete {place : Nat} {b : BoundaryId} {r : Result}
    (hcall : S.calls[place]? = some (.complete (.boundary b) r))
    (h : (S.record (some (.complete (.boundary b) r)) (S.store.completeBoundary b r)
      (S.calls.eraseIdx place)).Has s l) : S.Moves (.call place) s l := by
  have hothers : ∀ a ∈ S.calls.eraseIdx place, a ∈ S.calls := fun a ha => List.mem_of_mem_eraseIdx ha
  revert h
  unfold Store.completeBoundary
  split
  · rintro (h | ⟨b', hs, hl⟩)
    · exact .stays (.inl (hothers _ h))
    · obtain ⟨-, h⟩ | h := Store.boundary?_of_setBoundary hl
      · cases h
      · exact .stays (.inr ⟨b', hs, h⟩)
  · rename_i l₀ hl₀
    rintro (h | ⟨b', hs, hl⟩)
    · simp only [record_calls, List.mem_append, List.mem_singleton, Activity.work.injEq] at h
      obtain ⟨rfl, rfl⟩ | h := h
      · exact .wakes place b r rfl hcall hl₀ rfl
      · exact .stays (.inl (hothers _ h))
    · obtain ⟨-, h⟩ | h := Store.boundary?_of_setBoundary hl
      · cases h
      · exact .stays (.inr ⟨b', hs, h⟩)
  · rintro (h | h)
    · exact .stays (.inl (hothers _ h))
    · exact .stays (.inr h)

/-- **Every loop came to its stage by a step of its own, by the completion of its boundary, or
before.** -/
theorem Has.moves {x : Choice} (h : (S.step x).Has s l) : S.Moves x s l := by
  cases x with
  | input i => exact .stays (h.of_aside (i.step_aside _) fun _ ha => ha)
  | call place =>
    unfold step at h
    dsimp only at h
    split at h
    · rename_i a hcall
      have hothers : ∀ a ∈ S.calls.eraseIdx place, a ∈ S.calls :=
        fun a ha => List.mem_of_mem_eraseIdx ha
      by_cases hbeside : a.Beside
      · exact .stays (h.of_aside (Activity.step_aside hbeside _) hothers)
      cases a with
      | start n link k =>
        obtain h | ⟨b, hb, hl⟩ := h
        · obtain h | h := List.mem_append.1 h
          · obtain ⟨rfl, rfl⟩ : s = .looking n ∧ l = _ := by simpa [Activity.step] using h
            exact .begins place n link k rfl hcall rfl rfl
          · exact .stays (.inl (hothers _ h))
        · exact .stays (.inr ⟨b, hb, hl⟩)
      | work s₀ l₀ =>
        obtain ⟨n, rfl, -, hstep⟩ | ⟨r, rfl, -, hstep⟩ | ⟨t, fs, ht⟩ | ⟨b, rfl⟩ :=
          l₀.step_takes s₀ S.store
        · simp only [Activity.step, hstep] at h
          exact .stays (h.of_end hothers)
        · simp only [Activity.step, hstep] at h
          exact .stays (h.of_end hothers)
        · simp only [Activity.step, ht.step] at h
          obtain ⟨rfl, rfl⟩ | h := h.of_turn ht.opens hothers
          · exact .turns place s₀ l₀ t fs rfl hcall ht rfl rfl
          · exact .stays h
        · exact h.moves_leave hcall
      | complete c r =>
        cases c with
        | boundary b => exact h.moves_complete hcall
        | _ => exact absurd trivial hbeside
      | _ => exact absurd trivial hbeside
    · exact .stays h

end Moves

section Each

variable {P : Session → Stage → Loop → Prop}

/-- **What holds of every loop holds of every loop from then on** if it is kept while others take
their steps, holds when an execution begins, and is kept by the turns of the loop itself and when it
goes on from a boundary. -/
theorem each_from {cs₀ : List Choice} (base : ∀ s l, (after cs₀).Has s l → P (after cs₀) s l)
    (kept : ∀ {S call next others s l}, S.store.Grows next.1 → P S s l →
      P (S.record call next others) s l)
    (begun : ∀ {cs n link k others}, .start n link k ∈ (after (cs ++ cs₀)).calls →
      P ((after (cs ++ cs₀)).record (some (.start n link k))
        ((Activity.start n link k).step (after (cs ++ cs₀)).store) others) (.looking n)
        ((after (cs ++ cs₀)).store.begin link k).2)
    (turned : ∀ {cs s l t fs others}, .work s l ∈ (after (cs ++ cs₀)).calls →
      P (after (cs ++ cs₀)) s l → l.Takes (after (cs ++ cs₀)).store s t fs →
      P ((after (cs ++ cs₀)).record (some (.work s l))
        (t.store, t.calls ++ [.work t.stage (t.loop l fs)]) others) t.stage (t.loop l fs))
    (resumed : ∀ {S b l r}, S.store.Ripe b r → P S (.leaving b) l → P S (.looking (.result r)) l)
    (cs : List Choice) : ∀ s l, (after (cs ++ cs₀)).Has s l → P (after (cs ++ cs₀)) s l := by
  induction cs with
  | nil => exact base
  | cons x cs ih =>
    intro s l h
    change ((after (cs ++ cs₀)).step x).Has s l at h
    change P ((after (cs ++ cs₀)).step x) s l
    have hapt := apt (cs ++ cs₀)
    have hgrows := step_grows (after (cs ++ cs₀)) x
    have hstays : ∀ {s l}, P (after (cs ++ cs₀)) s l → P ((after (cs ++ cs₀)).step x) s l := by
      intro s l h
      obtain hx | ⟨call, next, others, hx, hgrows⟩ := step_eq (after (cs ++ cs₀)) x <;> rw [hx]
      · exact h
      · exact kept hgrows h
    cases h.moves with
    | stays h => exact hstays (ih s l h)
    | begins place n link k hx hcall hs hl =>
      subst hx hs hl
      rw [step_call hcall]
      exact begun (List.mem_of_getElem? hcall)
    | turns place s₀ l₀ t fs hx hcall ht hs hl =>
      subst hx hs hl
      have hmem := List.mem_of_getElem? hcall
      rw [step_call hcall, Activity.step, ht.step]
      exact turned hmem (ih s₀ l₀ (.inl hmem)) ht
    | goesOn place b r hx hcall hready hs =>
      subst hs
      exact resumed ((hapt.1.ready b r hready).grows hgrows)
        (hstays (ih _ l (.inl (List.mem_of_getElem? hcall))))
    | wakes place b r hx hcall hparked hs =>
      subst hs
      have hripe : (after (cs ++ cs₀)).store.Ripe b r := hapt.2 _ (List.mem_of_getElem? hcall)
      exact resumed (hripe.grows hgrows) (hstays (ih _ l (.inr ⟨b, rfl, hparked⟩)))

/-- **What holds of every loop** if it holds when an execution begins, and is kept while others take
their steps, by the turns of the loop itself and when it goes on from a boundary. -/
theorem each
    (kept : ∀ {S call next others s l}, S.store.Grows next.1 → P S s l →
      P (S.record call next others) s l)
    (begun : ∀ {cs n link k others}, .start n link k ∈ (after cs).calls →
      P ((after cs).record (some (.start n link k))
        ((Activity.start n link k).step (after cs).store) others) (.looking n)
        ((after cs).store.begin link k).2)
    (turned : ∀ {cs s l t fs others}, .work s l ∈ (after cs).calls → P (after cs) s l →
      l.Takes (after cs).store s t fs → P ((after cs).record (some (.work s l))
        (t.store, t.calls ++ [.work t.stage (t.loop l fs)]) others) t.stage (t.loop l fs))
    (resumed : ∀ {S b l r}, S.store.Ripe b r → P S (.leaving b) l → P S (.looking (.result r)) l)
    (cs : List Choice) : ∀ s l, (after cs).Has s l → P (after cs) s l := by
  have h := @each_from P [] (by simp [Has, after, Store.boundary?]) kept begun turned resumed cs
  rwa [List.append_nil] at h

end Each

/-- The frames of a loop stand where they may. -/
theorem fits_of_has {cs : List Choice} {s : Stage} {l : Loop} (h : (after cs).Has s l) :
    (after cs).store.Fits l.id l.link l.stack := by
  obtain h | ⟨b, -, hl⟩ := h
  · exact ((fits cs).2 _ h).2
  · exact ((fits cs).1.parked b l hl).2

/-- An execution is there as a loop if it is at work or waits at a boundary. -/
theorem has_of_held {S : Session} {e : ExecutionId} (h : 0 < S.working e + S.parked e) :
    ∃ s l, S.Has s l ∧ l.id = e := by
  by_cases hworking : 0 < S.working e
  · obtain ⟨a, ha, hworks⟩ := List.countP_pos_iff.1 hworking
    cases a with
    | work s l => exact ⟨s, l, .inl ha, by simpa using hworks⟩
    | _ => cases hworks
  · have hparked : 0 < S.parked e := by omega
    obtain ⟨x, hx, hparks⟩ := Array.countP_pos_iff.1 hparked
    obtain ⟨b, hb⟩ := Array.mem_iff_getElem?.1 hx
    cases x with
    | parked l => exact ⟨_, l, .inr ⟨b, rfl, hb⟩, by simpa [Boundary.parks] using hparks⟩
    | _ => cases hparks

theorem held_of_has {S : Session} {s : Stage} {l : Loop} (h : S.Has s l) :
    0 < S.working l.id + S.parked l.id := by
  obtain h | ⟨b, -, hl⟩ := h
  · exact Nat.add_pos_left (List.countP_pos_iff.2 ⟨_, h, by simp⟩) _
  · exact Nat.add_pos_right _
      (Array.countP_pos_iff.2 ⟨_, Array.mem_of_getElem? hl, by simp [Boundary.parks]⟩)

/-- An execution that is there as a loop has begun. -/
theorem lt_executions {cs : List Choice} {s : Stage} {l : Loop} (h : (after cs).Has s l) :
    l.id < (after cs).store.executions := by
  have hledger := ledger l.id cs
  have hheld := held_of_has h
  unfold holders at hledger
  split at hledger
  · assumption
  · omega

/-- **An execution is in one place.** -/
theorem has_unique {cs : List Choice} {s s' : Stage} {l l' : Loop} (h : (after cs).Has s l)
    (h' : (after cs).Has s' l') (hid : l'.id = l.id) : s' = s ∧ l' = l := by
  have hledger := ledger l.id cs
  have hle : (after cs).working l.id + (after cs).parked l.id ≤ 1 := by
    unfold holders at hledger
    split at hledger <;> omega
  have hworking : ∀ {s' l'}, .work s' l' ∈ (after cs).calls → l'.id = l.id →
      0 < (after cs).working l.id := fun hm hid => List.countP_pos_iff.2 ⟨_, hm, by simp [hid]⟩
  have hparked : ∀ {b l'}, (after cs).store.boundary? b = some (.parked l') → l'.id = l.id →
      0 < (after cs).parked l.id := fun hl hid =>
    Array.countP_pos_iff.2 ⟨_, Array.mem_of_getElem? hl, by simp [Boundary.parks, hid]⟩
  obtain h | ⟨b, rfl, hl⟩ := h <;> obtain h' | ⟨b', rfl, hl'⟩ := h'
  · have hmem : ∀ s' l', .work s' l' ∈ (after cs).calls → l'.id = l.id →
        Activity.work s' l' ∈ (after cs).calls.filter (·.worksOn l.id) := fun s' l' hm hid =>
      List.mem_filter.2 ⟨hm, by simp [hid]⟩
    have hlength : ((after cs).calls.filter (·.worksOn l.id)).length ≤ 1 := by
      rw [← List.countP_eq_length_filter]
      exact Nat.le_of_add_right_le hle
    have h₁ := hmem s l h rfl
    have h₂ := hmem s' l' h' hid
    generalize (after cs).calls.filter (·.worksOn l.id) = calls at h₁ h₂ hlength
    obtain _ | ⟨a, _ | ⟨a', calls⟩⟩ := calls
    · simp at h₁
    · rw [List.mem_singleton] at h₁ h₂
      simpa using h₂.trans h₁.symm
    · simp at hlength
  · have := hworking h rfl
    have := hparked hl' hid
    omega
  · have := hworking h' hid
    have := hparked hl rfl
    omega
  · by_cases hb : b' = b
    · subst hb
      cases hl.symm.trans hl'
      exact ⟨rfl, rfl⟩
    · -- without the one loop the other is still there
      have hset := Store.parked_setBoundary (e := l.id) (x := .resumed) hl
      have hstill : ((after cs).store.setBoundary b .resumed).boundary? b' = some (.parked l') := by
        rw [Store.boundary?_setBoundary_ne hb, hl']
      have hpos : 0 < ((after cs).store.setBoundary b .resumed).parked l.id :=
        Array.countP_pos_iff.2 ⟨_, Array.mem_of_getElem? hstill, by simp [Boundary.parks, hid]⟩
      have hsum : (after cs).parked l.id = (after cs).store.parked l.id := rfl
      simp [Boundary.parks] at hset
      omega

/-- **What holds of a loop holds from then on** if it is kept while others take their steps, by the
turns of the loop itself and when it goes on from a boundary. -/
theorem follow {P : Session → Stage → Loop → Prop} {cs₀ : List Choice} {s₀ : Stage} {l₀ : Loop}
    (hl₀ : (after cs₀).Has s₀ l₀) (base : P (after cs₀) s₀ l₀)
    (kept : ∀ {S call next others s l}, S.store.Grows next.1 → P S s l →
      P (S.record call next others) s l)
    (turned : ∀ {cs s l t fs others}, .work s l ∈ (after (cs ++ cs₀)).calls → l.id = l₀.id →
      P (after (cs ++ cs₀)) s l → l.Takes (after (cs ++ cs₀)).store s t fs →
      P ((after (cs ++ cs₀)).record (some (.work s l))
        (t.store, t.calls ++ [.work t.stage (t.loop l fs)]) others) t.stage (t.loop l fs))
    (resumed : ∀ {S b l r}, S.store.Ripe b r → P S (.leaving b) l → P S (.looking (.result r)) l)
    (cs : List Choice) (s : Stage) (l : Loop) (hl : (after (cs ++ cs₀)).Has s l)
    (hid : l.id = l₀.id) : P (after (cs ++ cs₀)) s l := by
  revert s l
  refine each_from (P := fun S s l => l.id = l₀.id → P S s l) ?_ ?_ ?_ ?_ ?_ cs
  · intro s l hl hid
    obtain ⟨rfl, rfl⟩ := has_unique hl₀ hl hid
    exact base
  · intro S call next others s l hgrows h hid
    exact kept hgrows (h hid)
  · intro cs n link k others hstart hid
    -- an execution that begins now is another one
    have hlt := Nat.lt_of_lt_of_le (lt_executions hl₀) (executions_le _ cs)
    exact absurd hid.symm (Nat.ne_of_lt hlt)
  · intro cs s l t fs others hcall h ht hid
    exact turned hcall hid (h hid) ht
  · intro S b l r hripe h hid
    exact resumed hripe (h hid)

/-- After its turn a loop is at work at the next stage. -/
theorem work_of_takes {cs : List Choice} {place : Nat} {s : Stage} {l : Loop} {t : Turn}
    {fs : List Frame} (hcall : (after cs).calls[place]? = some (.work s l))
    (ht : l.Takes (after cs).store s t fs) :
    .work t.stage (t.loop l fs) ∈ (after (.call place :: cs)).calls := by
  change _ ∈ ((after cs).step (.call place)).calls
  simp [step, hcall, Activity.step, ht.step]

/-- An execution whose result was not handed over before has come to its end in the step after which
it is. -/
theorem of_delivers {cs : List Choice} {x : Choice} {e : ExecutionId}
    (hnone : (after cs).delivering e + (after cs).delivered e = 0)
    (hnew : 0 < (after (x :: cs)).delivering e + (after (x :: cs)).delivered e) :
    ∃ place s l, x = .call place ∧ (after cs).calls[place]? = some (.work s l) ∧ l.id = e ∧
      ((∃ n, s = .looking n ∧ (after cs).store.isCancelled l.link = true) ∨
        ∃ r, s = .handing r ∧ l.stack = []) := by
  have hdelivering : (after cs).calls.countP (·.delivers e) = 0 := Nat.eq_zero_of_add_eq_zero_right hnone
  have hdelivered : (after cs).past.countP (·.delivers e) = 0 := Nat.eq_zero_of_add_eq_zero_left hnone
  change 0 < ((after cs).step x).delivering e + ((after cs).step x).delivered e at hnew
  cases x with
  | input i =>
    have hcalls := countP_delivers_of_apart (e := e) (i.step_aside (after cs).store).apart
    simp only [delivering, delivered, step, record_calls, record_past, List.countP_append,
      List.countP_cons, hcalls, hdelivering, hdelivered] at hnew
    exact absurd hnew (Nat.lt_irrefl 0)
  | call place =>
    cases ha : (after cs).calls[place]? with
    | none =>
      simp only [delivering, delivered, step, ha, hdelivering, hdelivered] at hnew
      exact absurd hnew (Nat.lt_irrefl 0)
    | some a =>
      -- the result is among the calls of the step
      have hnot : a.delivers e = false := by
        simpa using List.countP_eq_zero.1 hdelivering a (List.mem_of_getElem? ha)
      have hothers : ((after cs).calls.eraseIdx place).countP (·.delivers e) = 0 :=
        Nat.eq_zero_of_le_zero (hdelivering ▸
          (List.eraseIdx_sublist (after cs).calls place).countP_le)
      have hpast : ((after cs).step (.call place)).delivered e = 0 := by
        simp only [delivered, step, ha, record_past, List.countP_cons, hdelivered]
        simp [Moment.delivers, hnot]
      have hnext : 0 < (a.step (after cs).store).2.countP (·.delivers e) := by
        rw [hpast] at hnew
        simpa only [delivering, step, ha, record_calls, List.countP_append, hothers, Nat.add_zero]
          using hnew
      obtain ⟨a', ha', hdelivers⟩ := List.countP_pos_iff.1 hnext
      cases a' with
      | deliver e' k r =>
        obtain rfl : e' = e := by simpa using hdelivers
        obtain ⟨s, l, rfl, hid, hends⟩ := Activity.step_delivers ha'
        exact ⟨place, s, l, rfl, ha, hid, hends⟩
      | _ => cases hdelivers

/-- **A loop stays until it is stopped or has come to its end.** -/
theorem has_next {cs : List Choice} {s : Stage} {l : Loop} (h : (after cs).Has s l) (x : Choice) :
    (∃ s' l', (after (x :: cs)).Has s' l' ∧ l'.id = l.id) ∨
      ∃ place, x = .call place ∧ (after cs).calls[place]? = some (.work s l) ∧
        ((∃ n, s = .looking n ∧ (after cs).store.isCancelled l.link = true) ∨
          ∃ r, s = .handing r ∧ l.stack = []) := by
  by_cases hstill : 0 < (after (x :: cs)).working l.id + (after (x :: cs)).parked l.id
  · exact .inl (has_of_held hstill)
  refine .inr ?_
  -- its result has been handed over meanwhile, and it was not before
  have hheld := held_of_has h
  have hbegun := lt_executions h
  have hledger := ledger l.id cs
  have hledger' := ledger l.id (x :: cs)
  have hbegun' : l.id < (after (x :: cs)).store.executions :=
    Nat.lt_of_lt_of_le hbegun (executions_le cs [x])
  rw [if_pos hbegun] at hledger
  rw [if_pos hbegun'] at hledger'
  unfold holders at hledger hledger'
  have hnone : (after cs).delivering l.id + (after cs).delivered l.id = 0 := by omega
  have hnew : 0 < (after (x :: cs)).delivering l.id + (after (x :: cs)).delivered l.id := by omega
  obtain ⟨place, s', l', rfl, hcall, hid, hends⟩ := of_delivers hnone hnew
  obtain ⟨rfl, rfl⟩ := has_unique h (.inl (List.mem_of_getElem? hcall)) hid
  exact ⟨place, rfl, hcall, hends⟩

/-- A loop that takes no turn of its own meanwhile stays at its stage, or goes on from a boundary. -/
theorem has_other {cs : List Choice} {x : Choice} {s : Stage} {l : Loop} (h : (after cs).Has s l)
    (hx : ∀ place s' l', x = .call place → (after cs).calls[place]? = some (.work s' l') →
      l'.id = l.id → ∃ b, s' = .leaving b) :
    ∃ s', (after (x :: cs)).Has s' l ∧ (s' = s ∨ ∃ b r, s = .leaving b ∧ s' = .looking (.result r)) := by
  obtain ⟨s', l', h', hid⟩ | ⟨place, rfl, hcall, hends⟩ := has_next h x
  · change ((after cs).step x).Has s' l' at h'
    cases h'.moves with
    | stays hstays =>
      obtain ⟨rfl, rfl⟩ := has_unique h hstays hid
      exact ⟨s', h', .inl rfl⟩
    | begins place n link k hx' hcall hs hl =>
      subst hl
      exact absurd hid.symm (Nat.ne_of_lt (lt_executions h))
    | turns place s₀ l₀ t fs hx' hcall ht hs hl =>
      subst hl
      obtain ⟨b, rfl⟩ := hx place s₀ l₀ hx' hcall hid
      cases ht
    | goesOn place b r hx' hcall hready hs =>
      obtain ⟨rfl, rfl⟩ := has_unique h (.inl (List.mem_of_getElem? hcall)) hid
      exact ⟨s', h', .inr ⟨b, r, rfl, hs⟩⟩
    | wakes place b r hx' hcall hparked hs =>
      obtain ⟨rfl, rfl⟩ := has_unique h (.inr ⟨b, rfl, hparked⟩) hid
      exact ⟨s', h', .inr ⟨b, r, rfl, hs⟩⟩
  · obtain ⟨b, rfl⟩ := hx place s l rfl hcall rfl
    obtain ⟨n, hn, -⟩ | ⟨r, hr, -⟩ := hends
    · cases hn
    · cases hr

/-- **Who goes on from a boundary had come there**, and looks at the result next. -/
theorem Made.of_resumption {cs : List Choice} {x : Choice} {m : Moment} {b : BoundaryId} {r : Result}
    {l : Loop} (hm : Made cs x m) (h : m.resumption? b = some (r, l)) :
    (after cs).Has (.leaving b) l ∧ (after (x :: cs)).Has (.looking (.result r)) l := by
  obtain ⟨hnext, hcall⟩ := m.of_resumption? h
  rcases hm.how with ⟨i, -, hnone, -⟩ | ⟨place, a, rfl, ha, hsome, hstep⟩
  · rcases hcall with ⟨l', hcall⟩ | ⟨r', hcall⟩ <;> cases hnone.symm.trans hcall
  refine ⟨?_, .inl ?_⟩
  · rw [hm.before] at hstep
    have hmem := List.mem_of_getElem? ha
    rcases hcall with ⟨l', hcall⟩ | ⟨r', hcall⟩ <;> cases hsome.symm.trans hcall
    · -- the loop came there only now
      have hleave : ((after cs).store.leave b l').2 = [.work (.looking (.result r)) l] := by
        rw [← hnext, hstep]
        rfl
      unfold Store.leave at hleave
      split at hleave <;> simp only [List.cons.injEq, Activity.work.injEq, reduceCtorEq] at hleave
      exact .inl (hleave.1.2 ▸ hmem)
    · have hcompletes : ((after cs).store.completeBoundary b r').2 =
          [.work (.looking (.result r)) l] := by
        rw [← hnext, hstep]
        rfl
      unfold Store.completeBoundary at hcompletes
      split at hcompletes <;>
        simp only [List.cons.injEq, Activity.work.injEq, reduceCtorEq] at hcompletes
      rename_i hparked
      exact .inr ⟨b, rfl, hcompletes.1.2 ▸ hparked⟩
  · show _ ∈ ((after cs).step (.call place)).calls
    rw [step_call ha, record_calls, ← hm.before, ← hstep, hnext]
    exact List.mem_cons_self

/-- **How a loop goes on from a boundary**: it leaves one that is ready, or a completion wakes it there. -/
theorem resumes {cs : List Choice} {x : Choice} {b : BoundaryId} {r : Result} {l : Loop}
    (h : (after cs).Has (.leaving b) l) (h' : (after (x :: cs)).Has (.looking (.result r)) l) :
    ∃ place, x = .call place ∧
      ((after cs).calls[place]? = some (.work (.leaving b) l) ∧
          (after cs).store.boundary? b = some (.ready r) ∨
        (after cs).calls[place]? = some (.complete (.boundary b) r) ∧
          (after cs).store.boundary? b = some (.parked l)) := by
  change ((after cs).step x).Has _ l at h'
  cases h'.moves with
  | stays hstays => cases (has_unique h hstays rfl).1
  | begins place n link k hx hcall hs hl =>
    subst hl
    exact absurd (lt_executions h) (Nat.lt_irrefl _)
  | turns place s₀ l₀ t fs hx hcall ht hs hl =>
    subst hl
    obtain ⟨rfl, -⟩ := has_unique h (.inl (List.mem_of_getElem? hcall)) rfl
    cases ht
  | goesOn place b' r' hx hcall hready hs =>
    cases hs
    cases (has_unique h (.inl (List.mem_of_getElem? hcall)) rfl).1
    exact ⟨place, hx, .inl ⟨hcall, hready⟩⟩
  | wakes place b' r' hx hcall hparked hs =>
    cases hs
    cases (has_unique h (.inr ⟨b', rfl, hparked⟩) rfl).1
    exact ⟨place, hx, .inr ⟨hcall, hparked⟩⟩

/-- What a loop gets that goes on from a boundary, the boundary may be completed with. -/
theorem ripe_of_resumed {cs : List Choice} {x : Choice} {b : BoundaryId} {r : Result} {l : Loop}
    (h : (after cs).Has (.leaving b) l) (h' : (after (x :: cs)).Has (.looking (.result r)) l) :
    (after cs).store.Ripe b r := by
  obtain ⟨place, -, ⟨-, hready⟩ | ⟨hcall, -⟩⟩ := resumes h h'
  · exact (apt cs).1.ready _ _ hready
  · exact (apt cs).2 _ (List.mem_of_getElem? hcall)

/-- **A loop that was at a boundary and looks at a result has gone on from there.** -/
theorem Made.resumption? {cs : List Choice} {x : Choice} {m : Moment} {b : BoundaryId} {r : Result} {l : Loop}
    (hm : Made cs x m) (h : (after cs).Has (.leaving b) l)
    (h' : (after (x :: cs)).Has (.looking (.result r)) l) : m.resumption? b = some (r, l) := by
  obtain ⟨place, rfl, ⟨hcall, hready⟩ | ⟨hcall, hparked⟩⟩ := resumes h h'
  · obtain ⟨hsome, hnext⟩ := hm.of_call hcall
    have hresumes : m.next.2 = [.work (.looking (.result r)) l] := by
      rw [hnext]
      show ((after cs).store.leave b l).2 = _
      unfold Store.leave
      rw [hready]
    have hleaver : m.leaver? b = some l := by
      rw [Moment.leaver?, hsome]
      exact if_pos rfl
    rw [Moment.resumption?, if_pos (.inl (by rw [hleaver]; rfl)), hresumes]
  · obtain ⟨hsome, hnext⟩ := hm.of_call hcall
    have hresumes : m.next.2 = [.work (.looking (.result r)) l] := by
      rw [hnext]
      show ((after cs).store.completeBoundary b r).2 = _
      unfold Store.completeBoundary
      rw [hparked]
    have hoffer : m.offer? b = some r := by
      have hlt : b < (after cs).store.boundaries.size := (Array.getElem?_eq_some_iff.1 hparked).1
      rw [Moment.offer?, hm.before, if_pos hlt, hsome]
      exact if_pos rfl
    rw [Moment.resumption?, if_pos (.inr (by rw [hoffer]; rfl)), hresumes]

/-- What two loops weigh. -/
theorem two_loops_le {S : Session} (w : Weight) {s s' : Stage} {l l' : Loop}
    (h : .work s l ∈ S.calls) (h' : S.Has s' l') (hid : l'.id ≠ l.id) :
    w.stage s + w.loop l + (w.stage s' + w.loop l') ≤ w.session S := by
  obtain h' | ⟨b, rfl, hl⟩ := h'
  · have hne : Activity.work s' l' ≠ .work s l := by
      rintro ⟨⟩
      exact hid rfl
    exact Nat.le_add_right_of_le (w.two_calls_le h h' hne)
  · have hcall : w.stage s + w.loop l ≤ w.calls S.calls := w.call_le_calls h
    have hwaiting := w.loop_le_waiting hl
    have hleaving : w.stage (.leaving b) = 0 := rfl
    unfold Weight.session
    omega

end Session

end CancelableEffects
