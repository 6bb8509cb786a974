import CancelableEffects.Proofs.Evaluation.Rules
import CancelableEffects.Proofs.Turn

/-!
# Adequacy — the loop computes what programs mean

* `Evaluates.steps`: what a phrase comes to is what a loop makes of it, whatever lies below on the
  stack of the loop.
* `exists_evaluates`: a run down to the delivery of a result passes through what the phrase on top
  comes to.
* **`delivers_iff_evaluates`**: with cancellation disabled, a loop delivers a result after some
  moves if and only if its program and then its frames come to that result with these moves.
-/

namespace CancelableEffects

open Machine

/-- The call of a loop that works on a phrase. -/
def Phrase.call : Phrase → Loop → Activity
  | stage s, l => .work s l
  | frame f r, l => .work (.handing r) { l with stack := f :: l.stack }
  | frames fs r, l => .work (.handing r) { l with stack := fs ++ l.stack }

/-- The result of the execution `e` is still owed to the sink `k`: its delivery is not all that is
being called. -/
def Owed (e : ExecutionId) (k : Sink) (calls : List Activity) : Prop :=
  ∀ r, calls ≠ [.deliver e k r]

theorem owed_append_work {e : ExecutionId} {k : Sink} {s : Stage} {l : Loop}
    (xs : List Activity) : Owed e k (xs ++ [.work s l]) := by
  intro r h
  have := congrArg List.getLast? h
  simp at this

/-! ## Turns of a loop -/

section Turns

variable {e : ExecutionId} {k : Sink} {σ σ₁ σ' : Store} {s : Stage} {l l' : Loop} {t : Turn}
  {L₁ L₂ : List Effect}

/-- The loop goes on as the turn tells, once the calls of the turn have returned. -/
def Turn.next (t : Turn) (l : Loop) : Activity :=
  .work t.stage { l with link := t.link, stack := t.frames ++ l.stack }

theorem Machine.Reaches.turn {m : Machine} (ht : l.step s σ = t.on l')
    (hc : Returns t.store t.calls L₁ σ₁)
    (h : Reaches (Owed e k) ⟨σ₁, [t.next l']⟩ L₂ m) :
    Reaches (Owed e k) ⟨σ, [.work s l]⟩ (s.effect?.toList ++ (L₁ ++ L₂)) m := by
  obtain ⟨i, hi⟩ := hc
  obtain ⟨j, hj⟩ := h
  refine ⟨i + j + 1, .step (owed_append_work []) ?_⟩
  simp only [Activity.step, ht, Turn.on, List.append_nil]
  exact (hi.frame owed_append_work).trans hj

theorem Machine.Steps.of_turn {n : Nat} {L : List Effect} {r : Result}
    (ht : l.step s σ = t.on l')
    (h : Steps (Owed e k) n ⟨σ, [.work s l]⟩ L ⟨σ', [.deliver e k r]⟩) :
    ∃ σ₁ L₁ L₂ i, Returns t.store t.calls L₁ σ₁ ∧ L = s.effect?.toList ++ (L₁ ++ L₂) ∧ i < n ∧
      Steps (Owed e k) i ⟨σ₁, [t.next l']⟩ L₂ ⟨σ', [.deliver e k r]⟩ := by
  cases h with
  | step _ h =>
    simp only [Activity.step, ht, Turn.on, List.append_nil] at h
    obtain ⟨ys, hys⟩ | ⟨i, j, σ₁, L₁, L₂, rfl, rfl, h₁, h₂⟩ := h.split
    · have := congrArg List.getLast? hys
      simp at this
    · exact ⟨σ₁, L₁, L₂, j, ⟨i, h₁⟩, rfl, by omega, h₂⟩

end Turns

/-! ## Closures -/

section Closures

variable {e : ExecutionId} {k : Sink} {σ σ' : Store} {L : List Effect} {α : Type}
  (again : Code Prog α → Stage) (done : Except String α → Stage) {l : Loop}
  (hs : ∀ c σ, l.step (again c) σ = (c.turn again done l.link σ).on l)
  (he : ∀ c, (again c).effect? = c.effect?)

include hs he

theorem Code.Runs.reaches {c : Code Prog α} {o : Except String α} (h : c.Runs σ L σ' o) :
    Reaches (Owed e k) ⟨σ, [.work (again c) l]⟩ L ⟨σ', [.work (done o) l]⟩ := by
  induction h with
  | ret a σ =>
    have h := Reaches.turn (e := e) (k := k) (hs (.ret a) σ) (.refl _) (.refl _)
    rw [he] at h
    exact h
  | panic m σ =>
    have h := Reaches.turn (e := e) (k := k) (hs (.panic m) σ) (.refl _) (.refl _)
    rw [he] at h
    exact h
  | @move c c' σ σ₁ σ₂ σ' calls L₁ L₂ o hm hc _ ih =>
    have ht : c.turn again done l.link σ =
        { store := σ₁, calls, stage := again c', link := l.link } := by
      simp [Code.turn, hm]
    rw [← he c]
    exact Reaches.turn ((hs _ _).trans (by rw [ht])) hc ih

theorem Code.exists_runs {n : Nat} {c : Code Prog α} {r : Result}
    (h : Steps (Owed e k) n ⟨σ, [.work (again c) l]⟩ L ⟨σ', [.deliver e k r]⟩) :
    ∃ σ₁ L₁ L₂ i o, c.Runs σ L₁ σ₁ o ∧ L = L₁ ++ L₂ ∧ i < n ∧
      Steps (Owed e k) i ⟨σ₁, [.work (done o) l]⟩ L₂ ⟨σ', [.deliver e k r]⟩ := by
  induction n using Nat.strongRecOn generalizing c σ L with
  | ind n ih =>
    obtain ⟨σ₁, L₁, L₂, i, hc, rfl, hi, h'⟩ := Steps.of_turn (hs _ _) h
    rw [he]
    cases hm : c.move σ with
    | mk next x =>
      obtain ⟨σ₀, calls⟩ := next
      simp only [Code.turn, hm] at hc h'
      cases x with
      | inl o =>
        -- the closure has ended: its last move made no calls
        obtain ⟨rfl, rfl, hr⟩ : σ₀ = σ ∧ calls = [] ∧ c.Runs σ [] σ o := by
          cases c <;> simp [Code.move] at hm
          · obtain ⟨⟨rfl, rfl⟩, rfl⟩ := hm
            exact ⟨rfl, rfl, .ret _ _⟩
          · obtain ⟨⟨rfl, rfl⟩, rfl⟩ := hm
            exact ⟨rfl, rfl, .panic _ _⟩
        have hc' : σ₁ = σ₀ ∧ L₁ = [] := by
          obtain ⟨j, hj⟩ := hc
          cases hj
          exact ⟨rfl, rfl⟩
        obtain ⟨rfl, rfl⟩ := hc'
        have he0 : c.effect? = none := by
          cases c <;> simp_all [Code.move, Code.effect?]
        exact ⟨σ₁, [], L₂, i, o, hr, by simp [he0], hi, h'⟩
      | inr c' =>
        obtain ⟨σ₂, L₃, L₄, j, o, hr, rfl, hj, h''⟩ := ih i hi h'
        exact ⟨σ₂, _, L₄, j, o, .move hm hc hr, by simp, by omega, h''⟩

end Closures

/-! ## From the meaning to the run -/

/-- A call of a loop that makes no other calls and lets no closure move. -/
theorem Machine.Reaches.silent {e : ExecutionId} {k : Sink} {s s' : Stage} {l l' : Loop}
    {σ : Store} {L : List Effect} {m : Machine} (hs : l.step s σ = (σ, [.work s' l']))
    (he : s.effect? = none) (h : Reaches (Owed e k) ⟨σ, [.work s' l']⟩ L m) :
    Reaches (Owed e k) ⟨σ, [.work s l]⟩ L m := by
  have ht : l.step s σ =
      Turn.on { store := σ, stage := s', link := l'.link } { l' with stack := l'.stack } := by
    rw [hs, Turn.on, List.nil_append]
    rfl
  have := Reaches.turn ht (.refl _) h
  rwa [he] at this

section Soundness

variable {e : ExecutionId} {k : Sink} {σ σ' : Store} {L : List Effect} {r : Result}

/-- What a phrase comes to is what a loop makes of it. -/
theorem Evaluates.reaches {ph : Phrase} (h : Evaluates e ph σ L σ' r) (fs : List Frame) :
    Reaches (Owed e k) ⟨σ, [ph.call ⟨e, none, fs, k⟩]⟩ L
      ⟨σ', [.work (.handing r) ⟨e, none, fs, k⟩]⟩ := by
  induction h generalizing fs with
  | pure v σ => exact .silent rfl rfl (.refl _)
  | raise x σ => exact .silent rfl rfl (.refl _)
  | delay _ ih => exact .silent rfl rfl (ih fs)
  | suspend _ ih => exact .silent rfl rfl (ih fs)
  | @bind _ f _ _ _ _ _ _ _ _ _ ih₁ ih₂ =>
    exact .silent rfl rfl ((ih₁ (.bind f :: fs)).trans (ih₂ fs))
  | @mapped _ f _ _ _ _ _ _ _ _ _ _ ih₁ ih₂ =>
    exact .silent rfl rfl ((ih₁ (.map f :: fs)).trans (ih₂ fs))
  | @recover _ h _ _ _ _ _ _ _ _ _ ih₁ ih₂ =>
    exact .silent rfl rfl ((ih₁ (.recover h :: fs)).trans (ih₂ fs))
  | @fold _ h f _ _ _ _ _ _ _ _ _ ih₁ ih₂ =>
    exact .silent rfl rfl ((ih₁ (.fold h f :: fs)).trans (ih₂ fs))
  | @uncancelable _ _ σ' L r _ ih =>
    -- the end of the region is one more node to look at
    have hend : Reaches (Owed e k) ⟨σ', [.work (.handing r) ⟨e, none, .restore none :: fs, k⟩]⟩ []
        ⟨σ', [.work (.handing r) ⟨e, none, fs, k⟩]⟩ :=
      .silent rfl rfl (.silent rfl rfl (.refl _))
    have := (ih (.restore none :: fs)).trans hend
    rw [List.append_nil] at this
    exact .silent rfl rfl this
  | @iterate _ f _ _ _ _ _ _ _ _ _ ih₁ ih₂ =>
    exact .silent rfl rfl ((ih₁ (.iterate f :: fs)).trans (ih₂ fs))
  | computes h =>
    exact h.reaches .delaying .delayed (fun _ _ => rfl) (fun _ => rfl)
  | computePanics h =>
    exact h.reaches .delaying .delayed (fun _ _ => rfl) (fun _ => rfl)
  | transforms h =>
    exact h.reaches .mapping .mapped (fun _ _ => rfl) (fun _ => rfl)
  | transformPanics h =>
    exact h.reaches .mapping .mapped (fun _ _ => rfl) (fun _ => rfl)
  | returns h _ ih =>
    have := h.reaches (e := e) (k := k) (l := ⟨e, none, fs, k⟩) .suspending .suspended
      (fun _ _ => rfl) (fun _ => rfl)
    exact this.trans (ih fs)
  | @panics _ m _ σ' L h =>
    have hp := h.reaches (e := e) (k := k) (l := ⟨e, none, fs, k⟩) .suspending .suspended
      (fun _ _ => rfl) (fun _ => rfl)
    have hend : Reaches (Owed e k) ⟨σ', [.work (Stage.suspended (.error m)) ⟨e, none, fs, k⟩]⟩ []
        ⟨σ', [.work (.handing (.error (.panic m))) ⟨e, none, fs, k⟩]⟩ :=
      .silent rfl rfl (.refl _)
    have := hp.trans hend
    rw [List.append_nil] at this
    exact this
  | mapOk _ ih => exact .silent rfl rfl (ih fs)
  | mapSkip f x σ => exact .silent rfl rfl (.refl _)
  | bindOk _ ih => exact .silent rfl rfl (ih fs)
  | bindSkip f x σ => exact .silent rfl rfl (.refl _)
  | recoverError _ ih => exact .silent rfl rfl (ih fs)
  | recoverSkip h v σ => exact .silent rfl rfl (.refl _)
  | foldOk _ ih => exact .silent rfl rfl (ih fs)
  | foldError _ ih => exact .silent rfl rfl (ih fs)
  | @iterateAgain f _ _ _ _ _ _ _ _ _ _ ih₁ ih₂ =>
    exact .silent rfl rfl ((ih₁ (.iterate f :: fs)).trans (ih₂ fs))
  | iterateDone f v σ => exact .silent rfl rfl (.silent rfl rfl (.refl _))
  | iterateSkip f σ hl hr =>
    refine .silent ?_ rfl (.refl _)
    simp only [Loop.step, Frame.resume]
    rfl
  | nil r σ => exact .refl _
  | @cons f gs _ _ _ _ _ _ _ _ _ _ ih₁ ih₂ => exact (ih₁ (gs ++ fs)).trans (ih₂ fs)
  | handing r σ => exact .refl _
  | result r σ => exact .silent rfl rfl (.refl _)
  | @completed b σ r hb =>
    have ht : (⟨e, none, fs, k⟩ : Loop).step (.leaving b) σ =
        Turn.on { store := σ.setBoundary b .resumed, stage := .looking (.result r), link := none }
          ⟨e, none, fs, k⟩ := by
      simp only [Loop.step, Store.leave, hb, Turn.on, List.nil_append]
    exact Reaches.turn ht (.refl _) (.silent rfl rfl (.refl _))
  | @node n σ _ _ _ _ _ _ _ _ _ hc _ _ ih₁ ih₂ =>
    have hl : (n.step e none σ).link = none := by simpa using n.step_link e none σ
    refine Reaches.turn (s := .looking n) rfl hc ?_
    rw [Turn.next, hl]
    exact (ih₁ _).trans (ih₂ fs)
  | frame _ hl hc _ _ ih₁ ih₂ =>
    have ht : ∀ f r σ, (⟨e, none, f :: fs, k⟩ : Loop).step (.handing r) σ =
        (f.resume r none σ).on ⟨e, none, fs, k⟩ := fun _ _ _ => rfl
    refine Reaches.turn (ht _ _ _) hc ?_
    rw [Turn.next, hl]
    exact (ih₁ _).trans (ih₂ fs)

end Soundness

/-! ## Phrases that come to one result only -/

section Inversion

variable {e : ExecutionId} {σ σ' : Store} {L : List Effect} {r r₀ : Result}

theorem Machine.Returns.of_nil (h : Returns σ [] L σ') : σ' = σ ∧ L = [] := by
  obtain ⟨n, hn⟩ := h
  cases hn
  exact ⟨rfl, rfl⟩

theorem Evaluates.of_handing (h : Evaluates e (.stage (.handing r₀)) σ L σ' r) :
    σ' = σ ∧ L = [] ∧ r = r₀ := by
  cases h
  exact ⟨rfl, rfl, rfl⟩

theorem Evaluates.of_result (h : Evaluates e (.stage (.looking (.result r₀))) σ L σ' r) :
    σ' = σ ∧ L = [] ∧ r = r₀ := by
  cases h with
  | result => exact ⟨rfl, rfl, rfl⟩
  | node hn => cases hn

theorem Evaluates.of_frames_nil (h : Evaluates e (.frames [] r₀) σ L σ' r) :
    σ' = σ ∧ L = [] ∧ r = r₀ := by
  cases h
  exact ⟨rfl, rfl, rfl⟩

theorem Evaluates.of_frames_singleton {f : Frame} (h : Evaluates e (.frames [f] r₀) σ L σ' r) :
    Evaluates e (.frame f r₀) σ L σ' r := by
  cases h with
  | cons hf hn =>
    obtain ⟨rfl, rfl, rfl⟩ := hn.of_frames_nil
    rw [List.append_nil]
    exact hf

theorem Evaluates.of_restore (h : Evaluates e (.frame (.restore none) r₀) σ L σ' r) :
    σ' = σ ∧ L = [] ∧ r = r₀ := by
  cases h with
  | frame _ _ hc h₁ h₂ =>
    obtain ⟨rfl, rfl⟩ := hc.of_nil
    obtain ⟨rfl, rfl, rfl⟩ := h₁.of_result
    obtain ⟨rfl, rfl, rfl⟩ := h₂.of_frames_nil
    exact ⟨rfl, rfl, rfl⟩

end Inversion

/-! ## The meaning of a turn -/

section OfTurn

variable {e : ExecutionId} {σ σ₁ σ₂ σ' : Store} {L₁ L₂ L₃ : List Effect} {r₁ r : Result}

/-- A node has the meaning of what it turns into, also where it has a rule of its own. -/
theorem Evaluates.of_node {n : Node}
    (hc : Returns (n.step e none σ).store (n.step e none σ).calls L₁ σ₁)
    (h₁ : Evaluates e (.stage (n.step e none σ).stage) σ₁ L₂ σ₂ r₁)
    (h₂ : Evaluates e (.frames (n.step e none σ).frames r₁) σ₂ L₃ σ' r) :
    Evaluates e (.stage (.looking n)) σ (L₁ ++ (L₂ ++ L₃)) σ' r := by
  cases hn : n.core with
  | false => exact .node hn hc h₁ h₂
  | true =>
    cases n with
    | result r₀ =>
      obtain ⟨rfl, rfl⟩ := Returns.of_nil hc
      obtain ⟨rfl, rfl, rfl⟩ := Evaluates.of_handing h₁
      obtain ⟨rfl, rfl, rfl⟩ := Evaluates.of_frames_nil h₂
      exact .result _ _
    | program p =>
      cases p with
      | pure v =>
        obtain ⟨rfl, rfl⟩ := Returns.of_nil hc
        obtain ⟨rfl, rfl, rfl⟩ := Evaluates.of_handing h₁
        obtain ⟨rfl, rfl, rfl⟩ := Evaluates.of_frames_nil h₂
        exact .pure v _
      | raise x =>
        obtain ⟨rfl, rfl⟩ := Returns.of_nil hc
        obtain ⟨rfl, rfl, rfl⟩ := Evaluates.of_handing h₁
        obtain ⟨rfl, rfl, rfl⟩ := Evaluates.of_frames_nil h₂
        exact .raise x _
      | delay c =>
        obtain ⟨rfl, rfl⟩ := Returns.of_nil hc
        obtain ⟨rfl, rfl, rfl⟩ := Evaluates.of_frames_nil h₂
        simpa using Evaluates.delay h₁
      | suspend c =>
        obtain ⟨rfl, rfl⟩ := Returns.of_nil hc
        obtain ⟨rfl, rfl, rfl⟩ := Evaluates.of_frames_nil h₂
        simpa using Evaluates.suspend h₁
      | bind q f =>
        obtain ⟨rfl, rfl⟩ := Returns.of_nil hc
        rw [List.nil_append]
        exact .bind h₁ (Evaluates.of_frames_singleton h₂)
      | mapped q f i =>
        obtain ⟨rfl, rfl⟩ := Returns.of_nil hc
        rw [List.nil_append]
        exact .mapped h₁ (Evaluates.of_frames_singleton h₂)
      | recover q h =>
        obtain ⟨rfl, rfl⟩ := Returns.of_nil hc
        rw [List.nil_append]
        exact .recover h₁ (Evaluates.of_frames_singleton h₂)
      | fold q h f =>
        obtain ⟨rfl, rfl⟩ := Returns.of_nil hc
        rw [List.nil_append]
        exact .fold h₁ (Evaluates.of_frames_singleton h₂)
      | uncancelable q =>
        obtain ⟨rfl, rfl⟩ := Returns.of_nil hc
        obtain ⟨rfl, rfl, rfl⟩ := (Evaluates.of_frames_singleton h₂).of_restore
        simpa using Evaluates.uncancelable h₁
      | iterate seed f =>
        obtain ⟨rfl, rfl⟩ := Returns.of_nil hc
        rw [List.nil_append]
        exact .iterate h₁ (Evaluates.of_frames_singleton h₂)
      | _ => cases hn
    | _ => cases hn

/-- A frame that receives a result has the meaning of what it turns into, also where it has rules of
its own. -/
theorem Evaluates.of_frame {f : Frame} {r₀ : Result} (hl : (f.resume r₀ none σ).link = none)
    (hc : Returns (f.resume r₀ none σ).store (f.resume r₀ none σ).calls L₁ σ₁)
    (h₁ : Evaluates e (.stage (f.resume r₀ none σ).stage) σ₁ L₂ σ₂ r₁)
    (h₂ : Evaluates e (.frames (f.resume r₀ none σ).frames r₁) σ₂ L₃ σ' r) :
    Evaluates e (.frame f r₀) σ (L₁ ++ (L₂ ++ L₃)) σ' r := by
  cases hf : f.core with
  | false => exact .frame hf hl hc h₁ h₂
  | true =>
    cases f with
    | map f =>
      cases r₀ with
      | error x =>
        obtain ⟨rfl, rfl⟩ := Returns.of_nil hc
        obtain ⟨rfl, rfl, rfl⟩ := Evaluates.of_handing h₁
        obtain ⟨rfl, rfl, rfl⟩ := Evaluates.of_frames_nil h₂
        exact .mapSkip f x _
      | ok v =>
        obtain ⟨rfl, rfl⟩ := Returns.of_nil hc
        obtain ⟨rfl, rfl, rfl⟩ := Evaluates.of_frames_nil h₂
        simpa using Evaluates.mapOk h₁
    | bind f =>
      cases r₀ with
      | error x =>
        obtain ⟨rfl, rfl⟩ := Returns.of_nil hc
        obtain ⟨rfl, rfl, rfl⟩ := Evaluates.of_handing h₁
        obtain ⟨rfl, rfl, rfl⟩ := Evaluates.of_frames_nil h₂
        exact .bindSkip f x _
      | ok v =>
        obtain ⟨rfl, rfl⟩ := Returns.of_nil hc
        obtain ⟨rfl, rfl, rfl⟩ := Evaluates.of_frames_nil h₂
        simpa using Evaluates.bindOk h₁
    | recover h =>
      cases r₀ with
      | error x =>
        obtain ⟨rfl, rfl⟩ := Returns.of_nil hc
        obtain ⟨rfl, rfl, rfl⟩ := Evaluates.of_frames_nil h₂
        simpa using Evaluates.recoverError h₁
      | ok v =>
        obtain ⟨rfl, rfl⟩ := Returns.of_nil hc
        obtain ⟨rfl, rfl, rfl⟩ := Evaluates.of_handing h₁
        obtain ⟨rfl, rfl, rfl⟩ := Evaluates.of_frames_nil h₂
        exact .recoverSkip h v _
    | fold h f =>
      cases r₀ with
      | error x =>
        obtain ⟨rfl, rfl⟩ := Returns.of_nil hc
        obtain ⟨rfl, rfl, rfl⟩ := Evaluates.of_frames_nil h₂
        simpa using Evaluates.foldError h₁
      | ok v =>
        obtain ⟨rfl, rfl⟩ := Returns.of_nil hc
        obtain ⟨rfl, rfl, rfl⟩ := Evaluates.of_frames_nil h₂
        simpa using Evaluates.foldOk h₁
    | iterate f =>
      by_cases hv : ∃ v, r₀ = .ok (.left v)
      · obtain ⟨v, rfl⟩ := hv
        obtain ⟨rfl, rfl⟩ := Returns.of_nil hc
        rw [List.nil_append]
        exact .iterateAgain h₁ (Evaluates.of_frames_singleton h₂)
      by_cases hw : ∃ v, r₀ = .ok (.right v)
      · obtain ⟨v, rfl⟩ := hw
        obtain ⟨rfl, rfl⟩ := Returns.of_nil hc
        obtain ⟨rfl, rfl, rfl⟩ := Evaluates.of_result h₁
        obtain ⟨rfl, rfl, rfl⟩ := Evaluates.of_frames_nil h₂
        exact .iterateDone f v _
      · have hv' : ∀ v, r₀ ≠ .ok (.left v) := fun v h => hv ⟨v, h⟩
        have hw' : ∀ v, r₀ ≠ .ok (.right v) := fun v h => hw ⟨v, h⟩
        have ht : (Frame.iterate f).resume r₀ none σ =
            { store := σ, stage := .handing r₀, link := none } := by
          simp only [Frame.resume]
        rw [ht] at hc h₁ h₂
        obtain ⟨rfl, rfl⟩ := Returns.of_nil hc
        obtain ⟨rfl, rfl, rfl⟩ := Evaluates.of_handing h₁
        obtain ⟨rfl, rfl, rfl⟩ := Evaluates.of_frames_nil h₂
        exact .iterateSkip f _ hv' hw'
    | _ => cases hf

end OfTurn

/-! ## From the run to the meaning -/

/-- The frames of the phrase leave cancellation disabled. -/
def Phrase.Shielded : Phrase → Prop
  | stage _ => True
  | frame f _ => ∀ c, f ≠ .restore (some c)
  | frames fs _ => ∀ c, Frame.restore (some c) ∉ fs

section Completeness

variable {e : ExecutionId} {k : Sink} {σ' : Store} {r : Result} {n : Nat}

/-- A run of `n` steps from the phrase down to the delivery of a result, whatever frames lie below,
passes through what the phrase comes to. -/
def Phrase.Passes (e : ExecutionId) (k : Sink) (σ' : Store) (r : Result) (n : Nat) (ph : Phrase) :
    Prop :=
  ∀ σ L fs, Steps (Owed e k) n ⟨σ, [ph.call ⟨e, none, fs, k⟩]⟩ L ⟨σ', [.deliver e k r]⟩ →
    ∃ σ₁ L₁ L₂ r₁ i, Evaluates e ph σ L₁ σ₁ r₁ ∧ L = L₁ ++ L₂ ∧ i ≤ n ∧
      Steps (Owed e k) i ⟨σ₁, [.work (.handing r₁) ⟨e, none, fs, k⟩]⟩ L₂ ⟨σ', [.deliver e k r]⟩

/-- A turn of the loop that shorter runs pass through. -/
theorem Phrase.Passes.of_turn {s : Stage} {l : Loop} {t : Turn} {σ : Store} {L : List Effect}
    {fs : List Frame} (ih : ∀ i < n, ∀ ph : Phrase, ph.Shielded → ph.Passes e k σ' r i)
    (ht : l.step s σ = t.on ⟨e, none, fs, k⟩) (hs : s.effect? = none) (hl : t.link = none)
    (hf : ∀ c, Frame.restore (some c) ∉ t.frames)
    (h : Steps (Owed e k) n ⟨σ, [.work s l]⟩ L ⟨σ', [.deliver e k r]⟩) :
    ∃ σ₁ σ₂ σ₃ L₁ L₂ L₃ L₄ r₁ r₂ i, Returns t.store t.calls L₁ σ₁ ∧
      Evaluates e (.stage t.stage) σ₁ L₂ σ₂ r₁ ∧ Evaluates e (.frames t.frames r₁) σ₂ L₃ σ₃ r₂ ∧
      L = (L₁ ++ (L₂ ++ L₃)) ++ L₄ ∧ i ≤ n ∧
      Steps (Owed e k) i ⟨σ₃, [.work (.handing r₂) ⟨e, none, fs, k⟩]⟩ L₄ ⟨σ', [.deliver e k r]⟩ := by
  obtain ⟨σ₁, L₁, L', i, hc, rfl, hi, h₁⟩ := Steps.of_turn ht h
  rw [Turn.next, hl] at h₁
  obtain ⟨σ₂, L₂, L'', r₁, j, hev₁, rfl, hj, h₂⟩ := ih i hi (.stage t.stage) trivial _ _ _ h₁
  obtain ⟨σ₃, L₃, L₄, r₂, m, hev₂, rfl, hm, h₃⟩ :=
    ih j (by omega) (.frames t.frames r₁) hf _ _ _ h₂
  exact ⟨σ₁, σ₂, σ₃, L₁, L₂, L₃, L₄, r₁, r₂, m, hc, hev₁, hev₂, by simp [hs], by omega, h₃⟩

theorem Phrase.passes_stage (ih : ∀ i < n, ∀ ph : Phrase, ph.Shielded → ph.Passes e k σ' r i)
    (s : Stage) : (Phrase.stage s).Passes e k σ' r n := by
  intro σ L fs h
  cases s with
  | looking n' =>
    have hl : (n'.step e none σ).link = none := by simpa using n'.step_link e none σ
    have hf : ∀ c, Frame.restore (some c) ∉ (n'.step e none σ).frames := fun c hc => by
      cases Node.restore_mem hc
    obtain ⟨_, _, σ₃, _, _, _, L₄, _, r₂, i, hc, h₁, h₂, rfl, hi, h₃⟩ :=
      Passes.of_turn (s := .looking n') ih rfl rfl hl hf h
    exact ⟨σ₃, _, L₄, r₂, i, .of_node hc h₁ h₂, rfl, hi, h₃⟩
  | handing r₀ => exact ⟨σ, [], L, r₀, n, .handing r₀ σ, rfl, Nat.le_refl n, h⟩
  | delaying c =>
    obtain ⟨σ₁, L₁, L₂, i, o, hr, rfl, hi, h'⟩ :=
      Code.exists_runs .delaying .delayed (fun _ _ => rfl) (fun _ => rfl) h
    cases o with
    | error m => exact ⟨σ₁, L₁, L₂, _, i, .computePanics hr, rfl, by omega, h'⟩
    | ok r₁ => exact ⟨σ₁, L₁, L₂, r₁, i, .computes hr, rfl, Nat.le_of_lt hi, h'⟩
  | mapping c =>
    obtain ⟨σ₁, L₁, L₂, i, o, hr, rfl, hi, h'⟩ :=
      Code.exists_runs .mapping .mapped (fun _ _ => rfl) (fun _ => rfl) h
    cases o with
    | error m => exact ⟨σ₁, L₁, L₂, _, i, .transformPanics hr, rfl, Nat.le_of_lt hi, h'⟩
    | ok v => exact ⟨σ₁, L₁, L₂, .ok v, i, .transforms hr, rfl, Nat.le_of_lt hi, h'⟩
  | suspending c =>
    obtain ⟨σ₁, L₁, L₂, i, o, hr, rfl, hi, h'⟩ :=
      Code.exists_runs .suspending .suspended (fun _ _ => rfl)
        (fun _ => rfl) h
    cases o with
    | error m =>
      obtain ⟨σ₂, L₃, L₄, r₂, j, hev, rfl, hj, h''⟩ :=
        ih i hi (.stage (.looking (.result (.error (.panic m))))) trivial _ _ _ h'
      obtain ⟨rfl, rfl, rfl⟩ := hev.of_result
      exact ⟨σ₂, L₁, L₄, _, j, .panics hr, rfl, by omega, h''⟩
    | ok p =>
      obtain ⟨σ₂, L₃, L₄, r₂, j, hev, rfl, hj, h''⟩ := ih i hi (.program p) trivial _ _ _ h'
      exact ⟨σ₂, L₁ ++ L₃, L₄, r₂, j, .returns hr hev, by simp, by omega, h''⟩
  | leaving b =>
    by_cases hb : ∃ r₀, σ.boundary? b = some (.ready r₀)
    · obtain ⟨r₀, hb⟩ := hb
      have ht : (⟨e, none, fs, k⟩ : Loop).step (.leaving b) σ =
          Turn.on { store := σ.setBoundary b .resumed, stage := .looking (.result r₀), link := none }
            ⟨e, none, fs, k⟩ := by
        simp only [Loop.step, Store.leave, hb, Turn.on, List.nil_append]
      obtain ⟨_, _, σ₃, _, _, _, L₄, _, r₂, i, hc, h₁, h₂, rfl, hi, h₃⟩ :=
        Passes.of_turn ih ht rfl rfl (by simp) h
      obtain ⟨rfl, rfl⟩ := hc.of_nil
      obtain ⟨rfl, rfl, rfl⟩ := h₁.of_result
      obtain ⟨rfl, rfl, rfl⟩ := h₂.of_frames_nil
      exact ⟨_, [], L₄, r₂, i, .completed hb, rfl, hi, h₃⟩
    · -- the loop is parked, and nothing is left to call
      have hpark : ((⟨e, none, fs, k⟩ : Loop).step (.leaving b) σ).2 = [] := by
        simp only [Loop.step, Store.leave]
        split
        · exact absurd ⟨_, ‹_›⟩ hb
        · rfl
        · rfl
      replace h : Steps (Owed e k) n ⟨σ, [.work (.leaving b) ⟨e, none, fs, k⟩]⟩ L ⟨σ', [.deliver e k r]⟩ := h
      cases h with
      | step _ h =>
        simp only [Activity.step, hpark, List.append_nil] at h
        cases h

theorem Phrase.passes_frame (ih : ∀ i < n, ∀ ph : Phrase, ph.Shielded → ph.Passes e k σ' r i)
    {f : Frame} {r₀ : Result} (hf : ∀ c, f ≠ .restore (some c)) :
    (Phrase.frame f r₀).Passes e k σ' r n := by
  intro σ L fs h
  have hl : (f.resume r₀ none σ).link = none := by
    rw [Frame.resume_link]
    cases f with
    | restore link =>
      cases link with
      | none => rfl
      | some c => exact absurd rfl (hf c)
    | _ => rfl
  have ht : (⟨e, none, f :: fs, k⟩ : Loop).step (.handing r₀) σ =
      (f.resume r₀ none σ).on ⟨e, none, fs, k⟩ := rfl
  obtain ⟨_, _, σ₃, _, _, _, L₄, _, r₂, i, hc, h₁, h₂, rfl, hi, h₃⟩ :=
    Passes.of_turn ih ht rfl hl (fun c => f.restore_notMem r₀ none (some c) σ) h
  exact ⟨σ₃, _, L₄, r₂, i, .of_frame hl hc h₁ h₂, rfl, hi, h₃⟩

theorem Phrase.passes_frames {fs : List Frame} {r₀ : Result}
    (hf : ∀ i ≤ n, ∀ f ∈ fs, ∀ r₀, (Phrase.frame f r₀).Passes e k σ' r i) :
    (Phrase.frames fs r₀).Passes e k σ' r n := by
  intro σ L gs h
  induction fs generalizing n r₀ σ L with
  | nil => exact ⟨σ, [], L, r₀, n, .nil r₀ σ, rfl, Nat.le_refl n, h⟩
  | cons f fs ih =>
    obtain ⟨σ₁, L₁, L', r₁, i, h₁, rfl, hi, h'⟩ :=
      hf n (Nat.le_refl n) f List.mem_cons_self r₀ σ L (fs ++ gs) h
    obtain ⟨σ₂, L₂, L₃, r₂, j, h₂, rfl, hj, h''⟩ := ih (n := i)
      (fun m hm f hmem => hf m (by omega) f (List.mem_cons_of_mem _ hmem)) σ₁ L' h'
    exact ⟨σ₂, L₁ ++ L₂, L₃, r₂, j, .cons h₁ h₂, by simp, by omega, h''⟩

/-- A run down to the delivery of a result passes through what the phrase on top comes to. -/
theorem Phrase.passes (n : Nat) (ph : Phrase) (hp : ph.Shielded) : ph.Passes e k σ' r n := by
  induction n using Nat.strongRecOn generalizing ph with
  | ind n ih =>
    have ih' : ∀ i < n, ∀ ph : Phrase, ph.Shielded → ph.Passes e k σ' r i :=
      fun i hi ph hp => ih i hi ph hp
    cases ph with
    | stage s => exact passes_stage ih' s
    | frame f r₀ => exact passes_frame ih' hp
    | frames fs r₀ =>
      refine passes_frames fun i hi f hf r₀ => passes_frame (fun j hj => ih' j (by omega)) ?_
      rintro c rfl
      exact hp c hf

end Completeness

/-! ## Adequacy -/

/-- A run comes to deliver the result `r` of the execution `e` to the sink `k`, for the first time,
after the moves `L`. -/
def Machine.Delivers (m : Machine) (e : ExecutionId) (k : Sink) (L : List Effect) (σ' : Store)
    (r : Result) : Prop :=
  ∃ fuel, m.run fuel = ⟨σ', [.deliver e k r]⟩ ∧ m.effects fuel = L ∧
    ∀ i < fuel, Owed e k (m.run i).calls

/-- **Adequacy of the loop.** With cancellation disabled, a loop comes to deliver a result after the
moves `L` if and only if its program and then its frames come to that result with these moves. -/
theorem delivers_iff_evaluates (p : Prog) (e : ExecutionId) (fs : List Frame) (k : Sink)
    (hfs : ∀ c, Frame.restore (some c) ∉ fs) (σ σ' : Store) (L : List Effect) (r : Result) :
    Delivers ⟨σ, [.work (.looking (.program p)) ⟨e, none, fs, k⟩]⟩ e k L σ' r ↔
      ∃ σ₁ L₁ L₂ r₁, Evaluates e (.program p) σ L₁ σ₁ r₁ ∧
        Evaluates e (.frames fs r₁) σ₁ L₂ σ' r ∧ L = L₁ ++ L₂ := by
  rw [Delivers, ← reaches_iff_run]
  constructor
  · rintro ⟨n, hn⟩
    obtain ⟨σ₁, L₁, L', r₁, i, h₁, rfl, -, h'⟩ := Phrase.passes n (.program p) trivial _ _ _ hn
    have hs : Steps (Owed e k) i ⟨σ₁, [(Phrase.frames fs r₁).call ⟨e, none, [], k⟩]⟩ L'
        ⟨σ', [.deliver e k r]⟩ := by
      simpa [Phrase.call] using h'
    obtain ⟨σ₂, L₂, L₃, r₂, j, h₂, rfl, -, h''⟩ := Phrase.passes i (.frames fs r₁) hfs _ _ _ hs
    -- without frames, what is handed on is delivered at once
    obtain ⟨rfl, rfl, rfl⟩ : σ' = σ₂ ∧ L₃ = [] ∧ r = r₂ := by
      cases h'' with
      | step _ h =>
        cases h with
        | refl => exact ⟨rfl, rfl, rfl⟩
        | step howed h => exact absurd rfl (howed r₂)
    exact ⟨σ₁, L₁, L₂, r₁, h₁, h₂, by simp⟩
  · rintro ⟨σ₁, L₁, L₂, r₁, h₁, h₂, rfl⟩
    have hd : Reaches (Owed e k) ⟨σ', [.work (.handing r) ⟨e, none, [], k⟩]⟩ []
        ⟨σ', [.deliver e k r]⟩ :=
      ⟨1, .step (owed_append_work []) (.refl _)⟩
    have hu := (h₂.reaches []).trans hd
    simp only [Phrase.call, List.append_nil] at hu
    exact (h₁.reaches fs).trans hu

/-- A failing program under a map and a recovery: the map is skipped, and the recovery logs. -/
theorem delivers_recovered :
    (∀ c, Frame.restore (some c) ∉
      [Frame.map .ret, .recover fun _ => .log "recovered" (.ret .unit)]) ∧
    Delivers ⟨{}, [.work (.looking (.program (.raise .cancelled)))
        ⟨0, none, [.map .ret, .recover fun _ => .log "recovered" (.ret .unit)], .discard⟩]⟩
      0 .discard [.log "recovered"] (Store.emit (.line "recovered") {}) (.ok .unit) := by
  have hfs : ∀ c, Frame.restore (some c) ∉
      [Frame.map .ret, .recover fun _ => .log "recovered" (.ret .unit)] := by simp
  refine ⟨hfs, (delivers_iff_evaluates _ 0 _ .discard hfs {} _ _ _).2 ?_⟩
  have hlog : Code.Runs (.log "recovered" (.ret Prog.unit)) {} [.log "recovered"]
      (Store.emit (.line "recovered") {}) (.ok Prog.unit) :=
    .move rfl (.refl _) (.ret _ _)
  have hrec : Evaluates 0 (.frame (.recover fun _ => .log "recovered" (.ret .unit))
      (.error .cancelled)) {} [.log "recovered"] (Store.emit (.line "recovered") {})
      (.ok .unit) := .recoverError (.returns hlog (.pure _ _))
  exact ⟨_, [], [.log "recovered"], _, .raise .cancelled {},
    .cons (.mapSkip .ret _ _) (.cons hrec (.nil _ _)), rfl⟩

end CancelableEffects
