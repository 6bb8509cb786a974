import CancelableEffects.Machine.Run

/-!
# Effects — what the closures of a run do to the world

* `Effect`: one move of a user's closure.
* `Machine.effects`: the moves that the closures make while a machine runs, in order.
* `Machine.Steps`, `Machine.Reaches`: so many steps and some steps, with the moves made on the way.
* **`Steps.split`**: calls return before what they were put on top of goes on.
-/

namespace CancelableEffects

/-- One move of a user's closure. -/
inductive Effect where
  | log (line : String)
  | read (x : Name)
  | write (x : Name) (v : Option Value)
  | launch (p : Prog)
  | answer (c : CallbackId) (r : Result)
  | push (link : Link) (p : Prog)
  | keep (p : Prog)

/-- The next move of a closure; one that returns or panics makes none. -/
def Code.effect? {α : Type} : Code Prog α → Option Effect
  | .ret _ | .panic _ => none
  | .log s _ => some (.log s)
  | .read x _ => some (.read x)
  | .write x v _ => some (.write x v)
  | .launch p _ => some (.launch p)
  | .answer c r _ => some (.answer c r)
  | .push link p _ => some (.push link p)
  | .keep p _ => some (.keep p)

/-- The move that a loop at work makes next, if it is a closure's. -/
def Stage.effect? : Stage → Option Effect
  | .delaying c => c.effect?
  | .suspending c => c.effect?
  | .mapping c => c.effect?
  | _ => none

/-- The move that the next step of a call makes, if it is a closure's. -/
def Activity.effect? : Activity → Option Effect
  | .work s _ => s.effect?
  | .registering c _ => c.effect?
  | .registeringStep c _ => c.effect?
  | .calling c _ => c.effect?
  | _ => none

namespace Machine

/-- The moves that closures make during a run, in order. -/
def effects : Nat → Machine → List Effect
  | 0, _ => []
  | _ + 1, ⟨_, []⟩ => []
  | fuel + 1, ⟨σ, a :: calls⟩ =>
    a.effect?.toList ++ effects fuel ⟨(a.step σ).1, (a.step σ).2 ++ calls⟩

/-- `n` steps lead from one machine to another, each of them from calls that satisfy `P`, and
closures make the moves `L` on the way. -/
inductive Steps (P : List Activity → Prop) : Nat → Machine → List Effect → Machine → Prop
  | refl (m : Machine) : Steps P 0 m [] m
  | step {n : Nat} {σ : Store} {a : Activity} {calls : List Activity} {L : List Effect}
      {m : Machine} : P (a :: calls) → Steps P n ⟨(a.step σ).1, (a.step σ).2 ++ calls⟩ L m →
      Steps P (n + 1) ⟨σ, a :: calls⟩ (a.effect?.toList ++ L) m

/-- Some steps from calls that satisfy `P` lead from one machine to another, and closures make the
moves `L` on the way. -/
def Reaches (P : List Activity → Prop) (m : Machine) (L : List Effect) (m' : Machine) : Prop :=
  ∃ n, Steps P n m L m'

/-- The calls return and leave the store `σ'`; closures make the moves `L` meanwhile. -/
def Returns (σ : Store) (calls : List Activity) (L : List Effect) (σ' : Store) : Prop :=
  Reaches (fun _ => True) ⟨σ, calls⟩ L ⟨σ', []⟩

variable {P : List Activity → Prop}

/-! ## Counted runs and runs on fuel -/

theorem Steps.run_eq {n : Nat} {m m' : Machine} {L : List Effect} (h : Steps P n m L m') :
    m.run n = m' ∧ m.effects n = L ∧ ∀ i < n, P (m.run i).calls := by
  induction h with
  | refl m => exact ⟨rfl, rfl, fun i hi => by omega⟩
  | step hP _ ih =>
    refine ⟨ih.1, by rw [effects, ih.2.1], fun i hi => ?_⟩
    cases i with
    | zero => exact hP
    | succ i => exact ih.2.2 i (by omega)

theorem reaches_run {fuel : Nat} {m : Machine} (hP : ∀ i < fuel, P (m.run i).calls) :
    Reaches P m (m.effects fuel) (m.run fuel) := by
  induction fuel generalizing m with
  | zero => exact ⟨0, .refl m⟩
  | succ fuel ih =>
    obtain ⟨σ, _ | ⟨a, calls⟩⟩ := m
    · exact ⟨0, .refl _⟩
    · obtain ⟨n, hn⟩ := ih (m := ⟨(a.step σ).1, (a.step σ).2 ++ calls⟩) fun i hi =>
        hP (i + 1) (by omega)
      exact ⟨n + 1, .step (hP 0 (by omega)) hn⟩

theorem reaches_iff_run {m m' : Machine} {L : List Effect} :
    Reaches P m L m' ↔
      ∃ fuel, m.run fuel = m' ∧ m.effects fuel = L ∧ ∀ i < fuel, P (m.run i).calls := by
  constructor
  · rintro ⟨n, hn⟩
    exact ⟨n, hn.run_eq⟩
  · rintro ⟨fuel, rfl, rfl, hP⟩
    exact reaches_run hP

/-! ## Composition -/

theorem Steps.trans {n k : Nat} {m₁ m₂ m₃ : Machine} {L L' : List Effect}
    (h : Steps P n m₁ L m₂) (h' : Steps P k m₂ L' m₃) : Steps P (n + k) m₁ (L ++ L') m₃ := by
  induction h with
  | refl m => simpa using h'
  | step hP _ ih =>
    rw [List.append_assoc, Nat.succ_add]
    exact .step hP (ih h')

theorem Reaches.refl (m : Machine) : Reaches P m [] m := ⟨0, .refl m⟩

theorem Reaches.trans {m₁ m₂ m₃ : Machine} {L L' : List Effect} (h : Reaches P m₁ L m₂)
    (h' : Reaches P m₂ L' m₃) : Reaches P m₁ (L ++ L') m₃ := by
  obtain ⟨n, hn⟩ := h
  obtain ⟨k, hk⟩ := h'
  exact ⟨n + k, hn.trans hk⟩

/-- What lies below the calls of a run is not touched by it. -/
theorem Steps.frame {n : Nat} {σ σ' : Store} {xs ys zs : List Activity} {L : List Effect}
    (h : Steps (fun _ => True) n ⟨σ, xs⟩ L ⟨σ', ys⟩) (hP : ∀ xs, P (xs ++ zs)) :
    Steps P n ⟨σ, xs ++ zs⟩ L ⟨σ', ys ++ zs⟩ := by
  generalize hm : (⟨σ, xs⟩ : Machine) = m at h
  generalize hm' : (⟨σ', ys⟩ : Machine) = m' at h
  induction h generalizing σ xs with
  | refl m =>
    subst hm
    cases hm'
    exact .refl _
  | step _ _ ih =>
    cases hm
    have := ih rfl hm'
    rw [List.append_assoc] at this
    exact .step (hP (_ :: _)) this

/-- **Calls return before what lies below them goes on.** A run either stays above the calls `zs`
or comes down to them at some moment, and spends the rest of its steps from there. -/
theorem Steps.split {n : Nat} {σ σ' : Store} {xs ys zs : List Activity} {L : List Effect}
    (h : Steps P n ⟨σ, xs ++ zs⟩ L ⟨σ', ys⟩) :
    (∃ ys', ys = ys' ++ zs) ∨
      ∃ i j σ₁ L₁ L₂, i + j = n ∧ L = L₁ ++ L₂ ∧ Steps (fun _ => True) i ⟨σ, xs⟩ L₁ ⟨σ₁, []⟩ ∧
        Steps P j ⟨σ₁, zs⟩ L₂ ⟨σ', ys⟩ := by
  induction n generalizing σ xs L with
  | zero =>
    cases h
    exact .inl ⟨xs, rfl⟩
  | succ n ih =>
    cases xs with
    | nil => exact .inr ⟨0, n + 1, σ, [], L, by omega, rfl, .refl _, h⟩
    | cons a xs =>
      rw [List.cons_append] at h
      cases h with
      | step _ h =>
        rw [← List.append_assoc] at h
        obtain ⟨ys', rfl⟩ | ⟨i, j, σ₁, L₁, L₂, rfl, rfl, h₁, h₂⟩ := ih h
        · exact .inl ⟨ys', rfl⟩
        · exact .inr ⟨i + 1, j, σ₁, _, L₂, by omega, by rw [List.append_assoc],
            .step trivial h₁, h₂⟩

end Machine

end CancelableEffects
