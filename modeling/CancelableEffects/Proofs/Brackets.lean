import CancelableEffects.Proofs.Alike

/-!
# Brackets — their resource and who takes the release

* `Store.bracket?_modifyBracket`: brackets after a change.
* `Store.takeRelease_of_held`, `Store.takeRelease_of_not_held`: the release is there or not.
* `Store.terms`: a bracket, whether its gate is open or not.
* `Store.endAcquire_error`, `Store.endAcquire_late`, `Store.endAcquire_held`: the ends of an
  acquisition.
-/

namespace CancelableEffects

namespace Store

variable {σ σ' : Store} {g g' : BracketId} {br : Bracket} {v : Value}

theorem bracket?_modifyBracket (g g' : BracketId) (f : Bracket → Bracket) :
    (σ.modifyBracket g f).bracket? g' =
      if g = g' then (σ.bracket? g').map f else σ.bracket? g' := by
  unfold bracket? modifyBracket
  rw [keeper?_modifyKeeper]
  by_cases h : g = g'
  · rw [if_pos h, if_pos h]
    cases hx : σ.keeper? g' with
    | none => rfl
    | some x => cases x <;> rfl
  · rw [if_neg h, if_neg h]

/-- The first to ask for the release of a held resource gets it. -/
theorem takeRelease_of_held (h : σ.held? g = some v) (x : ExitCase) :
    σ.takeRelease g x =
      ((σ.modifyBracket g Bracket.take).emit? (some (.releasing g x)), .release g v x) := by
  simp only [takeRelease, h, Option.map_some]

/-- Who asks for a release that is not there waits at the gate. -/
theorem takeRelease_of_not_held (h : σ.held? g = none) (x : ExitCase) :
    σ.takeRelease g x = ((σ.modifyBracket g Bracket.take).emit? none, .gate g) := by
  simp only [takeRelease, h, Option.map_none]

/-! ## The terms of a bracket -/

/-- The bracket with the index, whether its gate is open or not. -/
def terms (g : BracketId) (σ : Store) : Option Bracket :=
  (σ.bracket? g).map fun br => { br with gate := .opened }

theorem terms_of_some {br : Bracket} (h : σ.bracket? g = some br) :
    σ.terms g = some { br with gate := .opened } := by simp [terms, h]

theorem terms_of_none (h : σ.bracket? g = none) : σ.terms g = none := by
  simp [terms, h]

theorem held?_eq_terms :
    σ.held? g = match (σ.terms g).map Bracket.resource with
      | some (.held v) => some v
      | _ => none := by
  unfold held? terms
  cases σ.bracket? g <;> rfl

theorem held?_of_terms_eq (h : σ'.terms g = σ.terms g) : σ'.held? g = σ.held? g := by
  rw [held?_eq_terms, h, ← held?_eq_terms]

/-- Who asks for the release leaves no resource behind. -/
theorem held?_of_terms_take (h : σ'.terms g = (σ.terms g).map Bracket.take) :
    σ'.held? g = none := by
  rw [held?_eq_terms, h]
  cases σ.terms g with
  | none => rfl
  | some br =>
    obtain ⟨owner, link, release, resource, gate⟩ := br
    cases resource <;> rfl

theorem Alike.terms (h : σ.Alike σ') (g : BracketId) : σ'.terms g = σ.terms g := by
  cases hg : σ.bracket? g with
  | some br =>
    obtain ⟨br', hg', hlike⟩ := h.bracket? hg
    rw [terms_of_some hg, terms_of_some hg', hlike.owner, hlike.link, hlike.release,
      hlike.resource]
  | none =>
    rw [terms_of_none hg, terms_of_none]
    cases hg' : σ'.bracket? g with
    | none => rfl
    | some br' =>
      obtain ⟨br, hbr, -⟩ := h.bracket?_of_some hg'
      cases hg.symm.trans hbr

theorem terms_openGate (g g' : BracketId) : (σ.openGate g').1.terms g = σ.terms g := by
  simp only [openGate]
  unfold terms
  rw [bracket?_modifyBracket]
  by_cases hg : g' = g
  · rw [if_pos hg]
    cases σ.bracket? g <;> rfl
  · rw [if_neg hg]

theorem terms_size : σ.terms σ.boundaries.size = none :=
  terms_of_none (bracket?_eq_none.2 fun br => by simp [keeper?_size])

theorem terms_newBoundary (br : Bracket) (g : BracketId) :
    (σ.newBoundary (.bracket br)).1.terms g =
      if g = σ.boundaries.size then some { br with gate := .opened } else σ.terms g := by
  unfold terms bracket?
  rw [keeper?_newBoundary]
  by_cases hg : g = σ.boundaries.size
  · rw [if_pos hg, if_pos hg]
    rfl
  · rw [if_neg hg, if_neg hg]

theorem terms_modifyBracket_of_ne (h : g' ≠ g) (f : Bracket → Bracket) :
    (σ.modifyBracket g' f).terms g = σ.terms g := by
  unfold terms
  rw [bracket?_modifyBracket, if_neg h]

theorem terms_take : (σ.modifyBracket g Bracket.take).terms g =
    (σ.terms g).map Bracket.take := by
  unfold terms
  rw [bracket?_modifyBracket, if_pos rfl]
  cases σ.bracket? g with
  | none => rfl
  | some br =>
    obtain ⟨owner, link, release, resource, gate⟩ := br
    cases resource <;> rfl

/-! ## The end of an acquisition -/

/-- The store once the acquisition of a bracket has given a resource. -/
def hold (g : BracketId) (v : Value) (σ : Store) : Store :=
  σ.modifyBracket g fun br => { br with resource := .held v }

theorem held?_hold (h : σ.bracket? g = some br) : (σ.hold g v).held? g = some v := by
  unfold hold held?
  rw [bracket?_modifyBracket, if_pos rfl, h]
  rfl

/-- A failed acquisition opens the gate, and the bracket ends with the error. -/
theorem endAcquire_error (h : σ.bracket? g = some br) (e : Error) :
    σ.endAcquire g (.error e) = (((σ.dropToken br.link).openGate g).1,
      ((σ.dropToken br.link).openGate g).2 ++ [.complete (.boundary g) (.error e)]) := by
  simp only [endAcquire, h]

/-- A resource that comes after the cancellation is released at once. -/
theorem endAcquire_late (h : σ.bracket? g = some br) (hc : σ.isCancelled br.link = true) (v : Value) :
    σ.endAcquire g (.ok v) =
      (((σ.hold g v).modifyBracket g Bracket.take).emit? (some (.releasing g .cancelled)),
        [.start (.release g v .cancelled) none (.lateRelease g)]) := by
  have hc' : (σ.hold g v).isCancelled br.link = true := hc
  simp only [endAcquire, h]
  rw [← hold, if_pos hc', takeRelease_of_held (held?_hold h)]

/-- Any other resource is there for the use of the bracket. -/
theorem endAcquire_held (h : σ.bracket? g = some br) (hc : σ.isCancelled br.link = false) (v : Value) :
    σ.endAcquire g (.ok v) = (σ.hold g v, [.complete (.boundary g) (.ok v)]) := by
  have hc' : (σ.hold g v).isCancelled br.link = false := hc
  simp only [endAcquire, h]
  rw [← hold, if_neg (by simp [hc'])]

theorem endAcquire_of_none (h : σ.bracket? g = none) (r : Result) : σ.endAcquire g r = (σ, []) := by
  simp only [endAcquire, h]

end Store

end CancelableEffects
