import CancelableEffects.Proofs.Places
import Mathlib.Algebra.GroupWithZero.Nat

/-!
# Weights — counting what calls and waiting loops carry

* `Weight`: a number for each node, frame and sink, and for the completions of each boundary.
* `Weight.call`, `Weight.waiting`, `Weight.session`: what a call weighs, the loops that wait, and a
  session.
* `Weight.Light`: weights of things about one bracket.
* **`Weight.turn_eq_zero`**, **`Weight.next_of_ordinary`**: plain turns and ordinary calls weigh
  nothing.
* `Weight.leave`, `Weight.completeBoundary`: loops that come to a boundary and go on from there keep
  their weight.
-/

namespace CancelableEffects

/-- What each thing weighs. -/
structure Weight where
  node : Node → Nat
  frame : Frame → Nat
  sink : Sink → Nat
  /-- The weight of a completion of the boundary. -/
  offer : BoundaryId → Nat

namespace Weight

variable (w : Weight)

/-- What a loop at this stage weighs, without its stack and its sink. -/
def stage : Stage → Nat
  | .looking n => w.node n
  | _ => 0

/-- What frames weigh. -/
def frames (fs : List Frame) : Nat := (fs.map w.frame).sum

/-- What a loop weighs. -/
def loop (l : Loop) : Nat := w.frames l.stack + w.sink l.sink

/-- What a call weighs. -/
def call : Activity → Nat
  | .start n _ k => w.node n + w.sink k
  | .work s l => w.stage s + w.loop l
  | .deliver _ k _ => w.sink k
  | .complete (.boundary b) _ => w.offer b
  | _ => 0

/-- What calls weigh. -/
def calls (as : List Activity) : Nat := (as.map w.call).sum

/-- What the loop weighs that waits at a boundary. -/
def cell : Boundary → Nat
  | .parked l => w.loop l
  | _ => 0

/-- What the loops weigh that wait. -/
def waiting (σ : Store) : Nat := (σ.boundaries.cells.toList.map w.cell).sum

/-- What a step leaves weighs. -/
def next (x : Next) : Nat := w.calls x.2 + w.waiting x.1

/-- What a turn adds to its loop weighs. -/
def turn (t : Turn) : Nat := w.calls t.calls + w.stage t.stage + w.frames t.frames

/-- What a session weighs. -/
def session (S : Session) : Nat := w.calls S.calls + w.waiting S.store

@[simp] theorem frames_nil : w.frames [] = 0 := rfl

@[simp] theorem frames_cons (f : Frame) (fs : List Frame) :
    w.frames (f :: fs) = w.frame f + w.frames fs := by
  simp [frames]

@[simp] theorem frames_append (fs gs : List Frame) :
    w.frames (fs ++ gs) = w.frames fs + w.frames gs := by
  simp [frames]

@[simp] theorem calls_nil : w.calls [] = 0 := rfl

@[simp] theorem calls_cons (a : Activity) (as : List Activity) :
    w.calls (a :: as) = w.call a + w.calls as := by
  simp [calls]

@[simp] theorem calls_append (as bs : List Activity) :
    w.calls (as ++ bs) = w.calls as + w.calls bs := by
  simp [calls]

theorem calls_eq_zero {as : List Activity} (h : ∀ a ∈ as, w.call a = 0) : w.calls as = 0 := by
  induction as with
  | nil => rfl
  | cons a as ih =>
    obtain ⟨ha, has⟩ := List.forall_mem_cons.1 h
    rw [calls_cons, ha, ih has]

theorem call_le_calls {a : Activity} {as : List Activity} (h : a ∈ as) : w.call a ≤ w.calls as := by
  obtain ⟨xs, ys, rfl⟩ := List.append_of_mem h
  rw [calls_append, calls_cons]
  omega

theorem two_calls_le {a b : Activity} {as : List Activity} (ha : a ∈ as) (hb : b ∈ as)
    (hne : b ≠ a) : w.call a + w.call b ≤ w.calls as := by
  obtain ⟨xs, ys, rfl⟩ := List.append_of_mem ha
  rw [calls_append, calls_cons]
  obtain hb | hb := List.mem_append.1 hb
  · have := w.call_le_calls hb
    omega
  · have := w.call_le_calls ((List.mem_cons.1 hb).resolve_left hne)
    omega

theorem frames_eq_zero {fs : List Frame} (h : ∀ f ∈ fs, w.frame f = 0) : w.frames fs = 0 := by
  induction fs with
  | nil => rfl
  | cons f fs ih =>
    obtain ⟨hf, hfs⟩ := List.forall_mem_cons.1 h
    rw [frames_cons, hf, ih hfs]

/-! ## Sessions -/

/-- The weight of a session changes by what a call weighs and what its step leaves. -/
theorem session_call {S : Session} {a : Activity} {xs ys : List Activity} (next : Next)
    (hS : S.calls = xs ++ a :: ys) :
    w.session (S.record (some a) next (xs ++ ys)) + (w.call a + w.waiting S.store) =
      w.session S + w.next next := by
  simp only [session, Session.record_calls, Session.record_store, hS, calls_append, calls_cons,
    Weight.next]
  omega

theorem session_input {S : Session} (next : Next) :
    w.session (S.record none next S.calls) + w.waiting S.store = w.session S + w.next next := by
  simp only [session, Session.record_calls, Session.record_store, calls_append, Weight.next]
  omega

/-! ## Loops that wait -/

variable {σ : Store}

theorem waiting_of_cells {σ' : Store} (h : σ'.boundaries.cells = σ.boundaries.cells) :
    w.waiting σ' = w.waiting σ := by
  rw [waiting, h, waiting]

theorem sum_map_set {cells : List Boundary} {b : Nat} {x y : Boundary} (h : cells[b]? = some y) :
    ((cells.set b x).map w.cell).sum + w.cell y = (cells.map w.cell).sum + w.cell x := by
  induction cells generalizing b with
  | nil => simp at h
  | cons z cells ih =>
    cases b with
    | zero =>
      simp only [List.getElem?_cons_zero, Option.some.injEq] at h
      subst h
      simp only [List.set_cons_zero, List.map_cons, List.sum_cons]
      omega
    | succ b =>
      have := ih (by simpa using h)
      simp only [List.set_cons_succ, List.map_cons, List.sum_cons]
      omega

theorem waiting_setBoundary {b : BoundaryId} {x y : Boundary} (h : σ.boundary? b = some y) :
    w.waiting (σ.setBoundary b x) + w.cell y = w.waiting σ + w.cell x := by
  have h' : σ.boundaries.cells.toList[b]? = some y := by simpa [Store.boundary?] using h
  simpa [waiting, Store.setBoundary, Boundaries.set] using w.sum_map_set h'

theorem loop_le_waiting {b : BoundaryId} {l : Loop} (h : σ.boundary? b = some (.parked l)) :
    w.loop l ≤ w.waiting σ := by
  have hb := w.waiting_setBoundary (x := .resumed) h
  simp only [cell] at hb
  omega

theorem waiting_push {σ' : Store}
    (h : σ'.boundaries.cells = σ.boundaries.cells.push .registering) :
    w.waiting σ' = w.waiting σ := by
  simp [waiting, h, cell]

theorem waiting_turn {t : Turn} (h : t.Opens σ) : w.waiting t.store = w.waiting σ := by
  obtain ⟨hb, -⟩ | ⟨hb, -⟩ := h.cells
  · exact w.waiting_of_cells hb
  · exact w.waiting_push hb

/-- What a loop weighs after a turn. -/
theorem next_on {t : Turn} (h : t.Opens σ) (l : Loop) :
    w.next (t.on l) = w.turn t + w.loop l + w.waiting σ := by
  have hw : w.waiting (t.on l).1 = w.waiting σ := w.waiting_turn h
  rw [Weight.next, hw]
  simp only [Turn.on, turn, calls_append, calls_cons, calls_nil, call, loop, frames_append]
  omega

/-- A loop that comes to an open boundary keeps its weight. -/
theorem leave (hw : ∀ r, w.node (.result r) = 0) {b : BoundaryId} {l : Loop}
    (h : σ.boundary? b = some .registering ∨ ∃ r, σ.boundary? b = some (.ready r)) :
    w.next (σ.leave b l) = w.loop l + w.waiting σ := by
  obtain h | ⟨r, h⟩ := h
  · have hb := w.waiting_setBoundary (x := .parked l) h
    simp only [Store.leave, h, Weight.next, calls_nil]
    change 0 + w.waiting (σ.setBoundary b (.parked l)) = _
    simp only [cell] at hb
    omega
  · have hb := w.waiting_setBoundary (x := .resumed) h
    simp only [Store.leave, h, Weight.next, calls_cons, calls_nil, call, stage, hw]
    simp only [cell] at hb
    omega

/-- A completion gives the loop back that waits at the boundary. -/
theorem completeBoundary (hw : ∀ r, w.node (.result r) = 0) (b : BoundaryId) (r : Result) :
    w.next (σ.completeBoundary b r) = w.waiting σ := by
  unfold Store.completeBoundary
  split
  · rename_i h
    have hb := w.waiting_setBoundary (x := .ready r) h
    simp only [Weight.next, calls_nil]
    simp only [cell] at hb
    omega
  · rename_i l h
    have hb := w.waiting_setBoundary (x := .resumed) h
    simp only [Weight.next, calls_cons, calls_nil, call, stage, hw]
    change _ + w.waiting (σ.setBoundary b .resumed) = _
    simp only [cell] at hb
    omega
  · exact Nat.zero_add _

/-! ## Plain things -/

/-- Only what is about the bracket weighs anything, and the completions of its boundary. -/
structure Light (g : BracketId) : Prop where
  node : ∀ n : Node, n.Plain → w.node n = 0
  frame : ∀ f : Frame, f.Plain → w.frame f = 0
  sink : ∀ k : Sink, k.Plain → w.sink k = 0
  offer : ∀ b, b ≠ g → w.offer b = 0

variable {w} {g : BracketId}

theorem call_eq_zero (hw : w.Light g) {a : Activity} (ha : a.Plain σ)
    (hg : σ.KeptOtherwise g → w.offer g = 0) : w.call a = 0 := by
  cases a with
  | start n link k => rw [call, hw.node n ha.1, hw.sink k ha.2]
  | work s l => exact ha.elim
  | deliver e k r => exact ha.elim
  | complete c r =>
    cases c with
    | boundary b =>
      by_cases hb : b = g
      · subst hb
        exact hg ha
      · exact hw.offer b hb
    | _ => rfl
  | _ => rfl

/-- A plain turn adds nothing. -/
theorem turn_eq_zero (hw : w.Light g) {t : Turn} (ht : t.Plain σ)
    (hg : t.store.KeptOtherwise g → w.offer g = 0) : w.turn t = 0 := by
  have hstage : w.stage t.stage = 0 := by
    have h := ht.stage
    cases hs : t.stage with
    | looking n =>
      rw [hs] at h
      exact hw.node n h
    | _ => rfl
  rw [turn, w.calls_eq_zero fun a ha => call_eq_zero hw (ht.calls a ha) hg, hstage,
    w.frames_eq_zero fun f hf => hw.frame f (ht.frames f hf)]

theorem next_of_plain (hw : w.Light g) {next : Next} (h : next.PlainOnceDropped σ)
    (ha : next.Aside σ) (hg : next.1.KeptOtherwise g → w.offer g = 0) :
    w.next next = w.waiting σ := by
  obtain ⟨σ', -, hplain⟩ := h
  rw [Weight.next, w.calls_eq_zero fun a ha => call_eq_zero hw (hplain.calls a ha) hg, Nat.zero_add]
  exact w.waiting_of_cells ha.cells

/-- An ordinary call weighs nothing, and neither does what it leaves. -/
theorem next_of_ordinary (hw : w.Light g) {a : Activity} (ha : a.Ordinary)
    (hg : (a.step σ).1.KeptOtherwise g → w.offer g = 0) :
    w.next (a.step σ) = w.call a + w.waiting σ := by
  have hcall : w.call a = 0 := by
    cases a with
    | start n link k => exact ha.elim
    | work s l => exact ha.elim
    | deliver e k r => exact hw.sink k ha
    | complete c r =>
      cases c with
      | boundary b => exact ha.elim
      | _ => rfl
    | _ => rfl
  rw [hcall, Nat.zero_add]
  exact next_of_plain hw (Activity.step_plain ha σ) (Activity.step_aside ha.beside σ) hg

end Weight

end CancelableEffects
