import CancelableEffects.Proofs.Resources

/-!
# Gates — a gate opens when the release is over

* `Store.Over`: the gate of a bracket is open.
* `Weight.opening`: counts the loops that run the release of a bracket and open its gate then.
* **`Activity.step_gates`**: a step opens a gate only if the acquisition failed or such a loop has
  come to the end of the release.
* **`Session.gates`**: every open gate and every loop at work on a release is paid for by a release
  that was begun or an acquisition that failed.
* **`Session.finished_of_over`**: the release of a bracket whose gate is open has been run once and is
  over, or its acquisition failed.
-/

namespace CancelableEffects

/-- The gate of the bracket is open: nobody has to wait for its release any more. -/
def Store.Over (g : BracketId) (σ : Store) : Prop :=
  (σ.bracket? g).map Bracket.gate = some .opened

instance (g : BracketId) (σ : Store) : Decidable (σ.Over g) :=
  inferInstanceAs (Decidable (_ = _))

/-- Counts the loops that open the gate of the bracket once its release has ended. -/
def Weight.opening (g : BracketId) : Weight where
  node _ := 0
  frame
    | .openGate g' => if g' = g then 1 else 0
    | _ => 0
  sink _ := 0
  offer _ := 0

theorem Weight.opening_light {g : BracketId} : (Weight.opening g).Light g where
  node _ _ := rfl
  frame f hf := by
    cases f with
    | openGate g' => exact hf.elim
    | _ => rfl
  sink _ _ := rfl
  offer _ _ := rfl

namespace Store

variable {σ σ' : Store} {g g' : BracketId}

theorem over_iff : σ.Over g ↔ ∃ br, σ.bracket? g = some br ∧ br.gate = .opened := by
  unfold Over
  rw [Option.map_eq_some_iff]

theorem Over.grows (h : σ.Over g) (hσ : σ.Grows σ') : σ'.Over g := by
  obtain ⟨br, hg, hgate⟩ := over_iff.1 h
  obtain ⟨br', hg', hbr⟩ := hσ.bracket g br hg
  exact over_iff.2 ⟨br', hg', hbr.gate hgate⟩

theorem Alike.over_eq (h : σ.Alike σ') : σ'.Over g ↔ σ.Over g := by
  refine ⟨fun hover => ?_, fun hover => hover.grows h.grows⟩
  obtain ⟨br', hg', hgate⟩ := over_iff.1 hover
  obtain ⟨br, hg, hlike⟩ := h.bracket?_of_some hg'
  exact over_iff.2 ⟨br, hg, hlike.gate.1 hgate⟩

theorem Drops.over_eq (h : σ.Drops σ') : σ'.Over g ↔ σ.Over g := by
  obtain rfl | ⟨link, rfl⟩ := h <;> rfl

/-- A change of a bracket that leaves its gate alone. -/
theorem over_modifyBracket {f : Bracket → Bracket} (hf : ∀ br, (f br).gate = br.gate) :
    (σ.modifyBracket g' f).Over g ↔ σ.Over g := by
  unfold Over
  rw [bracket?_modifyBracket]
  by_cases hg : g' = g
  · rw [if_pos hg, Option.map_map, show Bracket.gate ∘ f = Bracket.gate from funext hf]
  · rw [if_neg hg]

theorem over_takeRelease (x : ExitCase) : (σ.takeRelease g' x).1.Over g ↔ σ.Over g := by
  refine over_modifyBracket fun br => ?_
  unfold Bracket.take
  split <;> rfl

/-- Only its own gate is opened. -/
theorem over_openGate (h : (σ.openGate g').1.Over g) : σ.Over g ∨ g' = g := by
  by_cases hg : g' = g
  · exact .inr hg
  · refine .inl ?_
    unfold openGate Over at h
    rw [bracket?_modifyBracket, if_neg hg] at h
    exact h

/-- A bracket that was just opened has its gate closed. -/
theorem over_newBoundary {br : Bracket} (hbr : br.gate ≠ .opened) :
    (σ.newBoundary (.bracket br)).1.Over g → σ.Over g := by
  rw [over_iff, over_iff]
  rintro ⟨br', hg, hgate⟩
  rw [bracket?_eq_some, keeper?_newBoundary] at hg
  split at hg
  · cases hg
    exact absurd hgate hbr
  · exact ⟨br', bracket?_eq_some.2 hg, hgate⟩

/-- How many open gates the bracket has. -/
def overs (g : BracketId) (σ : Store) : Nat := if σ.Over g then 1 else 0

theorem overs_congr (h : σ'.Over g ↔ σ.Over g) : σ'.overs g = σ.overs g := by
  simp only [overs, h]

theorem overs_le_one : σ.overs g ≤ 1 := by
  unfold overs
  split <;> omega

theorem overs_mono (h : σ'.Over g → σ.Over g) : σ'.overs g ≤ σ.overs g := by
  unfold overs
  split
  · exact Nat.le_of_eq (if_pos (h ‹_›)).symm
  · exact Nat.zero_le _

end Store

/-! ## Steps -/

section Steps

variable {σ : Store} {g : BracketId}

/-- What pays for an open gate: the begin of a release, or the failure of an acquisition. -/
def Deal.pays : Deal → Nat
  | .releases | .acquires false => 1
  | _ => 0

theorem Weight.opening_turn_of_plain {t : Turn} (ht : t.Plain σ) :
    (Weight.opening g).turn t + t.store.overs g = σ.overs g := by
  rw [Weight.turn_eq_zero Weight.opening_light ht fun _ => rfl, Nat.zero_add]
  exact Store.overs_congr ht.alike.over_eq

theorem Weight.calls_opening_push {link : Link} {t : Token} :
    (Weight.opening g).calls (σ.push link t).2 = 0 := by
  unfold Store.push
  split <;> rfl

theorem Weight.calls_opening_openGate (g' : BracketId) :
    (Weight.opening g).calls (σ.openGate g').2 = 0 :=
  Weight.calls_eq_zero _ fun a ha =>
    Weight.call_eq_zero Weight.opening_light (Store.plain_completeSteps _ _ σ a ha) fun _ => rfl

/-- A node puts the opening of a gate on the stack when it begins the release. -/
theorem Node.step_gates (m : Node) (e : ExecutionId) (link : Link) :
    (Weight.opening g).turn (m.step e link σ) + (m.step e link σ).store.overs g ≤
      σ.overs g + (m.deal g σ false).pays := by
  by_cases hm : m.Ordinary
  · rw [Weight.opening_turn_of_plain (m.step_plain hm e σ)]
    exact Nat.le_add_right _ _
  cases m with
  | program p =>
    cases p with
    | bracket acquire use release =>
      let br : Bracket := { owner := e, link, release }
      let σ₁ := (σ.newBoundary (.bracket br)).1
      have hover : (σ₁.push link (.bracket σ.boundaries.size)).1.overs g ≤ σ.overs g :=
        Store.overs_mono (Store.over_newBoundary (show br.gate ≠ .opened by simp [br]))
      change (Weight.opening g).calls ((σ₁.push link _).2 ++ [_]) + 0 + 0 +
        (σ₁.push link (.bracket σ.boundaries.size)).1.overs g ≤ _
      rw [Weight.calls_append, Weight.calls_opening_push]
      exact Nat.le_add_right_of_le (by simpa [Weight.call, Weight.opening] using hover)
    | pop c =>
      have hover : (σ.popToken c).1.overs g = σ.overs g := rfl
      simp only [Node.step, Prog.step]
      generalize σ.popToken c = x at hover
      obtain ⟨σ', _ | t⟩ := x <;>
        exact Nat.le_add_right_of_le (Nat.le_of_eq ((Nat.zero_add _).trans hover))
    | _ => exact absurd trivial hm
  | token t =>
    cases t with
    | bracket g' =>
      have hover : (σ.takeRelease g' .cancelled).1.overs g = σ.overs g :=
        Store.overs_congr (Store.over_takeRelease .cancelled)
      change 0 + 0 + 0 + (σ.takeRelease g' .cancelled).1.overs g ≤ _
      rw [hover]
      omega
    | connection c =>
      have hover : (σ.cancel c).1.overs g = σ.overs g := rfl
      simp only [Node.step, Token.begin]
      generalize σ.cancel c = x at hover
      obtain ⟨σ', _ | ts⟩ := x <;>
        exact Nat.le_add_right_of_le (Nat.le_of_eq ((Nat.zero_add _).trans hover))
    | _ => exact absurd ⟨rfl, by simp⟩ hm
  | sweep of ts =>
    cases ts <;> exact Nat.le_add_right_of_le (Nat.le_of_eq (Nat.zero_add _))
  | release g' v x =>
    simp only [Node.step, Node.deal]
    split
    · by_cases hg : g' = g
      · simp [hg, Weight.turn, Weight.opening, Weight.stage, Deal.pays, Nat.add_comm]
      · simp [hg, Weight.turn, Weight.opening, Weight.stage]
    · simp [Weight.turn, Weight.stage, Weight.opening]
  | _ => exact absurd trivial hm

/-- A frame opens a gate only once the release has ended. -/
theorem Frame.resume_gates (f : Frame) (r : Result) (link : Link) :
    (Weight.opening g).turn (f.resume r link σ) + (f.resume r link σ).store.overs g ≤
      (Weight.opening g).frame f + σ.overs g := by
  by_cases hf : f.Ordinary
  · rw [Weight.opening_turn_of_plain (Frame.resume_plain hf r σ)]
    exact Nat.le_add_left _ _
  cases f with
  | use g' f => cases r <;> exact Nat.le_refl _
  | release g' =>
    have hover : (σ.takeRelease g' (.ofResult r)).1.overs g = σ.overs g :=
      Store.overs_congr (Store.over_takeRelease _)
    change 0 + 0 + 0 + (σ.takeRelease g' (.ofResult r)).1.overs g ≤ _
    rw [hover]
    omega
  | openGate g' =>
    cases r with
    | ok v =>
      change (Weight.opening g).calls (σ.openGate g').2 + 0 + 0 + (σ.openGate g').1.overs g ≤ _
      rw [Weight.calls_opening_openGate]
      by_cases hg : g' = g
      · have hone : (σ.openGate g').1.overs g ≤ 1 := Store.overs_le_one
        simp only [Weight.opening, if_pos hg]
        omega
      · have hover : (σ.openGate g').1.overs g ≤ σ.overs g :=
          Store.overs_mono fun h => (Store.over_openGate h).resolve_right hg
        omega
    | error x =>
      change 0 + 0 + 0 + σ.overs g ≤ _
      omega
  | endBracket g' used =>
    have hover : ((Frame.endBracket g' used).resume r link σ).store.overs g = σ.overs g := by
      cases r <;> rfl
    have hturn : (Weight.opening g).turn ((Frame.endBracket g' used).resume r link σ) = 0 := by
      cases r <;> rfl
    omega
  | sweep of t ts first =>
    have hturn : (Weight.opening g).turn ((Frame.sweep of t ts first).resume r link σ) = 0 := by
      cases ts <;> rfl
    have hover : ((Frame.sweep of t ts first).resume r link σ).store.overs g = σ.overs g := by
      cases ts <;> rfl
    omega
  | _ => exact absurd trivial hf

theorem Loop.step_gates {s : Stage} {l : Loop} (hopen : ∀ b, s = .leaving b →
    σ.boundary? b = some .registering ∨ ∃ r, σ.boundary? b = some (.ready r)) :
    (Weight.opening g).next (l.step s σ) + (l.step s σ).1.overs g ≤
      (Weight.opening g).call (.work s l) + (Weight.opening g).waiting σ + σ.overs g +
        ((Activity.work s l).deal g σ).pays := by
  have hplain : ∀ t : Turn, t.Opens σ → t.Plain σ → (Weight.opening g).next (t.on l) +
      (t.on l).1.overs g ≤ 0 + (Weight.opening g).loop l + (Weight.opening g).waiting σ + σ.overs g := by
    intro t hopens ht
    have h : _ + t.store.overs g = _ := Weight.opening_turn_of_plain ht
    rw [Weight.next_on _ hopens]
    change _ + t.store.overs g ≤ _
    omega
  cases s with
  | looking m =>
    cases hc : σ.isCancelled l.link with
    | true =>
      rw [Loop.step_of_cancelled hc]
      simp only [Weight.next, Weight.calls_cons, Weight.calls_nil, Weight.call, Weight.loop]
      omega
    | false =>
      have h := m.step_gates (σ := σ) (g := g) l.id l.link
      rw [Loop.step_of_not_cancelled hc, Weight.next_on _ (m.step_opens _ _ σ)]
      simp only [Activity.deal, hc, Weight.call, Weight.stage]
      change _ + (m.step l.id l.link σ).store.overs g ≤ _
      omega
  | handing r =>
    obtain ⟨e, link, _ | ⟨f, fs⟩, k⟩ := l
    · exact Nat.le_of_eq (by simp [Loop.step, Weight.next, Weight.call, Weight.stage, Weight.loop,
        Activity.deal, Deal.pays])
    · have h := f.resume_gates (σ := σ) (g := g) r link
      change (Weight.opening g).next (Turn.on _ ⟨e, link, fs, k⟩) +
        (f.resume r link σ).store.overs g ≤ _
      rw [Weight.next_on _ (f.resume_opens r link σ)]
      simp only [Weight.call, Weight.stage, Weight.loop, Weight.frames_cons]
      omega
  | delaying c =>
    exact Nat.le_add_right_of_le (hplain _ (c.delaying_opens _ σ) (c.delaying_plain σ))
  | suspending c =>
    exact Nat.le_add_right_of_le (hplain _ (c.suspending_opens _ σ) (c.suspending_plain σ))
  | mapping c =>
    exact Nat.le_add_right_of_le (hplain _ (c.mapping_opens _ σ) (c.mapping_plain σ))
  | leaving b =>
    have h : (Weight.opening g).next (σ.leave b l) =
        (Weight.opening g).loop l + (Weight.opening g).waiting σ :=
      Weight.leave _ (fun _ => rfl) (hopen b rfl)
    have hover : (σ.leave b l).1.overs g = σ.overs g := by
      unfold Store.leave
      split <;> rfl
    change (Weight.opening g).next (σ.leave b l) + (σ.leave b l).1.overs g ≤ _
    rw [h, hover]
    simp [Weight.call, Weight.stage, Activity.deal, Deal.pays]

/-- The end of an acquisition opens the gate of its bracket if it failed. -/
theorem Store.endAcquire_gates (g' : BracketId) (r : Result) :
    (Weight.opening g).calls (σ.endAcquire g' r).2 = 0 ∧
      (σ.endAcquire g' r).1.overs g ≤ σ.overs g + ((Sink.acquired g').deal g r).pays := by
  cases hbr : σ.bracket? g' with
  | none =>
    rw [Store.endAcquire_of_none hbr]
    exact ⟨rfl, Nat.le_add_right _ _⟩
  | some br =>
    cases r with
    | error x =>
      rw [Store.endAcquire_error hbr, Weight.calls_append, Weight.calls_opening_openGate]
      refine ⟨rfl, ?_⟩
      by_cases hg : g' = g
      · have hone : ((σ.dropToken br.link).openGate g').1.overs g ≤ 1 := Store.overs_le_one
        have hpays : ((Sink.acquired g').deal g (.error x)).pays = 1 := by
          simp [Sink.deal, hg, Except.isOk, Except.toBool, Deal.pays]
        dsimp only
        omega
      · have hover : ((σ.dropToken br.link).openGate g').1.overs g ≤ (σ.dropToken br.link).overs g :=
          Store.overs_mono fun h => (Store.over_openGate h).resolve_right hg
        exact Nat.le_add_right_of_le hover
    | ok v =>
      have hhold : (σ.hold g' v).overs g = σ.overs g :=
        Store.overs_congr (Store.over_modifyBracket fun _ => rfl)
      cases hc : σ.isCancelled br.link with
      | true =>
        rw [Store.endAcquire_late hbr hc]
        have htake : ((σ.hold g' v).takeRelease g' .cancelled).1.overs g = (σ.hold g' v).overs g :=
          Store.overs_congr (Store.over_takeRelease _)
        refine ⟨rfl, Nat.le_add_right_of_le (Nat.le_of_eq ?_)⟩
        exact htake.trans hhold
      | false =>
        rw [Store.endAcquire_held hbr hc]
        exact ⟨rfl, Nat.le_add_right_of_le (Nat.le_of_eq hhold)⟩

/-- **A step opens a gate only if the acquisition failed or a loop has come to the end of the
release**, and such a loop has begun the release. -/
theorem Activity.step_gates {x : Activity} (hopen : ∀ b l, x = .work (.leaving b) l →
    σ.boundary? b = some .registering ∨ ∃ r, σ.boundary? b = some (.ready r)) :
    (Weight.opening g).next (x.step σ) + (x.step σ).1.overs g ≤
      (Weight.opening g).call x + (Weight.opening g).waiting σ + σ.overs g + (x.deal g σ).pays := by
  by_cases hord : x.Ordinary
  · rw [Weight.next_of_ordinary Weight.opening_light hord fun _ => rfl]
    refine Nat.le_add_right_of_le (Nat.add_le_add_left (Nat.le_of_eq (Store.overs_congr ?_)) _)
    obtain ⟨σ', hdrops, hplain⟩ := Activity.step_plain hord σ
    exact hplain.alike.over_eq.trans hdrops.over_eq
  cases x with
  | start m link k =>
    refine Nat.le_add_right_of_le (Nat.le_of_eq ?_)
    change (Weight.opening g).calls [_] + (Weight.opening g).waiting σ + σ.overs g = _
    simp [Weight.call, Weight.stage, Weight.loop]
  | work s l => exact Loop.step_gates fun b hb => hopen b l (by rw [hb])
  | deliver e k r =>
    cases k with
    | acquired g' =>
      obtain ⟨hcalls, hover⟩ := Store.endAcquire_gates (σ := σ) (g := g) g' r
      have hwaiting : (Weight.opening g).waiting (σ.endAcquire g' r).1 =
          (Weight.opening g).waiting σ := Weight.waiting_of_cells _ (σ.endAcquire_aside g' r).cells
      change (Weight.opening g).calls (σ.endAcquire g' r).2 +
        (Weight.opening g).waiting (σ.endAcquire g' r).1 + (σ.endAcquire g' r).1.overs g ≤ _
      simp only [Activity.deal]
      omega
    | lateRelease g' =>
      have hnext : (Weight.opening g).next ((Sink.lateRelease g').receive r σ) =
          (Weight.opening g).waiting σ := by
        simp only [Sink.receive]
        split <;> exact Nat.zero_add _
      have hover : ((Sink.lateRelease g').receive r σ).1.overs g = σ.overs g := by
        simp only [Sink.receive]
        split <;> rfl
      change (Weight.opening g).next ((Sink.lateRelease g').receive r σ) +
        ((Sink.lateRelease g').receive r σ).1.overs g ≤ _
      omega
    | _ => exact absurd trivial hord
  | complete c r =>
    cases c with
    | boundary b =>
      have hnext : (Weight.opening g).next (σ.completeBoundary b r) =
          (Weight.opening g).waiting σ := Weight.completeBoundary _ (fun _ => rfl) b r
      have hover : (σ.completeBoundary b r).1.overs g = σ.overs g := by
        unfold Store.completeBoundary
        split <;> rfl
      change (Weight.opening g).next (σ.completeBoundary b r) +
        (σ.completeBoundary b r).1.overs g ≤ _
      omega
    | _ => exact absurd trivial hord
  | _ => exact absurd trivial hord

end Steps

/-! ## The ledger -/

namespace Session

variable {g : BracketId}

/-- **Every open gate and every loop at work on a release is paid for** by a release that was begun
or an acquisition that failed. -/
theorem gates (g : BracketId) (cs : List Choice) :
    (Weight.opening g).session (after cs) + (after cs).store.overs g ≤
      (after cs).deals g .releases + (after cs).deals g (.acquires false) := by
  refine invariant (P := fun S => (Weight.opening g).session S + S.store.overs g ≤
    S.deals g .releases + S.deals g (.acquires false)) (Nat.le_refl 0) ?_ ?_ cs
  · intro cs i h
    have hsession := (Weight.opening g).session_input (S := after cs) (i.step (after cs).store)
    have hnext := Weight.next_of_plain (Weight.opening_light (g := g)) (i.step_plain (after cs).store)
      (i.step_aside _) fun _ => rfl
    have hover : (i.step (after cs).store).1.overs g = (after cs).store.overs g := by
      obtain ⟨σ', hdrops, hplain⟩ := i.step_plain (after cs).store
      exact Store.overs_congr (hplain.alike.over_eq.trans hdrops.over_eq)
    rw [deals_input (by simp), deals_input (by simp), record_store]
    omega
  · intro cs x xs ys hS h
    have hsession := (Weight.opening g).session_call (x.step (after cs).store) hS
    have hstep := Activity.step_gates (σ := (after cs).store) (g := g) (x := x) fun b l hx =>
      leaving_open (l := l) (by rw [hS, hx]; simp)
    have hpays : (x.deal g (after cs).store).pays =
        (if x.deal g (after cs).store = .releases then 1 else 0) +
          if x.deal g (after cs).store = .acquires false then 1 else 0 := by
      cases x.deal g (after cs).store with
      | acquires ok => cases ok <;> rfl
      | _ => rfl
    rw [deals_call, deals_call, record_store]
    omega

/-- The acquisition of the bracket has ended, and what it acquired was released once; the release is
over. -/
def Finished (g : BracketId) (S : Session) : Prop :=
  (Weight.opening g).session S = 0 ∧
    (S.deals g (.acquires true) = 1 ∧ S.deals g .releases = 1 ∨
      S.deals g (.acquires false) = 1 ∧ S.deals g .releases = 0)

/-- **Once the gate of a bracket is open, its release has been run once and is over**, or its
acquisition failed and there was nothing to release. -/
theorem finished_of_over {cs : List Choice} (h : (after cs).store.Over g) :
    (after cs).Finished g := by
  have hgates := gates g cs
  have hreleases := releases_le g cs
  have hacquisitions := acquisitions g cs
  have hover : (after cs).store.overs g = 1 := if_pos h
  unfold Finished
  split at hacquisitions <;> refine ⟨by omega, by omega⟩

end Session

end CancelableEffects
