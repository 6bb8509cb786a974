import CancelableEffects.Proofs.Order

/-!
# Regions — an uncancelable region runs to its end

* `Session.LeftRegion`: an execution has handed the result of a region to its end.
* `Session.region`: the end of a region stays on the stack until it receives the result.
* **`Session.region_stays`**: a loop in a region is not stopped.
* **`Session.released_during_region`**: a release that starts meanwhile was asked for by the token of
  the bracket.
-/

namespace CancelableEffects.Session

/-- Since the past was `past₀`, the execution has handed the result of the region above the frames
`below` to its end. -/
def LeftRegion (past₀ : List Moment) (e : ExecutionId) (enclosing : Link) (below : List Frame)
    (S : Session) : Prop :=
  ∃ later m earlier r l, S.past = later ++ m :: earlier ∧ past₀ <:+ earlier ∧
    m.call = some (.work (.handing r) l) ∧ l.id = e ∧ l.stack = .restore enclosing :: below

section Region

variable {cs₀ : List Choice} {s₀ : Stage} {l₀ : Loop} {above below : List Frame} {enclosing : Link}

theorem LeftRegion.record {past₀ : List Moment} {e : ExecutionId} {S : Session}
    {call : Option Activity} {next : Next} {others : List Activity}
    (h : S.LeftRegion past₀ e enclosing below) :
    (S.record call next others).LeftRegion past₀ e enclosing below := by
  obtain ⟨later, m, earlier, r, l, hpast, hrest⟩ := h
  exact ⟨_ :: later, m, earlier, r, l, by rw [record_past, hpast]; rfl, hrest⟩

theorem LeftRegion.step {past₀ : List Moment} {e : ExecutionId} {S : Session}
    (h : S.LeftRegion past₀ e enclosing below) (x : Choice) :
    (S.step x).LeftRegion past₀ e enclosing below := by
  obtain hx | ⟨call, next, others, hx, -⟩ := S.step_eq x <;> rw [hx]
  · exact h
  · exact h.record

/-- **The end of a region stays on the stack until it receives the result.** -/
theorem region (hl₀ : (after cs₀).Has s₀ l₀) (hstack₀ : l₀.stack = above ++ .restore enclosing :: below)
    (cs : List Choice) (s : Stage) (l : Loop) (hl : (after (cs ++ cs₀)).Has s l)
    (hid : l.id = l₀.id) :
    (∃ above, l.stack = above ++ .restore enclosing :: below) ∨
      (after (cs ++ cs₀)).LeftRegion (after cs₀).past l₀.id enclosing below := by
  refine follow (P := fun S s l => (∃ above, l.stack = above ++ .restore enclosing :: below) ∨
    S.LeftRegion (after cs₀).past l₀.id enclosing below) hl₀ (.inl ⟨above, hstack₀⟩) ?_ ?_ ?_ cs s l
      hl hid
  · intro S call next others s l _ h
    exact h.imp_right .record
  · intro cs s l t fs others hcall hid h ht
    obtain ⟨above, hstack⟩ | hleft := h
    · obtain hkept | ⟨r, rfl, rfl, rfl, -⟩ := ht.keeps hstack
      · exact .inl hkept
      · exact .inr ⟨[], _, _, r, l, rfl, past_suffix cs₀ cs, rfl, hid, hstack⟩
    · exact .inr hleft.record
  · intro S b l r _ h
    exact h

/-- **A loop in a region is not stopped**: it stays there until it has handed the result of the region
to its end, whatever is cancelled meanwhile. -/
theorem region_stays (hl₀ : (after cs₀).Has s₀ l₀)
    (hstack₀ : l₀.stack = above ++ .restore enclosing :: below) (cs : List Choice) :
    (∃ s l above, (after (cs ++ cs₀)).Has s l ∧ l.id = l₀.id ∧ l.link = none ∧
        l.stack = above ++ .restore enclosing :: below) ∨
      (after (cs ++ cs₀)).LeftRegion (after cs₀).past l₀.id enclosing below := by
  have hlink : ∀ {cs s above} {l : Loop}, (after cs).Has s l →
      l.stack = above ++ .restore enclosing :: below → l.link = none := fun hl hstack => by
    have hfits := fits_of_has hl
    rw [hstack] at hfits
    exact hfits.link_eq_none (List.mem_append_right _ List.mem_cons_self)
  induction cs with
  | nil => exact .inl ⟨s₀, l₀, above, hl₀, rfl, hlink hl₀ hstack₀, hstack₀⟩
  | cons x cs ih =>
    obtain ⟨s, l, above, hl, hid, hnone, hstack⟩ | hleft := ih
    · obtain ⟨s', l', hl', hid'⟩ | ⟨place, rfl, hcall, hends⟩ := has_next hl x
      · obtain ⟨above', hstack'⟩ | hleft := region hl₀ hstack₀ (x :: cs) s' l' hl' (hid'.trans hid)
        · exact .inl ⟨s', l', above', hl', hid'.trans hid, hlink hl' hstack', hstack'⟩
        · exact .inr hleft
      · obtain ⟨n, -, hc⟩ | ⟨r, -, hempty⟩ := hends
        · rw [hnone] at hc
          cases hc
        · simp [hempty] at hstack
    · exact .inr (hleft.step x)

/-- **A release that starts while its execution is in a region was asked for by the token of the
bracket**, and runs with the exit of cancellation. -/
theorem released_during_region {g : BracketId} {c : ConnectionId} (hl₀ : (after cs₀).Has s₀ l₀)
    (hstack₀ : l₀.stack = above ++ .restore enclosing :: below) (huse : .release g ∈ below)
    (hopened : (after cs₀).store.Opened g (some c))
    (hactive : (after cs₀).store.isCancelled (some c) = false)
    (hacquired : (after cs₀).deals g (.acquires true) = 1) (cs : List Choice) :
    ((∃ s l above, (after (cs ++ cs₀)).Has s l ∧ l.id = l₀.id ∧ l.link = none ∧
          l.stack = above ++ .restore enclosing :: below) ∧
        ∀ a ∈ (after (cs ++ cs₀)).calls, a.deal g (after (cs ++ cs₀)).store = .releases →
          0 < (after (cs ++ cs₀)).spent g ∧
            ∃ v l, a = .work (.looking (.release g v .cancelled)) l) ∨
      (after (cs ++ cs₀)).LeftRegion (after cs₀).past l₀.id enclosing below := by
  refine (region_stays hl₀ hstack₀ cs).imp_left fun hregion => ⟨hregion, fun a ha hd => ?_⟩
  obtain ⟨s, l, above, hl, hid, hnone, hstack⟩ := hregion
  obtain ⟨v, x, l', rfl, -⟩ := Activity.of_deal_releases hd
  obtain ⟨hspent, rfl⟩ | ⟨br, hbr, howner, hlink⟩ | hlate := releasing _ _ l' (.inl ha) g v x rfl
  · exact ⟨hspent, v, l', rfl⟩
  · -- the execution that opened the bracket is in the region
    have hgrown := hopened.grows (after_grows cs₀ cs)
    have hfits := fits_of_has hl
    rw [hstack] at hfits
    obtain ⟨-, br', hbr', howner', -⟩ :=
      hfits.of_mem (List.mem_append_right _ (List.mem_cons_of_mem _ huse))
    cases hbr.symm.trans hbr'
    obtain ⟨rfl, rfl⟩ := has_unique (.inl ha) hl (howner'.symm.trans howner)
    have hsome : (some c : Link) = l.link := hgrown.unique ⟨br, hbr, hlink⟩
    rw [hnone] at hsome
    cases hsome
  · exact (not_late hacquired hopened hactive cs ha hlate).elim

end Region

/-- An execution that waits in the use of a bracket, in an uncancelable region. -/
def regionParked : List Choice :=
  List.replicate 17 (.call 0) ++
    [.input (.run (.bracket .unit (fun _ => .ret (.uncancelable .never))
      (.call fun _ _ => .ret .unit)) none true)]

/-- A cancellation of its connection, up to the start of the release. -/
def cancelsParked : List Choice :=
  List.replicate 5 (.call 0) ++ [.input (.run (.cancel (some 0)) none false)]

theorem regionParked_released :
    (0 < (after (cancelsParked ++ regionParked)).spent 0 ∧
        ∃ v l, (after (cancelsParked ++ regionParked)).calls =
          [.work (.looking (.release 0 v .cancelled)) l]) ∨
      (after (cancelsParked ++ regionParked)).LeftRegion (after regionParked).past 0 (some 0)
        [.release 0] := by
  have hl₀ : (after regionParked).Has (.leaving 1)
      ⟨0, none, [] ++ .restore (some 0) :: [.release 0], .observer 0⟩ := .inr ⟨1, rfl, rfl⟩
  refine (released_during_region hl₀ rfl (.head _) ⟨_, rfl, rfl⟩ rfl rfl cancelsParked).imp_left ?_
  rintro ⟨-, hreleased⟩
  exact ⟨(hreleased _ (.head _) rfl).1, _, _, rfl⟩

end CancelableEffects.Session
