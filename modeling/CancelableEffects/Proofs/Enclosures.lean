import CancelableEffects.Proofs.Claims

/-!
# Enclosures — uncancelable regions nest, and give back the connection that they found

* `Region`, `Session.regions`: the regions that an execution has entered and not left, read off its past.
* `Region.ends`: the regions whose ends are on a stack.
* **`Session.regions_eq`**: these are the same, in every reachable state.
* `Session.keeperLink_of_interrupts`: a boundary that is completed by a cancellation has a connection.
* **`Session.regions_enclose`**: cancellation is disabled exactly while a region is open, the end of each
  gives back the connection at its entry, and an execution that was cancelled meanwhile is stopped after the
  outermost one.
-/

namespace CancelableEffects

/-! ## Open regions -/

/-- A region in which cancellation is disabled: the connection and the stack that the loop had when it
entered the region. -/
structure Region where
  link : Link
  below : List Frame

/-- With this node a loop enters a region: an uncancelable program, a cancellation, or a release. -/
def Node.opensRegion (σ : Store) : Node → Bool
  | .program (.uncancelable _) | .sweep _ _ => true
  | .release g _ _ => (σ.bracket? g).isSome
  | _ => false

/-- The open regions of an execution after the call, the innermost first. A region is left when a result
comes to the frame right above the stack that the loop had on entry. -/
def Activity.regions (e : ExecutionId) (σ : Store) (xs : List Region) : Activity → List Region
  | .work (.looking n) l =>
    if l.id = e ∧ n.opensRegion σ ∧ σ.isCancelled l.link = false then ⟨l.link, l.stack⟩ :: xs else xs
  | .work (.handing _) l =>
    if l.id = e ∧ xs.head?.any (fun x => l.stack.length = x.below.length + 1) then xs.tail else xs
  | _ => xs

/-- The open regions of an execution after this moment. -/
def Moment.regions (e : ExecutionId) (m : Moment) (xs : List Region) : List Region :=
  match m.call with
  | some a => a.regions e m.before xs
  | none => xs

/-- The regions that the execution has entered so far and not left, the innermost first. -/
def Session.regions (e : ExecutionId) (S : Session) : List Region := S.past.foldr (Moment.regions e) []

/-- The regions whose ends are on the stack, the innermost first. -/
def Region.ends : List Frame → List Region
  | [] => []
  | .restore link :: fs => ⟨link, fs⟩ :: ends fs
  | _ :: fs => ends fs

section Ends

variable {fs gs : List Frame} {x : Region}

theorem Region.ends_cons {f : Frame} (h : ∀ link, f ≠ .restore link) : ends (f :: fs) = ends fs := by
  cases f with
  | restore link => exact absurd rfl (h link)
  | _ => rfl

theorem Region.ends_append (h : ∀ link, Frame.restore link ∉ gs) : ends (gs ++ fs) = ends fs := by
  induction gs with
  | nil => rfl
  | cons g gs ih =>
    rw [List.cons_append, ends_cons fun link hg => h link (hg ▸ .head _)]
    exact ih fun link hm => h link (.tail _ hm)

theorem Region.mem_ends : x ∈ ends fs ↔ ∃ above, fs = above ++ .restore x.link :: x.below := by
  induction fs with
  | nil => simp [ends]
  | cons f fs ih =>
    by_cases hf : ∃ link, f = .restore link
    · obtain ⟨link, rfl⟩ := hf
      rw [ends, List.mem_cons, ih]
      constructor
      · rintro (rfl | ⟨above, rfl⟩)
        · exact ⟨[], rfl⟩
        · exact ⟨_ :: above, rfl⟩
      · rintro ⟨_ | ⟨f', above⟩, h⟩
        · obtain ⟨hlink, hbelow⟩ := List.cons.inj h
          cases hlink
          exact .inl (congrArg (Region.mk _) hbelow).symm
        · exact .inr ⟨above, (List.cons.inj h).2⟩
    · rw [ends_cons fun link h => hf ⟨link, h⟩, ih]
      constructor
      · rintro ⟨above, rfl⟩
        exact ⟨f :: above, rfl⟩
      · rintro ⟨_ | ⟨f', above⟩, h⟩
        · exact absurd ⟨_, (List.cons.inj h).1⟩ hf
        · exact ⟨above, (List.cons.inj h).2⟩

/-- The end of a region is above what the loop had on its stack on entry. -/
theorem Region.length_lt (h : x ∈ ends fs) : x.below.length < fs.length := by
  obtain ⟨above, rfl⟩ := mem_ends.1 h
  rw [List.length_append, List.length_cons]
  omega

theorem Region.ends_eq_nil : ends fs = [] ↔ ∀ link, Frame.restore link ∉ fs := by
  refine ⟨fun h link hm => ?_, fun h => ?_⟩
  · obtain ⟨above, below, hfs⟩ := List.append_of_mem hm
    have hmem : (⟨link, below⟩ : Region) ∈ ends fs := mem_ends.2 ⟨above, hfs⟩
    rw [h] at hmem
    cases hmem
  · rw [← List.append_nil fs, ends_append h, ends]

end Ends

section Turns

variable {n : Node} {e : ExecutionId} {link : Link} {σ : Store} {fs : List Frame}

theorem Node.restore_notMem (h : n.opensRegion σ = false) (enclosing : Link) :
    Frame.restore enclosing ∉ (n.step e link σ).frames := by
  rw [Node.frames_eq]
  cases n with
  | program p =>
    cases p with
    | uncancelable q => cases h
    | _ => simp [Node.frames, Prog.frames]
  | token t => cases t <;> simp [Node.frames, Token.frames]
  | sweep of ts => cases h
  | release g v x =>
    have hnone : σ.bracket? g = none := by simpa [opensRegion] using h
    simp [Node.frames, hnone]
  | _ => simp [Node.frames]

/-- A loop that enters a region has its end on the stack, right above what was there. -/
theorem Node.step_ends (n : Node) (e : ExecutionId) (link : Link) (σ : Store) (fs : List Frame) :
    Region.ends ((n.step e link σ).frames ++ fs) =
      if n.opensRegion σ then ⟨link, fs⟩ :: Region.ends fs else Region.ends fs := by
  cases hopens : n.opensRegion σ with
  | false => exact Region.ends_append (n.restore_notMem hopens)
  | true =>
    cases n with
    | program p => cases p <;> first | rfl | cases hopens
    | sweep of ts => cases ts <;> rfl
    | release g v x =>
      obtain ⟨br, hbr⟩ := Option.isSome_iff_exists.1 hopens
      simp only [Node.step, hbr]
      rfl
    | _ => cases hopens

/-- **A turn opens and leaves regions as its ends on the stack come and go.** -/
theorem Loop.Takes.ends {l : Loop} {s : Stage} {t : Turn} (ht : l.Takes σ s t fs) :
    Region.ends (t.loop l fs).stack = Activity.regions l.id σ (Region.ends l.stack) (.work s l) := by
  cases ht with
  | looking n hc =>
    have hends : Region.ends (Turn.loop _ l l.stack).stack = _ := n.step_ends l.id l.link σ l.stack
    rw [hends]
    simp [Activity.regions, hc]
  | handing r f fs hstack =>
    have hends : Region.ends (Turn.loop (f.resume r l.link σ) l fs).stack = Region.ends fs :=
      Region.ends_append fun link => f.restore_notMem r l.link link σ
    rw [hends, hstack, Activity.regions, hstack]
    by_cases hf : ∃ link, f = .restore link
    · obtain ⟨link, rfl⟩ := hf
      simp [Region.ends]
    · -- the frame on top is not the end of a region, so the innermost one ends further below
      rw [Region.ends_cons fun link h => hf ⟨link, h⟩, if_neg]
      rintro ⟨-, h⟩
      cases hfs : Region.ends fs with
      | nil => simp [hfs] at h
      | cons x xs =>
        have hlt := Region.length_lt (hfs ▸ List.mem_cons_self : x ∈ Region.ends fs)
        simp only [hfs, List.head?_cons, Option.any_some, List.length_cons, Nat.add_right_cancel_iff,
          decide_eq_true_eq] at h
        omega
  | _ => rfl

end Turns

/-! ## The regions of an execution -/

theorem Activity.regions_of_other {a : Activity} {e : ExecutionId} {σ : Store} {xs : List Region}
    (h : ∀ s l, a = .work s l → l.id ≠ e) : a.regions e σ xs = xs := by
  cases a with
  | work s l =>
    have hid := h s l rfl
    cases s <;> simp [Activity.regions, hid]
  | _ => rfl

namespace Session

variable {cs cs₀ : List Choice} {x : Choice} {place : Nat} {m : Moment} {s : Stage} {l : Loop}
  {e : ExecutionId} {b : BoundaryId} {c : ConnectionId}

theorem Made.regions (hm : Made cs x m) (e : ExecutionId) :
    (after (x :: cs)).regions e = m.regions e ((after cs).regions e) := by
  rw [Session.regions, hm.past]
  rfl

theorem regions_of_call {a : Activity} (h : (after cs).calls[place]? = some a) (e : ExecutionId) :
    (after (.call place :: cs)).regions e = a.regions e (after cs).store ((after cs).regions e) :=
  (made_call h).regions e

/-- Only the steps of its own loop open and leave the regions of an execution. -/
theorem regions_of_other (h : ∀ place s l, x = .call place → (after cs).calls[place]? = some (.work s l) →
    l.id ≠ e) : (after (x :: cs)).regions e = (after cs).regions e := by
  obtain hsame | ⟨m, hm⟩ := made_or cs x
  · rw [hsame]
  rw [hm.regions, Moment.regions]
  obtain ⟨i, -, hnone, -⟩ | ⟨place, a, rfl, ha, hsome, -⟩ := hm.how
  · rw [hnone]
  · rw [hsome]
    exact Activity.regions_of_other fun s l hs => h place s l rfl (hs ▸ ha)

/-- An execution that has not begun has entered no region. -/
theorem regions_of_le (cs : List Choice) (h : (after cs).store.executions ≤ e) :
    (after cs).regions e = [] := by
  induction cs with
  | nil => rfl
  | cons x cs ih =>
    have hle := Nat.le_trans (executions_le cs [x]) h
    rw [regions_of_other fun place s l _ hcall hid => ?_, ih hle]
    exact absurd (hid ▸ lt_executions (.inl (List.mem_of_getElem? hcall))) (Nat.not_lt.2 hle)

/-- **The ends of regions on the stack of a loop are those of the open regions of its execution.** -/
theorem regions_eq (cs : List Choice) :
    ∀ s l, (after cs).Has s l → Region.ends l.stack = (after cs).regions l.id := by
  refine always (P := fun S _ l => Region.ends l.stack = S.regions l.id) ?_ ?_ ?_ ?_ cs
  · intro x cs s l hl hl' h
    rw [h]
    by_cases hown : ∃ place, x = .call place ∧ (after cs).calls[place]? = some (.work s l)
    · -- it stays where it is, so with its step it has not entered or left a region
      obtain ⟨place, rfl, hcall⟩ := hown
      obtain ⟨n, rfl, hc, -⟩ | ⟨r, rfl, hstack, -⟩ | ⟨t, fs, ht⟩ | ⟨b, rfl⟩ :=
        l.step_takes s (after cs).store
      · simp [regions_of_call hcall, Activity.regions, hc]
      · simp [regions_of_call hcall, Activity.regions, ← h, hstack, Region.ends]
      · obtain ⟨-, hsame⟩ := has_unique hl' (.inl (work_of_takes hcall ht)) rfl
        rw [regions_of_call hcall, ← h, ← ht.ends, hsame]
      · simp [regions_of_call hcall, Activity.regions]
    · refine (regions_of_other fun place s' l' hx hcall hid => hown ⟨place, hx, ?_⟩).symm
      obtain ⟨rfl, rfl⟩ := has_unique hl (.inl (List.mem_of_getElem? hcall)) hid
      exact hcall
  · intro cs place n link k hcall
    rw [regions_of_call hcall]
    exact (regions_of_le cs (Nat.le_refl _)).symm
  · intro cs place s l t fs hcall h ht
    rw [regions_of_call hcall, ht.ends, h]
    rfl
  · intro x cs b l r hl hanswers h
    rw [h]
    by_cases hown : ∃ place, x = .call place ∧ (after cs).calls[place]? = some (.work (.leaving b) l)
    · obtain ⟨place, rfl, hcall⟩ := hown
      rw [regions_of_call hcall]
      rfl
    · refine (regions_of_other fun place s' l' hx hcall hid => hown ⟨place, hx, ?_⟩).symm
      obtain ⟨rfl, rfl⟩ := has_unique hl (.inl (List.mem_of_getElem? hcall)) hid
      exact hcall

/-! ## Connections -/

/-- The connection under which an execution began is the one that it has when it is in no region. -/
theorem under_of_start {n : Node} {link : Link} {k : Sink}
    (hstart : (after cs₀).calls[place]? = some (.start n link k)) (cs : List Choice)
    (hl : (after (cs ++ .call place :: cs₀)).Has s l) (hid : l.id = (after cs₀).store.executions) :
    l.link.under l.stack = link := by
  have hnew : after (.call place :: cs₀) = _ := step_call hstart
  have hbegun : (after (.call place :: cs₀)).Has (.looking n) ((after cs₀).store.begin link k).2 := by
    rw [hnew]
    exact .inl (.head _)
  exact follow (P := fun _ _ l => l.link.under l.stack = link) hbegun rfl (fun _ h => h)
    (fun _ _ h ht => ht.under.trans h) (fun _ h => h) cs s l hl hid

/-- In a region the loop has no connection. -/
theorem link_of_region (hl : (after cs).Has s l) (hopen : (after cs).regions l.id ≠ []) :
    l.link = none := by
  rw [← regions_eq cs s l hl, Ne, Region.ends_eq_nil, not_forall] at hopen
  obtain ⟨enclosing, hmem⟩ := hopen
  exact (fits_of_has hl).link_eq_none (by simpa using hmem)

/-- Outside regions it has the connection under which the execution began. -/
theorem link_outside (hl : (after cs).Has s l) (hopen : (after cs).regions l.id = []) :
    l.link = l.link.under l.stack := by
  rw [← regions_eq cs s l hl, Region.ends_eq_nil] at hopen
  exact (Link.under_of_notMem hopen).symm

/-! ## Interruptions in a region -/

/-- **A boundary that is completed by a cancellation was opened under a connection.** -/
theorem keeperLink_of_interrupts {a : Activity} (ha : a ∈ (after cs).calls) (h : a.interrupts? = some b) :
    ∃ x, (after cs).store.keeper? b = some x ∧ x.link ≠ none := by
  obtain ⟨r, l, fs, rfl, hstack⟩ | ⟨e, r, rfl⟩ := a.of_interrupts? h
  · obtain ⟨st, hst, hlink⟩ : (Token.step b).Apt (after cs).store :=
      ((apt cs).2 _ ha).2 (.endStep b) (hstack ▸ .head _)
    exact ⟨_, Store.step?_eq_some.1 hst, hlink⟩
  · -- a resource that comes too late was acquired under a connection that was cancelled
    have hweight := (Weight.dues b 0 1 0 0).call_le_calls ha
    have hone : (Weight.dues b 0 1 0 0).call (.deliver e (.lateRelease b) r) = 1 := by
      simp [Weight.call, Weight.dues]
    have hlate := (late_cancelled b cs).resolve_left (by unfold Weight.session; omega)
    cases hbr : (after cs).store.bracket? b with
    | none => simp [Store.bracketLink, hbr, Store.isCancelled] at hlate
    | some br =>
      refine ⟨_, Store.bracket?_eq_some.1 hbr, fun hlink => ?_⟩
      have hlink' : br.link = none := hlink
      simp [Store.bracketLink, hbr, hlink', Store.isCancelled] at hlate

/-- **Where a loop waits without a connection, no cancellation completes the boundary.** -/
theorem not_interrupted (hl : (after cs₀).Has (.leaving b) l) (hnone : l.link = none) (cs : List Choice)
    (hm : m ∈ (after (cs ++ cs₀)).past) : m.call.bind Activity.interrupts? ≠ some b := fun h => by
  obtain ⟨a, hcall, ha⟩ := Option.bind_eq_some_iff.1 h
  obtain ⟨newer, older, hpast⟩ := List.append_of_mem hm
  obtain ⟨cs₂, x, cs₁, hcs, -, hmade⟩ := exists_made hpast
  obtain ⟨i, -, hinput, -⟩ | ⟨place, a', -, hget, hsome, -⟩ := hmade.how
  · cases hinput.symm.trans hcall
  cases hsome.symm.trans hcall
  obtain ⟨x', hx', hlink'⟩ := keeperLink_of_interrupts (List.mem_of_getElem? hget) ha
  obtain ⟨y, hy⟩ := keeper_of_has hl
  -- the boundary has one connection, then and now
  have hgrows : (after cs₁).store.Grows (after (cs ++ cs₀)).store := by
    rw [hcs, List.append_cons]
    exact after_grows cs₁ (cs₂ ++ [x])
  have hsame : (after cs₀).store.keeperLink b = (after cs₁).store.keeperLink b :=
    ((after_grows cs₀ cs).keeperLink hy).symm.trans (hgrows.keeperLink hx')
  obtain ⟨c', hc'⟩ := Option.ne_none_iff_exists'.1 hlink'
  have hlinked : (after cs₀).store.keeperLink b = some c' := by
    rw [hsame, Store.keeperLink, hx', Option.bind_some, hc']
  cases (link_of_has hl hlinked).symm.trans hnone

/-! ## Regions enclose -/

/-- The loop of an execution that was cancelled in a region is in the region, or has left it and looks at
its result. -/
theorem after_region {n : Node} {k : Sink}
    (hstart : (after cs₀).calls[place]? = some (.start n (some c) k)) (cs₁ : List Choice) {s₀ : Stage}
    {l₀ : Loop} (hl₀ : (after (cs₁ ++ .call place :: cs₀)).Has s₀ l₀)
    (hid₀ : l₀.id = (after cs₀).store.executions) (hnone : l₀.link = none)
    (hc : (after (cs₁ ++ .call place :: cs₀)).store.isCancelled (some c) = true) (cs : List Choice)
    (hl : (after (cs ++ (cs₁ ++ .call place :: cs₀))).Has s l) (hid : l.id = l₀.id) :
    l.link = none ∨ ∃ r, s = .looking (.result r) := by
  refine follow (P := fun _ s l => l.link = none ∨ ∃ r, s = .looking (.result r)) hl₀ (.inl hnone)
    (fun _ h => h) ?_ (fun _ h => h.imp_right fun _ => ⟨_, rfl⟩) cs s l hl hid
  intro cs s l t fs others hcall hid h ht
  have hc' := (after_grows _ cs).cancelled _ hc
  cases ht with
  | looking n hactive =>
    obtain hlink | hlink := n.step_link l.id l.link (after (cs ++ (cs₁ ++ .call place :: cs₀))).store
    · refine .inl (hlink.trans ?_)
      by_contra hsome
      -- a loop that has its connection was cancelled, and does not look at anything
      obtain ⟨c', hlink'⟩ := Option.ne_none_iff_exists'.1 hsome
      have hl : (after (cs ++ (cs₁ ++ .call place :: cs₀))).Has (.looking n) l := .inl hcall
      have hunder := under_of_link hl hlink'
      rw [← List.append_assoc] at hl
      cases hunder.symm.trans (under_of_start hstart (cs ++ cs₁) hl (hid.trans hid₀))
      cases hactive.symm.trans (hlink' ▸ hc')
    · exact .inl hlink
  | handing r f fs hstack =>
    cases f with
    | restore enclosing => exact .inr ⟨r, rfl⟩
    | _ => exact .inl ((Frame.resume_link _ r l.link _).trans (h.resolve_right nofun))
  | _ => exact .inl (h.resolve_right nofun)

/-- **Uncancelable regions nest, and each gives back the connection that it found.** Take an execution
that begins under a connection, and any state of it that can be reached. Then
* the ends of regions on its stack are those of the open regions, the innermost on top;
* it has no connection while a region is open, and its own otherwise;
* whatever result a region is left with, the loop has the connection and the stack that it had on entry,
  and looks at that result;
* while a region is open the loop takes each of its turns, and no cancellation completes the boundary at
  which it waits;
* and if its connection was cancelled while a region was open, all that it does after the outermost one
  is to be stopped in front of the result. -/
theorem regions_enclose {n : Node} {k : Sink}
    (hstart : (after cs₀).calls[place]? = some (.start n (some c) k)) (cs : List Choice) (s : Stage)
    (l : Loop) (hl : (after (cs ++ .call place :: cs₀)).Has s l)
    (hid : l.id = (after cs₀).store.executions) :
    let S := after (cs ++ .call place :: cs₀)
    Region.ends l.stack = S.regions l.id ∧
      l.link = (if S.regions l.id = [] then some c else none) ∧
      (∀ r x xs, s = .handing r → S.regions l.id = x :: xs → l.stack.length = x.below.length + 1 →
        l.step s S.store =
          (S.store, [.work (.looking (.result r)) { l with link := x.link, stack := x.below }])) ∧
      (S.regions l.id ≠ [] → (∃ t fs, l.Takes S.store s t fs) ∨ ∃ b, s = .leaving b ∧
        ∀ later, ∀ m ∈ (after (later ++ (cs ++ .call place :: cs₀))).past,
          m.call.bind Activity.interrupts? ≠ some b) ∧
      (S.regions l.id ≠ [] → S.store.isCancelled (some c) = true → ∀ later newer,
        (after (later ++ (cs ++ .call place :: cs₀))).past = newer ++ S.past → ∀ m ∈ newer, ∀ s' l',
          m.call = some (.work s' l') → l'.id = l.id → l'.link ≠ none →
            ∃ r, Stopped (.result r) l' m) := by
  intro S
  have hends := regions_eq _ s l hl
  have hunder := under_of_start hstart cs hl hid
  refine ⟨hends, ?_, fun r x xs hs hopen hlength => ?_, fun hopen => ?_, fun hopen hc later newer hpast m hm
    s' l' hcall hid' hlink => ?_⟩
  · split
    · rename_i hopen
      exact (link_outside hl hopen).trans hunder
    · rename_i hopen
      exact link_of_region hl hopen
  · -- the frame right above the stack on entry is the end of the region
    have hmem : x ∈ Region.ends l.stack := by
      rw [hends]
      exact hopen ▸ .head _
    obtain ⟨above, hstack⟩ := Region.mem_ends.1 hmem
    have hnil : above = [] := by
      rw [hstack, List.length_append, List.length_cons] at hlength
      exact List.length_eq_zero_iff.1 (by omega)
    subst hnil
    have ht : l.Takes S.store (.handing r) _ x.below := .handing r _ _ hstack
    rw [hs, ht.step]
    rfl
  · have hnone := link_of_region hl hopen
    obtain ⟨n, -, hc, -⟩ | ⟨r, -, hstack, -⟩ | htakes | ⟨b, rfl⟩ := l.step_takes s S.store
    · rw [hnone] at hc
      cases hc
    · rw [hstack] at hends
      exact absurd hends.symm hopen
    · exact .inl htakes
    · exact .inr ⟨b, rfl, fun later m hm => not_interrupted hl hnone later hm⟩
  · have hnone := link_of_region hl hopen
    obtain ⟨newer', older, hsplit⟩ := List.append_of_mem hm
    rw [hsplit, List.append_assoc, List.cons_append] at hpast
    obtain ⟨cs₂, x, cs₁, -, -, hmade⟩ := exists_of_later hpast (List.suffix_append _ _)
    obtain ⟨i, -, hinput, -⟩ | ⟨place', a, -, hget, hsome, -⟩ := hmade.how
    · cases hinput.symm.trans hcall
    cases hsome.symm.trans hcall
    have hl' : (after (cs₁ ++ (cs ++ .call place :: cs₀))).Has s' l' := .inl (List.mem_of_getElem? hget)
    obtain ⟨r, rfl⟩ := (after_region hstart cs hl hid hnone hc cs₁ hl' hid').resolve_left hlink
    refine ⟨r, hmade.stopped hcall ?_⟩
    -- it has its connection again, which was cancelled
    have hopen' : (after (cs₁ ++ (cs ++ .call place :: cs₀))).regions l'.id = [] := by
      by_contra hopen'
      exact hlink (link_of_region hl' hopen')
    have hlink' := link_outside hl' hopen'
    rw [← List.append_assoc] at hl'
    rw [hlink', under_of_start hstart (cs₁ ++ cs) hl' (hid'.trans hid)]
    exact (after_grows _ cs₁).cancelled _ hc

/-- Two regions, the inner one left with a panic that the outer one handles, and a wait after that. -/
def nestedRegions (steps : Nat) : List Choice :=
  List.replicate steps (.call 0) ++ [.input (.run
    (.bind (.uncancelable (.recover (.uncancelable (.suspend (.panic "inner"))) fun _ =>
      .ret (.cancelable fun _ => .ret (.pure .unit)))) fun _ => .ret (.pure .unit)) none true)]

/-- During the wait the connection is cancelled. -/
def cancelledInRegion : List Choice :=
  List.replicate 4 (.call 0) ++ .input (.run (.cancel (some 0)) none false) :: nestedRegions 16

/-- Then the wait is answered, up to some step after that. -/
def leavesRegion (steps : Nat) : List Choice :=
  List.replicate steps (.call 0) ++ [.input (.move (.answer 0 (.ok .unit) (.ret ())))]

/-- The inner region leaves the loop where it was, in the outer one. There the wait is not interrupted, and
the loop is stopped in front of the result of the region. -/
theorem inner_left_and_outer_stopped :
    (∃ l x y, (after (nestedRegions 8)).Has (.handing (.error (.panic "inner"))) l ∧
        (after (nestedRegions 8)).regions 0 = [x, y] ∧ x.link = none ∧ y.link = some 0 ∧
        l.step (.handing (.error (.panic "inner"))) (after (nestedRegions 8)).store =
          ((after (nestedRegions 8)).store, [.work (.looking (.result (.error (.panic "inner"))))
            { l with link := none, stack := x.below }])) ∧
      (∃ l, (after cancelledInRegion).Has (.leaving 0) l ∧ l.link = none ∧
        ∀ m ∈ (after (leavesRegion 5 ++ cancelledInRegion)).past,
          m.call.bind Activity.interrupts? ≠ some 0) ∧
      ∃ l m older, (after (leavesRegion 5 ++ cancelledInRegion)).past = m :: older ∧ l.id = 0 ∧
        l.stack.length = 1 ∧ Stopped (.result (.ok .unit)) l m := by
  have hstart : (after (nestedRegions 0)).calls[0]? = some (.start _ (some 0) (.observer 0)) := rfl
  have hinner : (after (nestedRegions 8)).Has (.handing (.error (.panic "inner"))) _ := .inl (.head _)
  obtain ⟨-, -, hleft, -⟩ := regions_enclose hstart (List.replicate 7 (.call 0)) _ _ hinner rfl
  have hcs : cancelledInRegion = (List.replicate 4 (.call 0) ++
    .input (.run (.cancel (some 0)) none false) :: List.replicate 15 (.call 0)) ++
      .call 0 :: nestedRegions 0 := rfl
  have hparked : (after cancelledInRegion).Has (.leaving 0)
    ⟨0, none, [.restore (some 0), .bind fun _ => .ret (.pure .unit)], .observer 0⟩ := .inr ⟨0, rfl, rfl⟩
  have hopen : (after cancelledInRegion).regions 0 ≠ [] := nofun
  have hc : (after cancelledInRegion).store.isCancelled (some 0) = true := rfl
  have hlast : (after (leavesRegion 4 ++ cancelledInRegion)).calls[0]? =
    some (.work (.looking (.result (.ok .unit)))
      ⟨0, some 0, [.bind fun _ => .ret (.pure .unit)], .observer 0⟩) := rfl
  obtain ⟨newer, hnewer⟩ := past_suffix cancelledInRegion (leavesRegion 4)
  have hpast := (made_call hlast).past
  rw [← hnewer] at hpast
  obtain ⟨-, -, -, hwaits, hstops⟩ := regions_enclose hstart _ _ _ (hcs ▸ hparked) rfl
  rw [← hcs] at hwaits hstops
  refine ⟨⟨_, _, _, hinner, rfl, rfl, rfl, hleft _ _ _ rfl rfl rfl⟩, ⟨_, hparked, rfl, fun m hm => ?_⟩,
    ?_⟩
  · obtain ⟨t, fs, ht⟩ | ⟨b, hb, hnot⟩ := hwaits hopen
    · cases ht
    · cases hb
      exact hnot (leavesRegion 5) m hm
  · obtain ⟨r, hstopped⟩ :=
      hstops hopen hc (leavesRegion 5) (_ :: newer) hpast _ (.head _) _ _ rfl rfl nofun
    cases hstopped.1
    exact ⟨_, _, _, hpast, rfl, rfl, hstopped⟩

end Session

end CancelableEffects
