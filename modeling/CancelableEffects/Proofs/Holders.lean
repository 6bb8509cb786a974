import CancelableEffects.Proofs.Acquisitions
import CancelableEffects.Proofs.Arrivals
import CancelableEffects.Proofs.Strands

/-!
# Holders — for which bracket a permit is asked for

* `Moment.opensFor?`, `Moment.asksFor?`, `Moment.returnsFor?`: the bracket that is opened to hold one permit of a
  semaphore, the one whose acquisition asks for its permit, and the one whose release returns it.
* `Asks`: where the acquisition of such a bracket is.
* **`Session.asking`**: it asks for its permit once, has the resource only with the permit, and does not fail.
* `Returns`: where the release of such a bracket is.
* **`Session.returning`**, `Session.returned_or_releasing`: it returns the permit once.
-/

namespace CancelableEffects

/-! ## Brackets that hold a permit -/

namespace Moment

/-- The bracket that a loop opens at this moment to hold one permit of the semaphore. -/
def opensFor? (i : SemaphoreId) (m : Moment) : Option BracketId :=
  match m.call with
  | some (.work (.looking (.program (.bracket (.uncancelable (.permits j 1)) _ (.permit k)))) l) =>
    if j = i ∧ k = i ∧ i < m.before.semaphores.size ∧ m.before.isCancelled l.link = false then
      some m.before.boundaries.size
    else none
  | _ => none

/-- The bracket whose acquisition asks for a permit at this moment, and the ticket with which it does. -/
def asksFor? (i : SemaphoreId) (m : Moment) : Option (BracketId × StepId) :=
  match m.request i, m.call with
  | some (.acquire 1 t), some (.work _ ⟨_, none, [.restore none], .acquired g⟩) => some (g, t)
  | _, _ => none

/-- The bracket whose release returns a permit at this moment. -/
def returnsFor? (i : SemaphoreId) (m : Moment) : Option BracketId :=
  match m.request i, m.call with
  | some (.release 1), some (.work _ ⟨_, none, .attempt :: .openGate g :: _, _⟩) => some g
  | _, _ => none

variable {i : SemaphoreId} {m : Moment} {g : BracketId} {t : StepId}

/-- `Prog.withPermit` opens such a bracket. -/
theorem opensFor?_withPermit {p : Prog} {l : Loop} (hi : i < m.before.semaphores.size)
    (hcall : m.call = some (.work (.looking (.program (.withPermit i p))) l))
    (hc : m.before.isCancelled l.link = false) : m.opensFor? i = some m.before.boundaries.size := by
  unfold opensFor?
  rw [hcall]
  exact if_pos ⟨rfl, rfl, hi, hc⟩

theorem of_opensFor? (h : m.opensFor? i = some g) : ∃ use l,
    m.call = some (.work (.looking (.program (.bracket (.acquire i 1) use (.permit i)))) l) ∧
      i < m.before.semaphores.size ∧ m.before.isCancelled l.link = false ∧ g = m.before.boundaries.size := by
  unfold opensFor? at h
  split at h
  · split at h
    · rename_i j use k l hcall hc
      obtain ⟨rfl, rfl, hi, hc⟩ := hc
      exact ⟨use, l, hcall, hi, hc, (Option.some.inj h).symm⟩
    · cases h
  · cases h

theorem of_asksFor? (h : m.asksFor? i = some (g, t)) : m.request i = some (.acquire 1 t) ∧
    ∃ s e, m.call = some (.work s ⟨e, none, [.restore none], .acquired g⟩) := by
  unfold asksFor? at h
  split at h
  · rename_i hr hcall
    cases h
    exact ⟨hr, _, _, hcall⟩
  · cases h

theorem of_returnsFor? (h : m.returnsFor? i = some g) : m.request i = some (.release 1) ∧
    ∃ s e below k, m.call = some (.work s ⟨e, none, .attempt :: .openGate g :: below, k⟩) := by
  unfold returnsFor? at h
  split at h
  · rename_i hr hcall
    cases h
    exact ⟨hr, _, _, _, _, hcall⟩
  · cases h

/-- What a call asks of the semaphore, the call looks at. -/
theorem looking_of_request {r : Semaphore.Request StepId} {s : Stage} {l : Loop} (h : m.request i = some r)
    (hcall : m.call = some (.work s l)) : ∃ p, s = .looking (.program p) ∧
      m.before.isCancelled l.link = false ∧ p.request m.before.boundaries.size = some (i, r) := by
  unfold request at h
  split at h
  · rw [hcall] at h
    obtain ⟨⟨j, r'⟩, hr', h⟩ := Option.bind_eq_some_iff.1 h
    split at h
    · rename_i hj
      cases h
      change j = i at hj
      subst hj
      change (Activity.work s l).request m.before = some (j, r') at hr'
      unfold Activity.request at hr'
      split at hr'
      · rename_i p l' heq
        cases heq
        split at hr'
        · cases hr'
        · rename_i hc
          exact ⟨p, rfl, Bool.eq_false_iff.2 hc, hr'⟩
      · cases hr'
    · cases h
  · cases h

end Moment

namespace Session

/-- The brackets that were opened so far to hold one permit of the semaphore each. -/
def openedFor (i : SemaphoreId) (S : Session) : List BracketId := S.past.filterMap (·.opensFor? i)

/-- The brackets whose acquisitions have asked for permits so far, each with its ticket. -/
def askedFor (i : SemaphoreId) (S : Session) : List (BracketId × StepId) := S.past.filterMap (·.asksFor? i)

/-- The brackets whose releases have returned permits so far. -/
def returnedFor (i : SemaphoreId) (S : Session) : List BracketId := S.past.filterMap (·.returnsFor? i)

variable {cs : List Choice} {x : Choice} {m : Moment} {i : SemaphoreId} {g : BracketId} {t : StepId}

theorem Made.mem_past {α : Type} {f : Moment → Option α} {a : α} (hm : Made cs x m) :
    a ∈ (after (x :: cs)).past.filterMap f ↔ f m = some a ∨ a ∈ (after cs).past.filterMap f := by
  rw [hm.past, List.filterMap_cons]
  cases f m <;> simp [eq_comm]

/-- What is listed happened with one of the choices. -/
theorem exists_of_mem_past {α : Type} {f : Moment → Option α} {a : α} (h : a ∈ (after cs).past.filterMap f) :
    ∃ cs₂ x cs₁ m, cs = cs₂ ++ x :: cs₁ ∧ Made cs₁ x m ∧ f m = some a := by
  obtain ⟨m, hmem, hm⟩ := List.mem_filterMap.1 h
  obtain ⟨later, earlier, hpast⟩ := List.append_of_mem hmem
  obtain ⟨cs₂, x, cs₁, hcs, -, hmade⟩ := exists_made hpast
  exact ⟨cs₂, x, cs₁, m, hcs, hmade, hm⟩

/-- A bracket that was opened to hold a permit is there, and is going to return the permit. -/
theorem of_opened (h : g ∈ (after cs).openedFor i) : i < (after cs).store.semaphores.size ∧
    ∃ br, (after cs).store.bracket? g = some br ∧ br.release = .permit i := by
  induction cs with
  | nil => cases h
  | cons x cs ih =>
    obtain hsame | ⟨m, hm⟩ := made_or cs x
    · rw [hsame] at h ⊢
      exact ih h
    have hsize : (after cs).store.semaphores.size ≤ (after (x :: cs)).store.semaphores.size :=
      hm.before ▸ semaphores_le (x :: cs) m (hm.past ▸ .head _)
    obtain hnew | hold := hm.mem_past.1 h
    · obtain ⟨use, l, hcall, hi, hc, rfl⟩ := Moment.of_opensFor? hnew
      rw [hm.before] at hi hc ⊢
      refine ⟨Nat.lt_of_lt_of_le hi hsize, ?_⟩
      obtain ⟨j, -, hnone, -⟩ | ⟨place, a, rfl, ha, hsome, -⟩ := hm.how
      · cases hnone.symm.trans hcall
      cases hsome.symm.trans hcall
      rw [store_of_takes ha (.looking _ hc)]
      exact ⟨_, Store.opened_newBoundary _ _ _, rfl⟩
    · obtain ⟨hi, br, hbr, hrelease⟩ := ih hold
      obtain ⟨br', hbr', -, -, hrelease'⟩ :=
        agreed_next (show (after cs).store.Agreed g br.owner br.link (.permit i) from
          ⟨br, hbr, rfl, rfl, hrelease⟩) x
      exact ⟨Nat.lt_of_lt_of_le hi hsize, br', hbr', hrelease'⟩

/-- Who asks for a permit acquires the resource of the bracket. -/
theorem Made.of_asksFor? (hm : Made cs x m) (h : m.asksFor? i = some (g, t)) :
    ∃ place e, x = .call place ∧ (after cs).calls[place]? =
      some (.work (.looking (.program (.permits i 1))) ⟨e, none, [.restore none], .acquired g⟩) ∧
        t = (after cs).store.boundaries.size := by
  obtain ⟨hr, s, e, hcall⟩ := Moment.of_asksFor? h
  obtain ⟨p, rfl, -, hp⟩ := Moment.looking_of_request hr hcall
  obtain ⟨j, -, hnone, -⟩ | ⟨place, a, rfl, ha, hsome, -⟩ := hm.how
  · cases hnone.symm.trans hcall
  cases hsome.symm.trans hcall
  rw [hm.before] at hp
  unfold Prog.request at hp
  split at hp <;> cases hp
  exact ⟨place, e, rfl, ha, rfl⟩

theorem Made.asksFor? {place : Nat} {e : ExecutionId} (hm : Made cs (.call place) m)
    (hi : i < (after cs).store.semaphores.size) (hcall : (after cs).calls[place]? =
      some (.work (.looking (.program (.permits i 1))) ⟨e, none, [.restore none], .acquired g⟩)) :
    m.asksFor? i = some (g, (after cs).store.boundaries.size) := by
  have hsome := (hm.of_call hcall).1
  have hrequest : m.request i = some (.acquire 1 (after cs).store.boundaries.size) := by
    unfold Moment.request
    rw [hm.before, if_pos hi, hsome]
    exact if_pos rfl
  simp only [Moment.asksFor?, hrequest, hsome]

/-- Who returns a permit has come to the end of the release of the bracket. -/
theorem Made.of_returnsFor? (hm : Made cs x m) (h : m.returnsFor? i = some g) :
    ∃ place e below k, x = .call place ∧ (after cs).calls[place]? = some
      (.work (.looking (.program (.instant (.release i 1)))) ⟨e, none, .attempt :: .openGate g :: below, k⟩) := by
  obtain ⟨hr, s, e, below, k, hcall⟩ := Moment.of_returnsFor? h
  obtain ⟨p, rfl, -, hp⟩ := Moment.looking_of_request hr hcall
  obtain ⟨j, -, hnone, -⟩ | ⟨place, a, rfl, ha, hsome, -⟩ := hm.how
  · cases hnone.symm.trans hcall
  cases hsome.symm.trans hcall
  unfold Prog.request at hp
  split at hp <;> cases hp
  exact ⟨place, e, below, k, rfl, ha⟩

theorem Made.returnsFor? {place : Nat} {e : ExecutionId} {below : List Frame} {k : Sink}
    (hm : Made cs (.call place) m) (hi : i < (after cs).store.semaphores.size) (hcall : (after cs).calls[place]? =
      some (.work (.looking (.program (.instant (.release i 1)))) ⟨e, none, .attempt :: .openGate g :: below, k⟩)) :
    m.returnsFor? i = some g := by
  have hsome := (hm.of_call hcall).1
  have hrequest : m.request i = some (.release 1) := by
    unfold Moment.request
    rw [hm.before, if_pos hi, hsome]
    exact if_pos rfl
  simp only [Moment.returnsFor?, hrequest, hsome]

/-! ## The acquisition -/

/-- A loop has gone on from the boundary with the unit value. -/
def Got (t : StepId) (S : Session) : Prop := ∃ l, (.ok .unit, l) ∈ S.resumptions t

theorem Got.next (h : (after cs).Got t) (x : Choice) : (after (x :: cs)).Got t := by
  obtain ⟨l, hl⟩ := h
  obtain hsame | ⟨m, hm⟩ := made_or cs x
  · exact ⟨l, hsame ▸ hl⟩
  · exact ⟨l, hm.mem_past.2 (.inr hl)⟩

/-- Where the acquisition is of a bracket that holds a permit, and the ticket with which it has asked. -/
inductive Asks (i : SemaphoreId) (g : BracketId) (S : Session) : Option StepId → Prop
  /-- It is about to begin. -/
  | begins (h : .start (.program (.acquire i 1)) none (.acquired g) ∈ S.calls) : Asks i g S none
  /-- It is about to disable cancellation. -/
  | enters (e : ExecutionId)
    (h : S.Has (.looking (.program (.acquire i 1))) ⟨e, none, [], .acquired g⟩) : Asks i g S none
  /-- It is about to ask. -/
  | asks (e : ExecutionId)
    (h : S.Has (.looking (.program (.permits i 1))) ⟨e, none, [.restore none], .acquired g⟩) : Asks i g S none
  /-- It waits for the permit. -/
  | waits (e : ExecutionId) (t : StepId) (hstep : ∃ st, S.store.step? t = some st ∧ st.link = none ∧
      st.source = .permits i) (h : S.Has (.leaving t) ⟨e, none, [.restore none], .acquired g⟩) :
    Asks i g S (some t)
  /-- It has the permit. -/
  | gets (e : ExecutionId) (t : StepId) (s : Stage) (stack : List Frame) (hgot : S.Got t)
    (h : S.Has s ⟨e, none, stack, .acquired g⟩)
    (hs : s = .looking (.result (.ok .unit)) ∨ s = .handing (.ok .unit))
    (hstack : stack = [.restore none] ∨ stack = []) : Asks i g S (some t)
  /-- It has ended. -/
  | ends (e : ExecutionId) (t : StepId) (hgot : S.Got t) (h : .deliver e (.acquired g) (.ok .unit) ∈ S.calls) :
    Asks i g S (some t)
  /-- The resource is there, or its release. -/
  | acquired (t : StepId) (hgot : S.Got t) (h : 0 < S.deals g (.acquires true)) : Asks i g S (some t)

/-- An acquisition asks only where it has come to its permits. -/
theorem Made.not_asks {s : Stage} {l : Loop} (hm : Made cs x m) (h : (after cs).Has s l)
    (hl : l.sink = .acquired g) (hs : s ≠ .looking (.program (.permits i 1))) :
    ∀ t, m.asksFor? i ≠ some (g, t) := fun t ht => by
  obtain ⟨place, e, -, hcall, -⟩ := hm.of_asksFor? ht
  exact hs (acquirer_unique h hl (.inl (List.mem_of_getElem? hcall)) rfl).1.symm

/-- The acquisition asks at this moment, or is where it has asked with the same ticket. -/
theorem Asks.next {o : Option StepId} (h : (after cs).Asks i g o) (hi : i < (after cs).store.semaphores.size)
    (hm : Made cs x m) : ∃ o', (after (x :: cs)).Asks i g o' ∧
      (o' = o ∧ (∀ t, m.asksFor? i ≠ some (g, t)) ∨ o = none ∧ ∃ t, o' = some t ∧ m.asksFor? i = some (g, t)) := by
  cases h with
  | begins h =>
    have hnot : ∀ t, m.asksFor? i ≠ some (g, t) := fun t ht => by
      obtain ⟨place, e, -, hcall, -⟩ := hm.of_asksFor? ht
      exact not_acquirer h (.begins _ _) (.inl (List.mem_of_getElem? hcall)) rfl
    obtain hstays | ⟨place, rfl, hcall⟩ := call_next h x
    · exact ⟨none, .begins hstays, .inl ⟨rfl, hnot⟩⟩
    · refine ⟨none, .enters (after cs).store.executions (.inl ?_), .inl ⟨rfl, hnot⟩⟩
      rw [show after (.call place :: cs) = _ from step_call hcall]
      exact .head _
  | enters e h =>
    have hnot := hm.not_asks (i := i) h rfl nofun
    obtain hstays | ⟨b, r, hs, -⟩ | ⟨place, rfl, hcall, hown⟩ := next_of_has h x
    · exact ⟨none, .enters e hstays, .inl ⟨rfl, hnot⟩⟩
    · cases hs
    obtain ⟨n, -, hc⟩ | ⟨r, hs, -⟩ | ⟨t, fs, ht, hnew⟩ := hown
    · cases hc
    · cases hs
    · cases ht
      exact ⟨none, .asks e hnew, .inl ⟨rfl, hnot⟩⟩
  | asks e h =>
    obtain hstays | ⟨b, r, hs, -⟩ | ⟨place, rfl, hcall, hown⟩ := next_of_has h x
    · refine ⟨none, .asks e hstays, .inl ⟨rfl, fun t ht => ?_⟩⟩
      obtain ⟨place, e', rfl, hcall, -⟩ := hm.of_asksFor? ht
      obtain ⟨-, hl⟩ := acquirer_unique h rfl (.inl (List.mem_of_getElem? hcall)) rfl
      rw [hl] at hcall
      cases (has_unique hstays (.inl (work_of_takes hcall (.looking _ rfl))) rfl).1
    · cases hs
    obtain ⟨n, -, hc⟩ | ⟨r, hs, -⟩ | ⟨t, fs, ht, hnew⟩ := hown
    · cases hc
    · cases hs
    · have hstore := store_of_takes hcall ht
      cases ht
      refine ⟨_, .waits e (after cs).store.boundaries.size ⟨{ source := .permits i, link := none }, ?_, rfl, rfl⟩
        hnew, .inr ⟨rfl, _, rfl, hm.asksFor? hi hcall⟩⟩
      rw [hstore]
      exact Store.step?_openStep (.permits i) none (after cs).store
  | waits e t hstep h =>
    obtain ⟨st, hst, hlink, hsource⟩ := hstep
    have hnot := hm.not_asks (i := i) h rfl nofun
    obtain hstays | ⟨b, r, hs, hr, -⟩ | ⟨place, rfl, hcall, hown⟩ := next_of_has h x
    · obtain ⟨st', hst', hsource', hlink'⟩ := (after_grows cs [x]).step hst
      exact ⟨some t, .waits e t ⟨st', hst', hlink'.trans hlink, hsource'.trans hsource⟩ hstays, .inl ⟨rfl, hnot⟩⟩
    · cases hs
      obtain ⟨k, hk, hripe⟩ := ripe_of_resumed h hr
      cases (Store.step?_eq_some.1 hst).symm.trans hk
      have hdue := hripe hlink
      rw [hsource] at hdue
      cases hdue
      have hgot : (after (x :: cs)).Got t := ⟨_, hm.mem_past.2 (.inl (hm.resumption? h hr))⟩
      exact ⟨some t, .gets e t _ _ hgot hr (.inl rfl) (.inl rfl), .inl ⟨rfl, hnot⟩⟩
    obtain ⟨n, hs, -⟩ | ⟨r, hs, -⟩ | ⟨t, fs, ht, hnew⟩ := hown
    · cases hs
    · cases hs
    · cases ht
  | gets e t s stack hgot h hs hstack =>
    have hnot := hm.not_asks (i := i) h rfl (by obtain rfl | rfl := hs <;> simp)
    obtain hstays | ⟨b, r, hleaving, -⟩ | ⟨place, rfl, hcall, hown⟩ := next_of_has h x
    · exact ⟨some t, .gets e t s stack (hgot.next x) hstays hs hstack, .inl ⟨rfl, hnot⟩⟩
    · obtain rfl | rfl := hs <;> cases hleaving
    obtain ⟨n, -, hc⟩ | ⟨r, hr, hempty⟩ | ⟨turn, fs, ht, hnew⟩ := hown
    · cases hc
    · obtain rfl | rfl := hs <;> cases hr
      refine ⟨some t, .ends e t (hgot.next _) ?_, .inl ⟨rfl, hnot⟩⟩
      change stack = [] at hempty
      subst hempty
      rw [show after (.call place :: cs) = _ from step_call hcall]
      exact .head _
    · obtain rfl | rfl := hs <;> cases ht
      · exact ⟨some t, .gets e t _ stack (hgot.next _) hnew (.inr rfl) hstack, .inl ⟨rfl, hnot⟩⟩
      · rename_i f hf
        obtain rfl | rfl := hstack <;> cases hf
        exact ⟨some t, .gets e t _ [] (hgot.next _) hnew (.inl rfl) (.inr rfl), .inl ⟨rfl, hnot⟩⟩
  | ends e t hgot h =>
    have hnot : ∀ t, m.asksFor? i ≠ some (g, t) := fun t ht => by
      obtain ⟨place, e, -, hcall, -⟩ := hm.of_asksFor? ht
      exact not_acquirer h (.ends _ _) (.inl (List.mem_of_getElem? hcall)) rfl
    obtain hstays | ⟨place, rfl, hcall⟩ := call_next h x
    · exact ⟨some t, .ends e t (hgot.next x) hstays, .inl ⟨rfl, hnot⟩⟩
    · refine ⟨some t, .acquired t (hgot.next _) ?_, .inl ⟨rfl, hnot⟩⟩
      rw [deals_of_call hcall]
      simp [Activity.deal, Sink.deal, Except.isOk, Except.toBool]
  | acquired t hgot h =>
    refine ⟨some t, .acquired t (hgot.next x) (mono_deals x h), .inl ⟨rfl, fun t ht => ?_⟩⟩
    obtain ⟨place, e, -, hcall, -⟩ := hm.of_asksFor? ht
    exact not_acquirer_of_done h (.inl (List.mem_of_getElem? hcall)) rfl

/-- A bracket about which something was done is there. -/
theorem lt_of_ledger (h : 0 < (acquisition g).session (after cs) + (after cs).deals g (.acquires true) +
    (after cs).deals g (.acquires false)) : g < (after cs).store.boundaries.size := by
  have hledger := acquisitions g cs
  unfold acquisition at h
  cases hbr : (after cs).store.bracket? g with
  | none =>
    rw [Store.terms_of_none hbr] at hledger
    simp only [Option.isSome_none, Bool.false_eq_true, if_false] at hledger
    omega
  | some br => exact lt_of_bracket? hbr

/-- Who has asked for a permit acquires the resource of a bracket that is there. -/
theorem lt_of_ticket (h : (g, t) ∈ (after cs).askedFor i) : g < (after cs).store.boundaries.size := by
  obtain ⟨cs₂, x, cs₁, m, rfl, hm, hasks⟩ := exists_of_mem_past h
  obtain ⟨place, e, rfl, hcall, -⟩ := hm.of_asksFor? hasks
  have hpending := acquisition_pending (.inl (List.mem_of_getElem? hcall)) rfl
  have hlt : g < (after cs₁).store.boundaries.size := lt_of_ledger (by omega)
  rw [List.append_cons]
  exact Nat.lt_of_lt_of_le hlt (after_grows cs₁ _).boundaries_le

/-- **The acquisition of a bracket that holds a permit asks once**, and goes on with the permit. -/
theorem asking (h : g ∈ (after cs).openedFor i) :
    ∃ o, (after cs).Asks i g o ∧ ∀ t, (g, t) ∈ (after cs).askedFor i ↔ o = some t := by
  induction cs with
  | nil => cases h
  | cons x cs ih =>
    obtain hsame | ⟨m, hm⟩ := made_or cs x
    · rw [hsame] at h ⊢
      exact ih h
    obtain hnew | hold := hm.mem_past.1 h
    · obtain ⟨use, l, hcall, hi, hc, rfl⟩ := Moment.of_opensFor? hnew
      rw [hm.before] at hc
      obtain ⟨j, -, hnone, -⟩ | ⟨place, a, rfl, ha, hsome, -⟩ := hm.how
      · cases hnone.symm.trans hcall
      cases hsome.symm.trans hcall
      refine ⟨none, .begins ?_, fun t => iff_of_false (fun ht => ?_) nofun⟩
      · rw [after_takes ha (.looking _ hc), hm.before]
        exact List.mem_append_left _ (List.mem_append_left _ (List.mem_append_right _ (.head _)))
      · obtain hasks | hasked := hm.mem_past.1 ht
        · obtain ⟨place', e, hplace, hcall', -⟩ := hm.of_asksFor? hasks
          cases hplace
          cases ha.symm.trans hcall'
        · exact Nat.lt_irrefl _ (hm.before ▸ lt_of_ticket hasked)
    · obtain ⟨o, ho, hticket⟩ := ih hold
      obtain ⟨o', ho', ⟨rfl, hnot⟩ | ⟨rfl, t, rfl, hasks⟩⟩ := ho.next (of_opened hold).1 hm
      · refine ⟨o', ho', fun t => ?_⟩
        rw [← hticket t]
        exact hm.mem_past.trans (or_iff_right (hnot t))
      · refine ⟨some t, ho', fun t' => hm.mem_past.trans ?_⟩
        constructor
        · rintro (hnew | hold)
          · cases hasks.symm.trans hnew
            rfl
          · cases (hticket t').1 hold
        · rintro ⟨⟩
          exact .inl hasks

/-- A bracket that holds a permit has asked with one ticket. -/
theorem ticket_unique {t' : StepId} (h : g ∈ (after cs).openedFor i) (ht : (g, t) ∈ (after cs).askedFor i)
    (ht' : (g, t') ∈ (after cs).askedFor i) : t' = t := by
  obtain ⟨o, -, hticket⟩ := asking h
  exact Option.some.inj (((hticket t').1 ht').symm.trans ((hticket t).1 ht))

/-- The acquisition is under way, or it has ended with the permit. -/
theorem asking_or_acquired (h : g ∈ (after cs).openedFor i) :
    0 < (acquisition g).session (after cs) ∨
      0 < (after cs).deals g (.acquires true) ∧ ∃ t, (g, t) ∈ (after cs).askedFor i ∧ (after cs).Got t := by
  obtain ⟨o, ho, hticket⟩ := asking h
  cases ho with
  | begins h => exact .inl ((AboutAcquisition.begins _ _).pending h)
  | enters e h => exact .inl (acquisition_pending h rfl)
  | asks e h => exact .inl (acquisition_pending h rfl)
  | waits e t hstep h => exact .inl (acquisition_pending h rfl)
  | gets e t s stack hgot h => exact .inl (acquisition_pending h rfl)
  | ends e t hgot h => exact .inl ((AboutAcquisition.ends _ _).pending h)
  | acquired t hgot h => exact .inr ⟨h, t, (hticket t).2 rfl, hgot⟩

/-- A bracket that was acquired has its permit. -/
theorem got_of_acquired (h : g ∈ (after cs).openedFor i) (hacquired : 0 < (after cs).deals g (.acquires true)) :
    ∃ t, (g, t) ∈ (after cs).askedFor i ∧ (after cs).Got t := by
  obtain hpending | ⟨-, hgot⟩ := asking_or_acquired h
  · exact absurd (not_acquiring hacquired) (Nat.ne_of_gt hpending)
  · exact hgot

/-- The acquisition of a permit does not fail. -/
theorem not_failed (h : g ∈ (after cs).openedFor i) : (after cs).deals g (.acquires false) = 0 := by
  have hle := acquisition_le g cs
  obtain hpending | ⟨hacquired, -⟩ := asking_or_acquired h <;> omega

/-! ## The release -/

section Release

variable {s : Stage} {l : Loop}

theorem opened_of_lt (cs₂ : List Choice) (h : g ∈ (after (cs₂ ++ cs)).openedFor i)
    (hlt : g < (after cs).store.boundaries.size) : g ∈ (after cs).openedFor i := by
  induction cs₂ with
  | nil => exact h
  | cons x cs₂ ih =>
    obtain hsame | ⟨m, hm⟩ := made_or (cs₂ ++ cs) x
    · exact ih (hsame ▸ h)
    obtain hnew | hold := hm.mem_past.1 h
    · obtain ⟨use, l, -, -, -, rfl⟩ := Moment.of_opensFor? hnew
      exact absurd (hm.before ▸ hlt) (Nat.not_lt.2 (after_grows cs cs₂).boundaries_le)
    · exact ih hold

/-- What a loop weighs that is going to open the gate of a bracket. -/
theorem opening_loop_pos (h : .openGate g ∈ l.stack) : 0 < (Weight.opening g).loop l := by
  obtain ⟨above, below, hstack⟩ := List.append_of_mem h
  simp only [Weight.loop, hstack, Weight.frames_append, Weight.frames_cons]
  have hgate : (Weight.opening g).frame (.openGate g) = 1 := if_pos rfl
  omega

/-- The bracket is there whose gate a loop is going to open. -/
theorem lt_of_openGate (h : (after cs).Has s l) (hgate : .openGate g ∈ l.stack) :
    g < (after cs).store.boundaries.size := by
  have hloop := loop_le_session (Weight.opening g) h
  have hpos := opening_loop_pos hgate
  have hgates := gates g cs
  have hreleases := (releases_le g cs).1
  exact lt_of_ledger (by omega)

theorem released_of_openGate (hopened : g ∈ (after cs).openedFor i) (h : (after cs).Has s l)
    (hgate : .openGate g ∈ l.stack) : 0 < (after cs).deals g .releases := by
  have hloop := loop_le_session (Weight.opening g) h
  have hpos := opening_loop_pos hgate
  have hgates := gates g cs
  have hnot := not_failed hopened
  omega

/-- One loop runs the release of a bracket. -/
theorem releaser_unique {s' : Stage} {l' : Loop} (hopened : g ∈ (after cs).openedFor i) (h : (after cs).Has s l)
    (hgate : .openGate g ∈ l.stack) (h' : (after cs).Has s' l') (hgate' : .openGate g ∈ l'.stack) :
    s' = s ∧ l' = l := by
  by_contra hne
  have htwo := two_has_le (Weight.opening g) h h' fun hid => hne (has_unique h h' hid)
  have hpos := opening_loop_pos hgate
  have hpos' := opening_loop_pos hgate'
  have hgates := gates g cs
  have hnot := not_failed hopened
  have hle := releases_le g cs
  omega

/-- A permit is returned by a release that has begun. -/
theorem released_of_returned (hopened : g ∈ (after cs).openedFor i) (h : g ∈ (after cs).returnedFor i) :
    0 < (after cs).deals g .releases := by
  obtain ⟨cs₂, x, cs₁, m, rfl, hm, hreturns⟩ := exists_of_mem_past h
  obtain ⟨place, e, below, k, rfl, hcall⟩ := hm.of_returnsFor? hreturns
  have hl : (after cs₁).Has _ _ := .inl (List.mem_of_getElem? hcall)
  have hgate : .openGate g ∈ (⟨e, none, .attempt :: .openGate g :: below, k⟩ : Loop).stack := .tail _ (.head _)
  rw [List.append_cons] at hopened ⊢
  exact Nat.lt_of_lt_of_le (released_of_openGate (opened_of_lt _ hopened (lt_of_openGate hl hgate)) hl hgate)
    (deals_le g .releases cs₁ _)

/-- Where a loop is that releases a bracket which holds a permit. -/
inductive Returns (i : SemaphoreId) (g : BracketId) (S : Session) : Stage → Loop → Prop
  /-- It is about to return the permit. -/
  | runs (s : Stage) (l : Loop) (below : List Frame) (hlink : l.link = none)
    (hstack : l.stack = .attempt :: .openGate g :: below) (hs : s = .suspending (.ret (.instant (.release i 1))) ∨
      s = .looking (.program (.instant (.release i 1)))) (hnot : g ∉ S.returnedFor i) : Returns i g S s l
  /-- It has returned the permit. -/
  | returned (l : Loop) (below : List Frame) (hstack : l.stack = .attempt :: .openGate g :: below)
    (h : g ∈ S.returnedFor i) : Returns i g S (.handing (.ok .unit)) l
  /-- It is about to open the gate. -/
  | opens (s : Stage) (l : Loop) (below : List Frame) (r : Result) (hstack : l.stack = .openGate g :: below)
    (hs : s = .looking (.result r) ∨ s = .handing r) (h : g ∈ S.returnedFor i) : Returns i g S s l

theorem returnedFor_next (h : g ∈ (after cs).returnedFor i) (x : Choice) : g ∈ (after (x :: cs)).returnedFor i := by
  obtain hsame | ⟨m, hm⟩ := made_or cs x
  · exact hsame ▸ h
  · exact hm.mem_past.2 (.inr h)

/-- A permit that was not returned before is returned by the loop that runs the release. -/
theorem not_returned_next (hopened : g ∈ (after cs).openedFor i) (hnot : g ∉ (after cs).returnedFor i)
    (h : (after cs).Has s l) (hgate : .openGate g ∈ l.stack)
    (hx : ∀ place, x = .call place → (after cs).calls[place]? ≠
      some (.work (.looking (.program (.instant (.release i 1)))) l)) :
    g ∉ (after (x :: cs)).returnedFor i := by
  intro hreturned
  obtain hsame | ⟨m, hm⟩ := made_or cs x
  · exact hnot (hsame ▸ hreturned)
  obtain hnew | hold := hm.mem_past.1 hreturned
  · obtain ⟨place, e, below, k, rfl, hcall⟩ := hm.of_returnsFor? hnew
    obtain ⟨-, rfl⟩ := releaser_unique hopened h hgate (.inl (List.mem_of_getElem? hcall)) (.tail _ (.head _))
    exact hx place rfl hcall
  · exact hnot hold

/-- Who looks at the release of a bracket that holds a permit is about to return it. -/
theorem returns_of_release {place : Nat} {v : Value} {x : ExitCase} {turn : Turn} {fs : List Frame}
    (hcall : (after cs).calls[place]? = some (.work (.looking (.release g v x)) l))
    (ht : l.Takes (after cs).store (.looking (.release g v x)) turn fs)
    (hopened : g ∈ (after (.call place :: cs)).openedFor i) (hframes : .openGate g ∈ turn.frames) :
    Returns i g (after (.call place :: cs)) turn.stage (turn.loop l fs) := by
  cases ht with
  | looking n hc =>
    simp only [Node.step] at hframes ⊢
    cases hbr : (after cs).store.bracket? g with
    | none =>
      rw [hbr] at hframes
      cases hframes
    | some br =>
      have hopened' := opened_of_lt [.call place] hopened (lt_of_bracket? hbr)
      obtain ⟨-, br', hbr', hrelease⟩ := of_opened hopened'
      cases hbr.symm.trans hbr'
      refine .runs _ _ (.restore l.link :: l.stack) rfl rfl (.inl ?_) fun hreturned => ?_
      · change Stage.suspending (br.release.code v x) = _
        rw [hrelease]
        rfl
      · -- the permit was not returned before, as the release had not begun
        have hdeals := deals_of_call (g := g) (d := .releases) hcall
        rw [if_pos (by simp [Activity.deal, Node.deal, hc])] at hdeals
        have hle := releases_le g (.call place :: cs)
        obtain hnew | hold := (made_call hcall).mem_past.1 hreturned
        · obtain ⟨place', e, below, k, hplace, hcall'⟩ := (made_call hcall).of_returnsFor? hnew
          cases hplace
          cases hcall.symm.trans hcall'
        · have hpos := released_of_returned hopened' hold
          omega

/-- With its turn a loop that runs such a release returns the permit, or goes on. -/
theorem Returns.turned {place : Nat} {turn : Turn} {fs : List Frame} (h : Returns i g (after cs) s l)
    (hopened : g ∈ (after cs).openedFor i) (hcall : (after cs).calls[place]? = some (.work s l))
    (ht : l.Takes (after cs).store s turn fs) (hfs : .openGate g ∈ fs) :
    Returns i g (after (.call place :: cs)) turn.stage (turn.loop l fs) := by
  have hl : (after cs).Has s l := .inl (List.mem_of_getElem? hcall)
  cases h with
  | runs s l below hlink hstack hs hnot =>
    have hgate : .openGate g ∈ l.stack := hstack ▸ .tail _ (.head _)
    obtain rfl | rfl := hs
    · cases ht
      refine .runs _ _ below hlink hstack (.inr rfl)
        (not_returned_next hopened hnot hl hgate fun place' hx hcall' => ?_)
      cases hx
      cases hcall.symm.trans hcall'
    · cases ht
      refine .returned _ below hstack ((made_call hcall).mem_past.2 (.inl ?_))
      obtain ⟨e, link, stack, k⟩ := l
      cases hlink
      cases hstack
      exact (made_call hcall).returnsFor? (of_opened hopened).1 hcall
  | returned l below hstack h =>
    cases ht with
    | handing r f fs hf =>
      cases hstack.symm.trans hf
      exact .opens _ _ below _ rfl (.inl rfl) (returnedFor_next h _)
  | opens s l below r hstack hs h =>
    obtain rfl | rfl := hs
    · cases ht
      exact .opens _ _ below r hstack (.inr rfl) (returnedFor_next h _)
    · cases ht with
      | handing r f fs hf =>
        -- there is one such frame
        cases hstack.symm.trans hf
        have hloop := loop_le_session (Weight.opening g) hl
        have hrest : 0 < (Weight.opening g).loop { l with stack := fs } := opening_loop_pos hfs
        have hgate : (Weight.opening g).frame (.openGate g) = 1 := if_pos rfl
        simp only [Weight.loop, hstack, Weight.frames_cons, hgate] at hloop hrest
        have hgates := gates g cs
        have hreleases := releases_le g cs
        have hnot := not_failed hopened
        omega

/-- **Who runs the release of a bracket that holds a permit returns it once.** -/
theorem returning (cs : List Choice) : ∀ s l, (after cs).Has s l → g ∈ (after cs).openedFor i →
    .openGate g ∈ l.stack → Returns i g (after cs) s l := by
  refine always (P := fun S s l => g ∈ S.openedFor i → .openGate g ∈ l.stack → Returns i g S s l) ?_ ?_ ?_ ?_ cs
  · intro x cs s l hl hl' ih hopened hgate
    have hopened' := opened_of_lt [x] hopened (lt_of_openGate hl hgate)
    cases ih hopened' hgate with
    | runs s l below hlink hstack hs hnot =>
      refine .runs s l below hlink hstack hs (not_returned_next hopened' hnot hl hgate fun place hx hcall => ?_)
      subst hx
      cases (has_unique (.inl (work_of_takes hcall (.looking _ (by rw [hlink]; rfl)))) hl' rfl).1
      obtain hs | hs := hs <;> cases hs
    | returned l below hstack h => exact .returned l below hstack (returnedFor_next h x)
    | opens s l below r hstack hs h => exact .opens s l below r hstack hs (returnedFor_next h x)
  · intro cs place n link k _ _ hgate
    cases hgate
  · intro cs place s l t fs hcall ih ht hopened hgate
    have hl : (after cs).Has s l := .inl (List.mem_of_getElem? hcall)
    obtain hframes | hfs := List.mem_append.1 hgate
    · obtain ⟨v, x, rfl, hc⟩ := ht.of_openGate hframes
      exact returns_of_release hcall ht hopened hframes
    have hstack : .openGate g ∈ l.stack := by
      cases ht with
      | handing r f fs hstack => exact hstack ▸ .tail _ hfs
      | _ => exact hfs
    have hopened' := opened_of_lt [.call place] hopened (lt_of_openGate hl hstack)
    exact (ih hopened' hstack).turned hopened' hcall ht hfs
  · intro x cs b l r hl _ ih hopened hgate
    have hopened' := opened_of_lt [x] hopened (lt_of_openGate hl hgate)
    cases ih hopened' hgate with
    | runs s l below hlink hstack hs => obtain hs | hs := hs <;> cases hs
    | opens s l below r hstack hs => obtain hs | hs := hs <;> cases hs

/-- Of a bracket whose release has begun, the permit was returned, or a loop is about to return it. -/
theorem returned_or_releasing (hopened : g ∈ (after cs).openedFor i) (h : 0 < (after cs).deals g .releases) :
    g ∈ (after cs).returnedFor i ∨ ∃ s l, (after cs).Has s l ∧ .openGate g ∈ l.stack := by
  induction cs with
  | nil => cases hopened
  | cons x cs ih =>
    have hacquired := (releases_le g (x :: cs)).1
    obtain hold | ⟨place, a, rfl, ha, hd⟩ := deals_cases (d := .releases) (by decide) h
    · have hacquired' := (releases_le g cs).1
      have hlt : g < (after cs).store.boundaries.size := lt_of_ledger (by omega)
      have hopened' := opened_of_lt [x] hopened hlt
      obtain hreturned | ⟨s, l, hl, hgate⟩ := ih hopened' hold
      · exact .inl (returnedFor_next hreturned x)
      cases returning cs s l hl hopened' hgate with
      | returned l below hstack hreturned => exact .inl (returnedFor_next hreturned x)
      | opens s l below r hstack hs hreturned => exact .inl (returnedFor_next hreturned x)
      | runs s l below hlink hstack hs hnot =>
        obtain hstays | ⟨b, r, rfl, -⟩ | ⟨place, -, -, hown⟩ := next_of_has hl x
        · exact .inr ⟨s, l, hstays, hgate⟩
        · obtain hs | hs := hs <;> cases hs
        obtain ⟨n, -, hc⟩ | ⟨r, rfl, -⟩ | ⟨t, fs, ht, hnew⟩ := hown
        · rw [hlink] at hc
          cases hc
        · obtain hs | hs := hs <;> cases hs
        · refine .inr ⟨_, _, hnew, ?_⟩
          obtain rfl | rfl := hs <;> cases ht <;> exact hgate
    · obtain ⟨v, y, l, rfl, hc⟩ := Activity.of_deal_releases hd
      have hbefore := deals_of_call (d := .acquires true) (g := g) ha
      rw [hd, if_neg (by simp)] at hbefore
      have hlt : g < (after cs).store.boundaries.size := lt_of_ledger (by omega)
      obtain ⟨-, br, hbr, -⟩ := of_opened (opened_of_lt [.call place] hopened hlt)
      refine .inr ⟨_, _, .inl (work_of_takes ha (.looking _ hc)), ?_⟩
      simp only [Node.step, hbr, Turn.loop]
      exact .tail _ (.head _)

end Release

end Session

end CancelableEffects
