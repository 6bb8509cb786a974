import CancelableEffects.Proofs.Behaviours
import CancelableEffects.Proofs.Meanwhile
import CancelableEffects.Proofs.Worlds

/-!
# Lockstep — two sessions side by side

* `Act.Alike`: two executions do the same.
* **`Session.Made.deedsOf_alike`**: so they do at moments at which the same is called in stores that show the same.
* `Store.Lockstep`: a relation between stores that is kept by what is called and by the outside world.
* `Session.Beside`, **`Session.Beside.run`**: sessions with stores so related, and with the same calls but for some
  of each, go on side by side.
* `Session.Abreast`: what has come to pass in each of them meanwhile.
* **`Store.level_lockstep`**, **`Store.veiled_lockstep`**: the stores of the sessions differ in their pasts, or in
  the state of a boundary that nobody is at.
-/

namespace CancelableEffects

/-! ## The same acts -/

namespace Act

/-- Both acts do the same: they leave stores that show the same, where they were found to, after the same events,
and make the same calls; or both get the same result at the same boundary. -/
def Alike : Act → Act → Prop
  | did σ σ' calls, did τ τ' calls' => Store.InStep σ τ σ' τ' ∧ calls = calls'
  | got b r, got b' r' => b = b' ∧ r = r'
  | _, _ => False

theorem Alike.symm {a b : Act} (h : a.Alike b) : b.Alike a := by
  cases a <;> cases b <;> first
    | exact h.elim
    | exact ⟨h.1.symm, h.2.symm⟩

end Act

/-- The same is called at both moments, in stores that show the same, and makes the same calls. -/
structure Moment.Level (m m' : Moment) : Prop where
  call : m.call = m'.call
  shows : m.before.Shows m'.before
  calls : m.next.2 = m'.next.2

namespace Moment.Level

variable {m m' : Moment}

theorem stops (h : m.Level m') : m.stops = m'.stops := by
  have hcancelled : ∀ link, m.before.isCancelled link = m'.before.isCancelled link := h.shows.isCancelled
  simp only [Moment.stops, h.call, hcancelled]

theorem resumption? (h : m.Level m') (b : BoundaryId) : m.resumption? b = m'.resumption? b := by
  have hleaver : m.leaver? b = m'.leaver? b := by rw [Moment.leaver?, h.call, Moment.leaver?]
  have hoffer : m.offer? b = m'.offer? b := by rw [Moment.offer?, h.call, h.shows.size, Moment.offer?]
  rw [Moment.resumption?, hleaver, hoffer, h.calls, Moment.resumption?]

end Moment.Level

/-- The same loop acts at the same stage at both moments, and does the same; or none does. -/
def Moment.ActsAlike (m m' : Moment) : Prop :=
  Option.Rel (fun x y => x.1 = y.1 ∧ x.2.1 = y.2.1 ∧ x.2.2.Alike y.2.2) m.act? m'.act?

theorem Moment.ActsAlike.actsOf {m m' : Moment} (h : m.ActsAlike m') (e : ExecutionId) :
    List.Forall₂ Act.Alike (m.actsOf e) (m'.actsOf e) := by
  unfold ActsAlike at h
  unfold Moment.actsOf
  cases hm : m.act? <;> cases hm' : m'.act? <;> rw [hm, hm'] at h <;> cases h
  · exact .nil
  · rename_i x y h
    obtain ⟨s, l, a⟩ := x
    obtain ⟨s', l', a'⟩ := y
    obtain ⟨rfl, rfl, halike⟩ := h
    dsimp only
    split
    · exact .cons halike .nil
    · exact .nil

namespace Session

section Acts

variable {cs cs' : List Choice} {c c' : Choice} {m m' : Moment}

/-- A step of a loop is its turn, unless it is stopped, has come to its end, or leaves a boundary. -/
theorem Made.takes {s : Stage} {l : Loop} (hm : Made cs c m) (hcall : m.call = some (.work s l))
    (hstops : m.stops = false) (hacts : s.acts l.stack = true) :
    (∃ b, s = .leaving b) ∨ ∃ t fs, l.Takes m.before s t fs ∧
      m.act? = some (s, l, .did m.before t.store t.calls) := by
  obtain ⟨i, -, hnone, -⟩ | ⟨place, a, rfl, ha, hsome, -⟩ := hm.how
  · cases hnone.symm.trans hcall
  · cases hsome.symm.trans hcall
    rw [hm.before]
    obtain ⟨n, rfl, hcancelled, -⟩ | ⟨r, rfl, hstack, -⟩ | ⟨t, fs, ht⟩ | hleaving := l.step_takes s (after cs).store
    · rw [Moment.stops, hcall, hm.before] at hstops
      cases hstops.symm.trans hcancelled
    · rw [hstack] at hacts
      cases hacts
    · exact .inr ⟨t, fs, ht, (act_of_takes ha ht hm).trans (if_pos hacts)⟩
    · exact .inl hleaving

/-- A loop goes on from the same boundary at both moments. -/
theorem actsAlike_of_resumption (b : BoundaryId) (h : m.Level m')
    (hm : m.act? = (m.resumption? b).map fun (r, l) => (Stage.leaving b, l, Act.got b r))
    (hm' : m'.act? = (m'.resumption? b).map fun (r, l) => (Stage.leaving b, l, Act.got b r)) :
    m.ActsAlike m' := by
  rw [Moment.ActsAlike, hm, hm', ← h.resumption?]
  cases m.resumption? b with
  | none => exact .none
  | some x => exact .some ⟨rfl, rfl, rfl, rfl⟩

/-- **Whoever acts does the same at moments at which the same is called**, in stores that show the same. -/
theorem Made.actsAlike (hm : Made cs c m) (hm' : Made cs' c' m') (h : m.Level m') (hstops : m.stops = false) :
    m.ActsAlike m' := by
  have hnone : m.act? = none → m'.act? = none → m.ActsAlike m' := fun hm hm' => by
    rw [Moment.ActsAlike, hm, hm']
    exact .none
  cases hcall : m.call with
  | none => exact hnone (by simp only [Moment.act?, hcall]) (by simp only [Moment.act?, ← h.call, hcall])
  | some a =>
    have hcall' := h.call.symm.trans hcall
    cases a with
    | work s l =>
      by_cases hleaving : ∃ b, s = .leaving b
      · obtain ⟨b, rfl⟩ := hleaving
        exact actsAlike_of_resumption b h (by simp only [Moment.act?, hcall]) (by simp only [Moment.act?, hcall'])
      by_cases hacts : s.acts l.stack = true
      · obtain ⟨t, fs, ht, hact⟩ := (hm.takes hcall hstops hacts).resolve_left hleaving
        obtain ⟨t', fs', ht', hact'⟩ := (hm'.takes hcall' (h.stops ▸ hstops) hacts).resolve_left hleaving
        obtain ⟨hsame, -⟩ := ht.inStep ht' rfl rfl h.shows
        rw [Moment.ActsAlike, hact, hact']
        exact .some ⟨rfl, rfl, hsame.store, hsame.calls⟩
      · rw [Bool.not_eq_true] at hacts
        cases s with
        | leaving b => exact absurd ⟨b, rfl⟩ hleaving
        | _ => exact hnone (by simp [Moment.act?, hcall, hacts]) (by simp [Moment.act?, hcall', hacts])
    | complete k r =>
      cases k with
      | boundary b =>
        exact actsAlike_of_resumption b h (by simp only [Moment.act?, hcall]) (by simp only [Moment.act?, hcall'])
      | _ => exact hnone (by simp only [Moment.act?, hcall]) (by simp only [Moment.act?, hcall'])
    | _ => exact hnone (by simp only [Moment.act?, hcall]) (by simp only [Moment.act?, hcall'])

/-- **So every execution does the same at them.** -/
theorem Made.deedsOf_alike (hm : Made cs c m) (hm' : Made cs' c' m') (h : m.Level m') (e : ExecutionId) :
    List.Forall₂ Act.Alike (m.deedsOf e) (m'.deedsOf e) := by
  unfold Moment.deedsOf
  rw [← h.stops]
  split
  · exact .nil
  · rename_i hstops
    exact (hm.actsAlike hm' h (Bool.not_eq_true _ ▸ hstops)).actsOf e

end Acts

/-! ## What has come to pass -/

/-- Since then the same calls have been made in both sessions, and every execution has done the same. -/
structure Abreast (cs₁ cs₂ cs₁' cs₂' : List Choice) (later₁ later₂ : List Moment) : Prop where
  past₁ : (after cs₁').past = later₁ ++ (after cs₁).past
  past₂ : (after cs₂').past = later₂ ++ (after cs₂).past
  called : (later₁.filterMap Moment.call).Perm (later₂.filterMap Moment.call)
  deeds : ∀ e, List.Forall₂ Act.Alike (deeds e later₁) (deeds e later₂)

theorem deeds_append (e : ExecutionId) (later earlier : List Moment) :
    deeds e (later ++ earlier) = deeds e earlier ++ deeds e later := by
  simp [deeds]

namespace Abreast

variable {cs₁ cs₂ cs₁' cs₂' cs₁'' cs₂'' : List Choice} {later₁ later₂ later₁' later₂' : List Moment}

theorem refl (cs₁ cs₂ : List Choice) : Abreast cs₁ cs₂ cs₁ cs₂ [] [] := ⟨rfl, rfl, .refl _, fun _ => .nil⟩

theorem symm (h : Abreast cs₁ cs₂ cs₁' cs₂' later₁ later₂) : Abreast cs₂ cs₁ cs₂' cs₁' later₂ later₁ :=
  ⟨h.past₂, h.past₁, h.called.symm, fun e => ((h.deeds e).imp fun _ _ => Act.Alike.symm).flip⟩

theorem trans (h : Abreast cs₁ cs₂ cs₁' cs₂' later₁ later₂) (h' : Abreast cs₁' cs₂' cs₁'' cs₂'' later₁' later₂') :
    Abreast cs₁ cs₂ cs₁'' cs₂'' (later₁' ++ later₁) (later₂' ++ later₂) where
  past₁ := by rw [h'.past₁, h.past₁, List.append_assoc]
  past₂ := by rw [h'.past₂, h.past₂, List.append_assoc]
  called := by
    rw [List.filterMap_append, List.filterMap_append]
    exact h'.called.append h.called
  deeds e := by
    rw [deeds_append, deeds_append]
    exact List.rel_append (h.deeds e) (h'.deeds e)

/-- One more moment in each. -/
theorem of_level {c₁ c₂ : Choice} {m₁ m₂ : Moment} (hm₁ : Made cs₁ c₁ m₁) (hm₂ : Made cs₂ c₂ m₂)
    (hm : m₁.Level m₂) : Abreast cs₁ cs₂ (c₁ :: cs₁) (c₂ :: cs₂) [m₁] [m₂] where
  past₁ := hm₁.past
  past₂ := hm₂.past
  called := by rw [List.filterMap_cons, List.filterMap_cons, hm.call]
  deeds e := by simpa [Session.deeds] using hm₁.deedsOf_alike hm₂ hm e

/-- Every execution has returned the same since then. -/
theorem returned (h : Abreast cs₁ cs₂ cs₁' cs₂' later₁ later₂) (hbefore : (after cs₁).past = (after cs₂).past)
    (hcalls : (after cs₁').calls.Perm (after cs₂').calls) (e : ExecutionId) :
    (after cs₁').returned e = (after cs₂').returned e := by
  have hcalled : ∀ later : List Moment, later.filterMap (fun m => m.call.bind (·.result? e)) =
      (later.filterMap Moment.call).filterMap (·.result? e) := fun later => by
    rw [List.filterMap_filterMap]
  have hperm : ((after cs₁').returned e).Perm ((after cs₂').returned e) := by
    rw [Session.returned, Session.returned, h.past₁, h.past₂, hbefore, List.filterMap_append, List.filterMap_append,
      hcalled later₁, hcalled later₂]
    exact (hcalls.filterMap _).append ((h.called.filterMap _).append_right _)
  cases hr : (after cs₂').returned e with
  | nil =>
    rw [hr] at hperm
    exact hperm.eq_nil
  | cons r rs =>
    have hsingle := returned_of_mem (hr ▸ List.mem_cons_self : r ∈ (after cs₂').returned e)
    rw [← hr, hsingle]
    exact List.perm_singleton.1 (hsingle ▸ hperm)

end Abreast

/-! ## Side by side -/

end Session

/-- The relation between stores is kept by the calls with the property and by the outside world: they do the same in
both stores, which show the same. -/
structure Store.Lockstep (R : Store → Store → Prop) (P : Activity → Prop) : Prop where
  shows : ∀ σ τ, R σ τ → σ.Shows τ
  call : ∀ a σ τ, P a → R σ τ → R (a.step σ).1 (a.step τ).1 ∧ (a.step σ).2 = (a.step τ).2
  input : ∀ (i : Input) σ τ, R σ τ → R (i.step σ).1 (i.step τ).1 ∧ (i.step σ).2 = (i.step τ).2

namespace Session

/-- The stores are so related, and the same calls are pending in both sessions besides some in each. -/
structure Beside (R : Store → Store → Prop) (as₁ as₂ : List Activity) (S T : Session) : Prop where
  store : R S.store T.store
  calls : ∃ rest, S.calls.Perm (as₁ ++ rest) ∧ T.calls.Perm (as₂ ++ rest)

/-- The other way round. -/
theorem Beside.symm {R R' : Store → Store → Prop} {as₁ as₂ : List Activity} {S T : Session}
    (h : Beside R as₁ as₂ S T) (hsymm : ∀ {σ τ}, R σ τ → R' τ σ) : Beside R' as₂ as₁ T S :=
  ⟨hsymm h.store, h.calls.imp fun _ => And.symm⟩

section Beside

variable {R : Store → Store → Prop} {P : Activity → Prop} {as₁ as₂ : List Activity} {cs₁ cs₂ : List Choice}

/-- The call at the place, and the others. -/
theorem perm_cons_eraseIdx {calls : List Activity} {a : Activity} {place : Nat} (ha : calls[place]? = some a) :
    (a :: calls.eraseIdx place).Perm calls := by
  obtain ⟨hlt, rfl⟩ := List.getElem?_eq_some_iff.1 ha
  exact List.getElem_cons_eraseIdx_perm hlt

theorem perm_eraseIdx {calls rest : List Activity} {a : Activity} {place : Nat} (ha : calls[place]? = some a)
    (h : calls.Perm (a :: rest)) : (calls.eraseIdx place).Perm rest :=
  ((perm_cons_eraseIdx ha).trans h).cons_inv

theorem calls_call {cs : List Choice} {place : Nat} {a : Activity} (h : (after cs).calls[place]? = some a) :
    (after (.call place :: cs)).calls = (a.step (after cs).store).2 ++ (after cs).calls.eraseIdx place :=
  congrArg calls (step_call h)

/-- **What happens in one session happens in the other one.** -/
theorem Beside.next (hR : Store.Lockstep R P) (h : Beside R as₁ as₂ (after cs₁) (after cs₂)) {c₂ : Choice}
    {m₂ : Moment} (hm₂ : Made cs₂ c₂ m₂) (hP : ∀ a, m₂.call = some a → P a ∧ a ∉ as₂) :
    ∃ c₁ m₁, Made cs₁ c₁ m₁ ∧ m₁.Level m₂ ∧ Beside R as₁ as₂ (after (c₁ :: cs₁)) (after (c₂ :: cs₂)) := by
  obtain ⟨rest, hrest₁, hrest₂⟩ := h.calls
  have hnew : ∀ {as new rest calls : List Activity}, calls.Perm (as ++ rest) →
      (new ++ calls).Perm (as ++ (new ++ rest)) := fun hcalls =>
    (hcalls.append_left _).trans (List.perm_append_comm_assoc ..)
  obtain ⟨i, rfl, hcall, hnext⟩ | ⟨place₂, a, rfl, ha, hcall, hnext⟩ := hm₂.how
  · obtain ⟨hstore, hcalls⟩ := hR.input i _ _ h.store
    refine ⟨.input i, ⟨none, _, i.step (after cs₁).store⟩, ⟨rfl, rfl, rfl, .inl ⟨i, rfl, rfl, rfl⟩⟩,
      ⟨hcall.symm, ?_, ?_⟩, hstore, (i.step (after cs₂).store).2 ++ rest, ?_, hnew hrest₂⟩
    · rw [hm₂.before]
      exact hR.shows _ _ h.store
    · rw [hnext, hm₂.before]
      exact hcalls
    · rw [← hcalls]
      exact hnew hrest₁
  · obtain ⟨hPa, hother⟩ := hP a hcall
    obtain ⟨hstore, hcalls⟩ := hR.call a _ _ hPa h.store
    obtain ⟨before, behind, rfl⟩ := List.append_of_mem
      ((List.mem_append.1 (hrest₂.mem_iff.1 (List.mem_of_getElem? ha))).resolve_left hother)
    have hfirst : ∀ as : List Activity, (as ++ (before ++ a :: behind)).Perm (a :: (as ++ (before ++ behind))) :=
      fun as => (List.perm_middle.append_left as).trans List.perm_middle
    obtain ⟨place₁, ha₁⟩ := List.getElem?_of_mem (hrest₁.mem_iff.2 (List.mem_append_right as₁
      (List.mem_append_right before List.mem_cons_self)))
    refine ⟨.call place₁, _, made_call ha₁, ⟨hcall.symm, ?_, ?_⟩, ?_,
      (a.step (after cs₂).store).2 ++ (before ++ behind), ?_, ?_⟩
    · rw [hm₂.before]
      exact hR.shows _ _ h.store
    · rw [hnext, hm₂.before]
      exact hcalls
    · rw [(made_call ha₁).store, (made_call ha).store]
      exact hstore
    · rw [calls_call ha₁, hcalls]
      exact hnew (perm_eraseIdx ha₁ (hrest₁.trans (hfirst as₁)))
    · rw [calls_call ha]
      exact hnew (perm_eraseIdx ha (hrest₂.trans (hfirst as₂)))

/-- **So they go on side by side.** -/
theorem Beside.run (hR : Store.Lockstep R P) (h : Beside R as₁ as₂ (after cs₁) (after cs₂)) {ds₂ : List Choice}
    {later₂ : List Moment} (hpast : (after (ds₂ ++ cs₂)).past = later₂ ++ (after cs₂).past)
    (hP : ∀ m ∈ later₂, ∀ a, m.call = some a → P a ∧ a ∉ as₂) :
    ∃ ds₁ later₁, Beside R as₁ as₂ (after (ds₁ ++ cs₁)) (after (ds₂ ++ cs₂)) ∧
      Abreast cs₁ cs₂ (ds₁ ++ cs₁) (ds₂ ++ cs₂) later₁ later₂ := by
  refine later_induction (P := fun ds₂ later₂ => (∀ m ∈ later₂, ∀ a, m.call = some a → P a ∧ a ∉ as₂) →
    ∃ ds₁ later₁, Beside R as₁ as₂ (after (ds₁ ++ cs₁)) (after (ds₂ ++ cs₂)) ∧
      Abreast cs₁ cs₂ (ds₁ ++ cs₁) (ds₂ ++ cs₂) later₁ later₂) (fun _ => ⟨[], [], h, .refl _ _⟩)
        (fun c ds later hsame ih hP => ?_) (fun c ds m later hm ih hP => ?_) ds₂ hpast hP
  · obtain ⟨ds₁, later₁, hbeside, habreast⟩ := ih hP
    refine ⟨ds₁, later₁, ?_, { habreast with past₂ := ?_ }⟩
    · rwa [List.cons_append, hsame]
    · rw [List.cons_append, hsame]
      exact habreast.past₂
  · obtain ⟨ds₁, later₁, hbeside, habreast⟩ := ih fun m hm => hP m (.tail _ hm)
    obtain ⟨c₁, m₁, hm₁, hlevel, hbeside'⟩ := hbeside.next hR hm (hP m (.head _))
    exact ⟨c₁ :: ds₁, m₁ :: later₁, hbeside', habreast.trans (.of_level hm₁ hm hlevel)⟩

end Beside

end Session

/-! ## Two ways to be related -/

namespace Store

/-- What is done does not depend on the past. -/
theorem level_lockstep : Lockstep Level fun _ => True where
  shows := by
    rintro σ τ ⟨h, rfl⟩
    exact ⟨rfl, rfl, rfl, rfl, rfl, rfl, rfl, rfl, rfl⟩
  call a _ _ _ h := a.step_level h
  input i _ _ h := i.step_level h

/-- The boundary has the first state in one store, and the second one in the other. The stores differ in nothing else
but their pasts. -/
def Veiled (b : BoundaryId) (x y : Boundary) (σ τ : Store) : Prop :=
  (∃ h, σ = τ.veil b x h) ∧ τ.boundary? b = some y

theorem Veiled.symm {b : BoundaryId} {x y : Boundary} {σ τ : Store} (h : Veiled b x y σ τ) : Veiled b y x τ σ := by
  obtain ⟨⟨h, rfl⟩, hy⟩ := h
  have hlt : b < τ.boundaries.size := (Array.getElem?_eq_some_iff.1 hy).1
  refine ⟨⟨τ.history, ?_⟩, boundary?_veil_self x h hlt⟩
  rw [veil_veil, veil_eq_self fun z hz => Option.some.inj (hz.symm.trans hy)]

/-- What is done does not depend on a boundary that nobody is at. -/
theorem veiled_lockstep (b : BoundaryId) (x y : Boundary) (e : ExecutionId) :
    Lockstep (Veiled b x y) (Activity.KeepsOff b e) where
  shows := by
    rintro σ τ ⟨⟨h, rfl⟩, -⟩
    exact ⟨rfl, rfl, rfl, rfl, rfl, rfl, rfl, rfl, rfl⟩
  call := by
    rintro a σ τ ha ⟨⟨h, rfl⟩, hy⟩
    have hlt : b < τ.boundaries.size := (Array.getElem?_eq_some_iff.1 hy).1
    have hblind := a.step_blind ha (Nat.ne_of_lt hlt)
    obtain ⟨h', hstep⟩ := hblind x h
    rw [hstep]
    exact ⟨⟨⟨h', rfl⟩, hblind.boundary? hy (Nat.lt_of_lt_of_le hlt (a.step_grows τ).boundaries_le)⟩, rfl⟩
  input := by
    rintro i σ τ ⟨⟨h, rfl⟩, hy⟩
    have hlt : b < τ.boundaries.size := (Array.getElem?_eq_some_iff.1 hy).1
    have hblind := @Input.step_blind τ b i
    obtain ⟨h', hstep⟩ := hblind x h
    rw [hstep]
    exact ⟨⟨⟨h', rfl⟩, hblind.boundary? hy (Nat.lt_of_lt_of_le hlt (i.step_grows τ).boundaries_le)⟩, rfl⟩

end Store

end CancelableEffects
