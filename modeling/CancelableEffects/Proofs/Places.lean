import CancelableEffects.Proofs.Boundaries
import CancelableEffects.Proofs.Growth

/-!
# Places — where frames and tokens stand

* `Store.armed_popToken`, `Store.armed_cancel`, `Store.armed_push`: the tokens of brackets on a
  connection after it has changed.
* `Store.Fits`: on a stack, frames of brackets stand where their execution has the connection under
  which the bracket was opened, and regions end where cancellation is disabled.
* `Store.Sound`: the loops that wait have such stacks, and tokens of brackets are on the connections
  under which these were opened.
* **`Session.fits`**: this holds in every reachable state.
-/

namespace CancelableEffects

/-! ## Tokens of brackets on connections -/

namespace Store

variable {σ σ' : Store}

theorem armed_modifyConnection (link : Link) (f : Connection → Connection) (c : ConnectionId) :
    (σ.modifyConnection link f).armed c =
      if link = some c then
        ((σ.connections[c]?.map fun conn => (f conn).tokens).getD []).filterMap Token.bracket?
      else σ.armed c := by
  cases link with
  | none => rfl
  | some c' =>
    simp only [armed, modifyConnection, Array.getElem?_modify, Option.some.injEq]
    split
    · cases σ.connections[c]? <;> rfl
    · rfl

/-- The newest token leaves its connection. -/
theorem armed_popToken (link : Link) (c : ConnectionId) :
    σ.armed c = (if link = some c then ((σ.popToken link).2.bind Token.bracket?).toList else []) ++
      (σ.popToken link).1.armed c := by
  simp only [popToken, armed_modifyConnection]
  split
  · rename_i h
    subst h
    simp only [armed, connection?, Option.bind_some]
    cases σ.connections[c]? with
    | none => rfl
    | some conn =>
      cases conn with
      | cancelled => rfl
      | active ts =>
        cases ts with
        | nil => rfl
        | cons t ts =>
          cases ht : t.bracket? <;> simp [Connection.pop, Connection.tokens, ht]
  · rfl

/-- A cancelled connection has no tokens. -/
theorem armed_cancel (link : Link) (c : ConnectionId) :
    (σ.cancel link).1.armed c = if link = some c then [] else σ.armed c := by
  change (σ.modifyConnection link fun conn => conn.cancel.1).armed c = _
  rw [armed_modifyConnection]
  split
  · cases σ.connections[c]? with
    | none => rfl
    | some conn => cases conn <;> rfl
  · rfl

/-- A cancellation takes all tokens of a connection. -/
theorem armed_of_cancel {c : ConnectionId} {ts : List Token} (h : (σ.cancel (some c)).2 = some ts) :
    ts.filterMap Token.bracket? = σ.armed c := by
  simp only [cancel, connection?, Option.bind_some] at h
  rw [armed]
  cases hc : σ.connections[c]? with
  | none => simp [hc] at h
  | some conn =>
    cases conn with
    | active ts' =>
      simp only [hc, Option.bind_some, Connection.cancel, Option.some.injEq] at h
      subst h
      rfl
    | cancelled => simp [hc, Connection.cancel] at h

/-- A token comes to an active connection. -/
theorem armed_push (link : Link) (t : Token) (c : ConnectionId) :
    (σ.push link t).1.armed c = σ.armed c ∨ link = some c ∧ σ.isCancelled link = false ∧
      (σ.push link t).1.armed c = t.bracket?.toList ++ σ.armed c := by
  change (σ.modifyConnection link _).armed c = _ ∨ _ ∧ _ ∧ (σ.modifyConnection link _).armed c = _
  rw [armed_modifyConnection]
  split
  · rename_i h
    subst h
    simp only [armed, isCancelled]
    cases σ.connections[c]? with
    | none => exact .inl rfl
    | some conn =>
      cases conn with
      | active ts =>
        refine .inr ⟨trivial, rfl, ?_⟩
        cases ht : t.bracket? <;> simp [Connection.push, Connection.tokens, ht]
      | cancelled => exact .inl rfl
  · exact .inl rfl

theorem armed_dropToken_subset (link : Link) (c : ConnectionId) :
    (σ.dropToken link).armed c ⊆ σ.armed c := by
  rw [armed_popToken (σ := σ) link c]
  exact List.subset_append_right _ _

/-! ## Places -/

/-- The bracket was opened under the connection. -/
def Opened (g : BracketId) (link : Link) (σ : Store) : Prop :=
  ∃ br, σ.bracket? g = some br ∧ br.link = link

theorem Opened.grows {g : BracketId} {link : Link} (h : σ.Opened g link) (hσ : σ.Grows σ') :
    σ'.Opened g link := by
  obtain ⟨br, hg, hlink⟩ := h
  obtain ⟨br', hg', hbr⟩ := hσ.bracket g br hg
  exact ⟨br', hg', hbr.link.trans hlink⟩

/-- A bracket was opened under one connection. -/
theorem Opened.unique {g : BracketId} {link link' : Link} (h : σ.Opened g link)
    (h' : σ.Opened g link') : link = link' := by
  obtain ⟨br, hg, rfl⟩ := h
  obtain ⟨br', hg', rfl⟩ := h'
  cases hg.symm.trans hg'
  rfl

/-- The brackets whose tokens are among these were opened under the connection. -/
def OpenedAll (ts : List Token) (link : Link) (σ : Store) : Prop :=
  ∀ g, Token.bracket g ∈ ts → σ.Opened g link

end Store

/-- The frame may stand where the execution `e` has the connection `link`: a frame of a bracket under
the connection of the bracket, and the end of a region or of a release or the rest of a cancellation
where cancellation is disabled. -/
def Frame.Fits (σ : Store) (e : ExecutionId) (link : Link) : Frame → Prop
  | .use g _ | .release g => ∃ br, σ.bracket? g = some br ∧ br.owner = e ∧ br.link = link
  | .restore _ | .openGate _ => link = none
  | .sweep of _ ts _ => (∀ c, of = some c → link = none) ∧ σ.OpenedAll ts of
  | _ => True

/-- All frames stand where they may. -/
def Store.Fits (σ : Store) (e : ExecutionId) : Link → List Frame → Prop
  | _, [] => True
  | link, f :: fs => f.Fits σ e link ∧ σ.Fits e (f.under link) fs

/-- The tokens of a cancellation are on their way from the right connection. -/
def Node.Fits (σ : Store) : Node → Prop
  | .sweep of ts => σ.OpenedAll ts of
  | _ => True

/-- An execution begins with a release only if the resource came too late, and then because of a
cancellation. -/
def Node.Begins (k : Sink) : Node → Prop
  | .release g _ x => k = .lateRelease g ∧ x = .cancelled
  | _ => True

/-- A loop comes to the boundary of a bracket with the use of that bracket on top of its stack. -/
def Stage.Fits (σ : Store) (fs : List Frame) : Stage → Prop
  | .looking n => n.Fits σ
  | .leaving b => σ.KeptOtherwise b ∨ ∃ f gs, fs = .use b f :: gs
  | _ => True

/-- What the call carries stands where it may. -/
def Activity.Fits (σ : Store) : Activity → Prop
  | .start n _ k => n.Fits σ ∧ n.Begins k
  | .work s l => s.Fits σ l.stack ∧ σ.Fits l.id l.link l.stack
  | _ => True

/-- What a store holds stands where it may. -/
structure Store.Sound (σ : Store) : Prop where
  parked : ∀ (b : BoundaryId) (l : Loop), σ.boundary? b = some (.parked l) →
    (Activity.work (.leaving b) l).Fits σ
  armed : ∀ c, ∀ g ∈ σ.armed c, σ.Opened g (some c)

/-! ## Growing stores -/

section Grows

variable {σ σ' : Store} {e : ExecutionId} {link : Link}

theorem Store.OpenedAll.grows {ts : List Token} (h : σ.OpenedAll ts link) (hσ : σ.Grows σ') :
    σ'.OpenedAll ts link := fun g hg => (h g hg).grows hσ

theorem Frame.Fits.grows {f : Frame} (h : f.Fits σ e link) (hσ : σ.Grows σ') :
    f.Fits σ' e link := by
  have hbracket : ∀ g, (∃ br, σ.bracket? g = some br ∧ br.owner = e ∧ br.link = link) →
      ∃ br, σ'.bracket? g = some br ∧ br.owner = e ∧ br.link = link := by
    rintro g ⟨br, hg, howner, hlink⟩
    obtain ⟨br', hg', hbr⟩ := hσ.bracket g br hg
    exact ⟨br', hg', hbr.owner.trans howner, hbr.link.trans hlink⟩
  cases f with
  | use g f => exact hbracket g h
  | release g => exact hbracket g h
  | restore enclosing => exact h
  | openGate g => exact h
  | sweep of t ts first => exact ⟨h.1, h.2.grows hσ⟩
  | _ => trivial

theorem Store.Fits.grows {fs : List Frame} (h : σ.Fits e link fs) (hσ : σ.Grows σ') :
    σ'.Fits e link fs := by
  induction fs generalizing link with
  | nil => trivial
  | cons f fs ih => exact ⟨h.1.grows hσ, ih h.2⟩

theorem Node.Fits.grows {n : Node} (h : n.Fits σ) (hσ : σ.Grows σ') : n.Fits σ' := by
  cases n with
  | sweep of ts => exact Store.OpenedAll.grows h hσ
  | _ => trivial

theorem Activity.Fits.grows {a : Activity} (h : a.Fits σ) (hσ : σ.Grows σ') : a.Fits σ' := by
  cases a with
  | start n link k => exact ⟨Node.Fits.grows h.1 hσ, h.2⟩
  | work s l =>
    refine ⟨?_, h.2.grows hσ⟩
    cases s with
    | looking n => exact Node.Fits.grows h.1 hσ
    | leaving b => exact h.1.imp_left (hσ.kept b)
    | _ => trivial
  | _ => trivial

/-- A store stays sound that grows, keeps its loops where they wait, and gets no tokens of brackets
but on the right connections. -/
theorem Store.Sound.grows (h : σ.Sound) (hσ : σ.Grows σ')
    (hcells : ∀ b l, σ'.boundary? b = some (.parked l) → σ.boundary? b = some (.parked l))
    (harmed : ∀ c, ∀ g ∈ σ'.armed c, g ∈ σ.armed c ∨ σ'.Opened g (some c)) : σ'.Sound where
  parked b l hl := (h.parked b l (hcells b l hl)).grows hσ
  armed c g hg := (harmed c g hg).elim (fun hold => (h.armed c g hold).grows hσ) id

theorem Store.Sound.grows_of_subset (h : σ.Sound) (hσ : σ.Grows σ')
    (hcells : ∀ b l, σ'.boundary? b = some (.parked l) → σ.boundary? b = some (.parked l))
    (harmed : ∀ c, σ'.armed c ⊆ σ.armed c) : σ'.Sound :=
  h.grows hσ hcells fun c _ hg => .inl (harmed c hg)

end Grows

/-! ## Steps -/

section Steps

variable {σ : Store} {e : ExecutionId} {link : Link}

theorem Store.fits_append {fs gs : List Frame} :
    σ.Fits e link (fs ++ gs) ↔ σ.Fits e link fs ∧ σ.Fits e (link.under fs) gs := by
  induction fs generalizing link with
  | nil => exact ⟨fun h => ⟨trivial, h⟩, fun h => h.2⟩
  | cons f fs ih =>
    rw [List.cons_append, Store.Fits, ih, ← and_assoc]
    rfl

/-- Each frame stands where it may. -/
theorem Store.Fits.of_mem {fs : List Frame} {f : Frame} (h : σ.Fits e link fs) (hf : f ∈ fs) :
    ∃ link, f.Fits σ e link := by
  induction fs generalizing link with
  | nil => exact (List.not_mem_nil hf).elim
  | cons f' fs ih =>
    obtain rfl | hf := List.mem_cons.1 hf
    · exact ⟨link, h.1⟩
    · exact ih h.2 hf

/-- Within a region cancellation is disabled. -/
theorem Store.Fits.link_eq_none {fs : List Frame} {enclosing : Link} (h : σ.Fits e link fs)
    (hr : .restore enclosing ∈ fs) : link = none := by
  induction fs generalizing link with
  | nil => exact (List.not_mem_nil hr).elim
  | cons f fs ih =>
    cases f with
    | restore enclosing' => exact h.1
    | _ => exact ih h.2 (by simpa using hr)

theorem Store.openedAll_of_plain {ts : List Token} (h : ∀ t ∈ ts, t.bracket? = none) :
    σ.OpenedAll ts link := fun _ hg => nomatch h _ hg

/-- Plain frames may stand everywhere, except for the ends of regions. -/
theorem Store.fits_of_plain {fs : List Frame} (h : ∀ f ∈ fs, f.Plain)
    (hr : ∀ enclosing, Frame.restore enclosing ∉ fs) : σ.Fits e link fs := by
  induction fs generalizing link with
  | nil => trivial
  | cons f fs ih =>
    obtain ⟨hf, hfs⟩ := List.forall_mem_cons.1 h
    refine ⟨?_, ih hfs fun enclosing hm => hr enclosing (List.mem_cons_of_mem _ hm)⟩
    cases f with
    | use g f => exact hf.elim
    | release g => exact hf.elim
    | openGate g => exact hf.elim
    | restore enclosing => exact absurd List.mem_cons_self (hr enclosing)
    | sweep of t ts first =>
      obtain ⟨rfl, hts⟩ := hf
      exact ⟨by simp, Store.openedAll_of_plain hts⟩
    | _ => trivial

theorem Node.Plain.fits {n : Node} (h : n.Plain) : n.Fits σ := by
  cases n with
  | sweep of ts => exact Store.openedAll_of_plain h.2
  | _ => trivial

theorem Node.Plain.begins {n : Node} (h : n.Plain) (k : Sink) : n.Begins k := by
  cases n with
  | release g v x => exact h.elim
  | _ => trivial

theorem Activity.Plain.fits {a : Activity} (h : a.Plain σ) : a.Fits σ := by
  cases a with
  | start n link k => exact ⟨h.1.fits, h.1.begins k⟩
  | work s l => exact h.elim
  | _ => trivial

theorem Stage.Plain.fits {s : Stage} (h : s.Plain σ) (fs : List Frame) : s.Fits σ fs := by
  cases s with
  | looking n => exact Node.Plain.fits h
  | leaving b => exact .inl h
  | _ => trivial

/-- The turn of an execution leaves everything where it may stand, over frames that stand under the
connection `link`. -/
structure Turn.Fits (σ : Store) (e : ExecutionId) (link : Link) (t : Turn) : Prop where
  grows : σ.Grows t.store
  armed : ∀ c, ∀ g ∈ t.store.armed c, g ∈ σ.armed c ∨ t.store.Opened g (some c)
  calls : ∀ a ∈ t.calls, a.Fits t.store
  stage : t.stage.Fits t.store t.frames
  frames : t.store.Fits e t.link t.frames
  under : t.link.under t.frames = link

/-- A plain turn that ends no region leaves everything where it may stand. -/
theorem Turn.Plain.fits {t : Turn} (h : t.Plain σ) (hr : ∀ enclosing, Frame.restore enclosing ∉ t.frames)
    (hu : t.link.under t.frames = link) : t.Fits σ e link where
  grows := h.alike.grows
  armed c _ hg := .inl (h.alike.armed c ▸ hg)
  calls a ha := (h.calls a ha).fits
  stage := h.stage.fits _
  frames := Store.fits_of_plain h.frames hr
  under := hu

theorem Prog.restore_mem {p : Prog} {enclosing : Link}
    (h : Frame.restore enclosing ∈ (p.step e link σ).frames) : ∃ q, p = .uncancelable q := by
  rw [Prog.frames_eq] at h
  cases p with
  | uncancelable q => exact ⟨q, rfl⟩
  | _ => simp [Prog.frames] at h

theorem Token.restore_notMem (t : Token) (enclosing : Link) :
    Frame.restore enclosing ∉ (t.begin link σ).frames := by
  rw [Token.frames_eq]
  cases t <;> simp [Token.frames]

/-- A cancellation goes on where cancellation is disabled. -/
theorem Store.sweep_fits {of : Link} {first : Option Error} {below : List Frame} {ts : List Token}
    (hts : σ.OpenedAll ts of) (hlink : ∀ c, of = some c → link = none)
    (hbelow : σ.Fits e link below) (σ' : Store) (hσ : σ.Alike σ') :
    (σ'.sweep of first link below ts).Fits σ e (link.under below) := by
  cases ts with
  | nil =>
    exact ⟨hσ.grows, fun c _ hg => .inl (hσ.armed c ▸ hg), by simp [Store.sweep], trivial,
      hbelow.grows hσ.grows, rfl⟩
  | cons t ts =>
    have hrest : σ.OpenedAll ts of := fun g hg => hts g (List.mem_cons_of_mem _ hg)
    exact ⟨hσ.grows, fun c _ hg => .inl (hσ.armed c ▸ hg), by simp [Store.sweep], trivial,
      ⟨⟨hlink, hrest.grows hσ.grows⟩, hbelow.grows hσ.grows⟩, rfl⟩

/-- An execution opens a bracket under its connection. -/
theorem Store.opened_newBoundary (br : Bracket) (link' : Link) (t : Token) :
    ((σ.newBoundary (.bracket br)).1.push link' t).1.bracket? σ.boundaries.size = some br :=
  Store.bracket?_eq_some.2 (by
    change (σ.newBoundary (.bracket br)).1.keeper? _ = _
    rw [Store.keeper?_newBoundary, if_pos rfl])

theorem Prog.step_fits (p : Prog) : (p.step e link σ).Fits σ e link := by
  by_cases hp : p.Plain
  · by_cases hu : ∃ q, p = .uncancelable q
    · obtain ⟨q, rfl⟩ := hu
      exact ⟨.refl σ, fun _ _ hg => .inl hg, by simp [Prog.step], trivial, ⟨rfl, trivial⟩, rfl⟩
    · exact (p.step_plain hp e σ).fits (fun _ h => hu (Prog.restore_mem h)) (p.step_under e link σ)
  cases p with
  | bracket a u release =>
    let br : Bracket := { owner := e, link, release }
    have hopened : (Prog.step (.bracket a u release) e link σ).store.bracket? σ.boundaries.size =
        some br := Store.opened_newBoundary br link (.bracket σ.boundaries.size)
    refine ⟨(Node.program (.bracket a u release)).step_grows e link σ, fun c g hg => ?_, ?_,
      .inr ⟨_, _, rfl⟩, ⟨⟨br, hopened, rfl, rfl⟩, trivial⟩, rfl⟩
    · obtain h | ⟨hc, -, h⟩ := Store.armed_push (σ := (σ.newBoundary (.bracket br)).1) link
        (.bracket σ.boundaries.size) c
      · exact .inl (h ▸ hg)
      · change g ∈ ((σ.newBoundary (.bracket br)).1.push link _).1.armed c at hg
        rw [h] at hg
        obtain rfl | hg := List.mem_cons.1 hg
        · exact .inr ⟨br, hopened, hc⟩
        · exact .inl hg
    · simp only [Prog.step, List.mem_append, List.mem_singleton, Store.push]
      rintro a (ha | rfl)
      · split at ha
        · rw [List.mem_singleton.1 ha]
          exact ⟨trivial, trivial⟩
        · simp at ha
      · exact ⟨trivial, trivial⟩
  | pop c =>
    have hgrows := (Node.program (.pop c)).step_grows e link σ
    have harmed := σ.armed_dropToken_subset c
    simp only [Node.step, Prog.step] at hgrows ⊢
    generalize hx : σ.popToken c = x at hgrows
    have hstore : x.1 = σ.dropToken c := by rw [← hx]; rfl
    obtain ⟨σ', _ | t⟩ := x <;> subst hstore <;>
      exact ⟨hgrows, fun c' _ hg => .inl (harmed c' hg), by simp, trivial, trivial, rfl⟩
  | _ => exact absurd trivial hp

theorem Token.begin_fits (t : Token) (hσ : σ.Sound) : (t.begin link σ).Fits σ e link := by
  by_cases ht : t.bracket? = none ∧ ∀ c, t ≠ .connection (some c)
  · exact (t.begin_plain ht.1 ht.2 σ).fits t.restore_notMem (t.begin_under link σ)
  have hgrows := (Node.token t).step_grows e link σ
  cases t with
  | bracket g =>
    refine ⟨hgrows, fun _ _ hg => .inl hg, by simp [Token.begin], ?_, trivial, rfl⟩
    simp only [Token.begin, Store.takeRelease]
    split <;> trivial
  | connection c =>
    simp only [Node.step, Token.begin] at hgrows ⊢
    generalize hx : σ.cancel c = x at hgrows
    have hstore : x.1 = (σ.cancel c).1 := by rw [← hx]
    have harmed : ∀ c', x.1.armed c' ⊆ σ.armed c' := fun c' => by
      rw [hstore, Store.armed_cancel]
      split
      · exact List.nil_subset _
      · exact List.Subset.refl _
    obtain ⟨σ', _ | ts⟩ := x
    · exact ⟨hgrows, fun c' _ hg => .inl (harmed c' hg), by simp, trivial, trivial, rfl⟩
    · refine ⟨hgrows, fun c' _ hg => .inl (harmed c' hg), by simp, fun g hg => ?_, trivial, rfl⟩
      cases c with
      | none => simp [Store.cancel, Store.connection?] at hx
      | some c =>
        refine (hσ.armed c g ?_).grows hgrows
        have hts : (σ.cancel (some c)).2 = some ts := by rw [hx]
        rw [← Store.armed_of_cancel hts]
        exact List.mem_filterMap.2 ⟨_, hg, rfl⟩
  | _ => exact absurd ⟨rfl, by simp⟩ ht

/-- A node is interpreted, and everything stands where it may. -/
theorem Node.step_fits {n : Node} (hn : n.Fits σ) (hσ : σ.Sound) :
    (n.step e link σ).Fits σ e link := by
  cases n with
  | program p => exact p.step_fits
  | token t => exact t.begin_fits hσ
  | sweep of ts =>
    have hbelow : σ.Fits e none [.restore link] := ⟨rfl, trivial⟩
    have h : (σ.sweep of none none [.restore link] ts).Fits σ e (Link.under none [.restore link]) :=
      Store.sweep_fits hn (fun _ _ => rfl) hbelow σ (.refl σ)
    exact h
  | release g v x =>
    simp only [Node.step]
    split
    · exact ⟨.refl σ, fun _ _ hg => .inl hg, by simp, trivial, ⟨trivial, rfl, rfl, trivial⟩, rfl⟩
    · exact ⟨.refl σ, fun _ _ hg => .inl hg, by simp, trivial, trivial, rfl⟩
  | result r =>
    exact ⟨.refl σ, fun _ _ hg => .inl hg, by simp [Node.step], trivial, trivial, rfl⟩
  | gate g =>
    exact (Store.awaitGate_plain g σ).fits (by simp [Store.awaitGate, Store.wait]) rfl

/-- A frame receives a result, and everything stands where it may. -/
theorem Frame.resume_fits {f : Frame} (hf : f.Fits σ e link) (r : Result) :
    (f.resume r link σ).Fits σ e (f.under link) := by
  by_cases hord : f.Ordinary
  · exact (Frame.resume_plain hord r σ).fits (fun _ => f.restore_notMem r link _ σ)
      (f.resume_under r link σ)
  have hgrows := f.resume_grows r link σ
  cases f with
  | use g f =>
    cases r with
    | ok v => exact ⟨hgrows, fun _ _ hg => .inl hg, by simp [Frame.resume], trivial, ⟨hf, trivial⟩, rfl⟩
    | error x => exact ⟨hgrows, fun _ _ hg => .inl hg, by simp [Frame.resume], trivial, trivial, rfl⟩
  | release g =>
    refine ⟨hgrows, fun _ _ hg => .inl hg, by simp [Frame.resume], ?_, ⟨trivial, trivial, trivial⟩, rfl⟩
    simp only [Frame.resume, Store.takeRelease]
    split <;> trivial
  | openGate g =>
    cases r with
    | ok v =>
      refine ⟨hgrows, fun _ _ hg => .inl hg, fun a ha => ?_, trivial, trivial, rfl⟩
      exact (Store.plain_completeSteps _ _ _ a ha).fits
    | error x => exact ⟨hgrows, fun _ _ hg => .inl hg, by simp [Frame.resume], trivial, trivial, rfl⟩
  | endBracket g used =>
    cases r with
    | ok v =>
      exact ⟨hgrows, fun c _ hg => .inl (σ.armed_dropToken_subset (σ.bracketLink g) c hg),
        by simp [Frame.resume], trivial, trivial, rfl⟩
    | error x => exact ⟨hgrows, fun _ _ hg => .inl hg, by simp [Frame.resume], trivial, trivial, rfl⟩
  | sweep of t ts first =>
    have hbelow : σ.Fits e link [] := trivial
    exact Store.sweep_fits hf.2 hf.1 hbelow (σ.collect first r).1 (.of_eq rfl rfl rfl)
  | _ => exact absurd trivial hord

/-- What a step leaves stands where it may. -/
structure Next.Fits (next : Next) : Prop where
  sound : next.1.Sound
  calls : ∀ a ∈ next.2, a.Fits next.1

/-- A turn leaves the frames below where they may stand. -/
theorem Turn.Fits.on {t : Turn} {l : Loop} (h : t.Fits σ l.id link) (ho : t.Opens σ)
    (hσ : σ.Sound) (hl : σ.Fits l.id link l.stack) : (t.on l).Fits := by
  refine ⟨hσ.grows h.grows (fun b l' hl' => ?_) h.armed, ?_⟩
  · change t.store.boundaries.cells[b]? = _ at hl'
    obtain ⟨hb, -⟩ | ⟨hb, -⟩ := ho.cells <;> rw [hb] at hl'
    · exact hl'
    · rw [Array.getElem?_push] at hl'
      split at hl'
      · cases hl'
      · exact hl'
  · simp only [Turn.on, List.mem_append, List.mem_singleton]
    rintro a (ha | rfl)
    · exact h.calls a ha
    · refine ⟨?_, Store.fits_append.2 ⟨h.frames, ?_⟩⟩
      · have hstage := h.stage
        cases hs : t.stage with
        | looking n =>
          rw [hs] at hstage
          exact hstage
        | leaving b =>
          rw [hs] at hstage
          refine hstage.imp_right ?_
          rintro ⟨f, gs, hfs⟩
          exact ⟨f, gs ++ l.stack, by rw [hfs]; rfl⟩
        | _ => trivial
      · rw [h.under]
        exact hl.grows h.grows

theorem Store.Sound.setBoundary {b : BoundaryId} {x : Boundary} (hσ : σ.Sound)
    (hx : ∀ l, x = .parked l → (Activity.work (.leaving b) l).Fits σ) :
    (σ.setBoundary b x).Sound := by
  refine ⟨fun b' l hl => ?_, fun c g hg => (hσ.armed c g hg).grows (.setBoundary b x)⟩
  obtain ⟨rfl, h⟩ | h := Store.boundary?_of_setBoundary hl
  · exact (hx l h.symm).grows (.setBoundary b' x)
  · exact (hσ.parked b' l h).grows (.setBoundary b x)

/-- A loop that comes to a boundary goes on from there with the stack it had. -/
theorem Activity.Fits.resumed {b : BoundaryId} {l : Loop} {x : Boundary} (r : Result)
    (h : (Activity.work (.leaving b) l).Fits σ) :
    (Activity.work (.looking (.result r)) l).Fits (σ.setBoundary b x) :=
  ⟨trivial, h.2.grows (.setBoundary b x)⟩

theorem Store.leave_fits {b : BoundaryId} {l : Loop} (hσ : σ.Sound)
    (hl : (Activity.work (.leaving b) l).Fits σ) : (σ.leave b l).Fits := by
  unfold Store.leave
  split
  · exact ⟨hσ.setBoundary (by simp), by simpa using hl.resumed _⟩
  · refine ⟨(hσ.setBoundary (b := b) (x := .parked l) ?_).grows (.of_eq rfl rfl rfl) (fun _ _ h => h)
      fun _ _ hg => .inl hg, by simp⟩
    rintro l' ⟨⟩
    exact hl
  · exact ⟨hσ, by simp⟩

theorem Store.completeBoundary_fits {b : BoundaryId} {r : Result} (hσ : σ.Sound) :
    (σ.completeBoundary b r).Fits := by
  unfold Store.completeBoundary
  split
  · exact ⟨hσ.setBoundary (by simp), by simp⟩
  · rename_i l hl
    refine ⟨(hσ.setBoundary (b := b) (x := .resumed) (by simp)).grows (.of_eq rfl rfl rfl)
      (fun _ _ h => h) fun _ _ hg => .inl hg, fun a ha => ?_⟩
    have hl' : (Activity.work (.looking (.result r)) l).Fits (σ.setBoundary b .resumed) :=
      (hσ.parked b l hl).resumed r
    rw [List.mem_singleton.1 ha]
    exact hl'.grows (.of_eq rfl rfl rfl)
  · exact ⟨hσ.grows (.of_eq rfl rfl rfl) (fun _ _ h => h) fun _ _ hg => .inl hg, by simp⟩

theorem Loop.step_fits {s : Stage} {l : Loop} (h : (Activity.work s l).Fits σ) (hσ : σ.Sound) :
    (l.step s σ).Fits := by
  have hend : ∀ r, Next.Fits (σ, [.deliver l.id l.sink r]) := fun r =>
    ⟨hσ, by simp [Activity.Fits]⟩
  cases s with
  | looking n =>
    cases hc : σ.isCancelled l.link with
    | true =>
      rw [Loop.step_of_cancelled hc]
      exact hend _
    | false =>
      rw [Loop.step_of_not_cancelled hc]
      exact (Node.step_fits h.1 hσ).on (n.step_opens _ _ σ) hσ h.2
  | handing r =>
    obtain ⟨e, link, _ | ⟨f, fs⟩, k⟩ := l
    · exact hend r
    · have hf : Turn.Fits σ e (f.under link) (f.resume r link σ) := Frame.resume_fits h.2.1 r
      exact hf.on (l := ⟨e, link, fs, k⟩) (f.resume_opens r link σ) hσ h.2.2
  | delaying c =>
    exact ((c.delaying_plain σ).fits (by simp [Code.turn]) rfl).on (c.delaying_opens _ σ) hσ h.2
  | suspending c =>
    exact ((c.suspending_plain σ).fits (by simp [Code.turn]) rfl).on (c.suspending_opens _ σ) hσ h.2
  | mapping c =>
    exact ((c.mapping_plain σ).fits (by simp [Code.turn]) rfl).on (c.mapping_opens _ σ) hσ h.2
  | leaving b => exact Store.leave_fits hσ h

theorem Store.Drops.armed_subset {σ' : Store} (h : σ.Drops σ') (c : ConnectionId) :
    σ'.armed c ⊆ σ.armed c := by
  obtain rfl | ⟨link, rfl⟩ := h
  · exact List.Subset.refl _
  · exact σ.armed_dropToken_subset link c

theorem Next.PlainOnceDropped.fits {next : Next} (h : next.PlainOnceDropped σ)
    (ha : next.Aside σ) (hσ : σ.Sound) : next.Fits := by
  have hgrows := h.grows
  obtain ⟨σ', hdrops, hplain⟩ := h
  refine ⟨hσ.grows_of_subset hgrows (fun b l hl => ha.boundary? b ▸ hl) fun c => ?_,
    fun a' ha' => (hplain.calls a' ha').fits⟩
  rw [hplain.alike.armed]
  exact hdrops.armed_subset c

theorem Store.endAcquire_fits (g : BracketId) (r : Result) (hσ : σ.Sound) :
    (σ.endAcquire g r).Fits := by
  have hgrows := σ.endAcquire_grows g r
  have hcells := (σ.endAcquire_aside g r).boundary?
  cases hg : σ.bracket? g with
  | none =>
    rw [Store.endAcquire_of_none hg]
    exact ⟨hσ, by simp⟩
  | some br =>
    cases r with
    | error x =>
      rw [Store.endAcquire_error hg] at hgrows hcells ⊢
      refine ⟨hσ.grows_of_subset hgrows (fun b l hl => hcells b ▸ hl)
        (σ.armed_dropToken_subset br.link), fun a ha => ?_⟩
      obtain ha | ha := List.mem_append.1 ha
      · exact (Store.plain_completeSteps _ _ _ a ha).fits
      · rw [List.mem_singleton.1 ha]
        trivial
    | ok v =>
      cases hc : σ.isCancelled br.link with
      | true =>
        rw [Store.endAcquire_late hg hc] at hgrows hcells ⊢
        exact ⟨hσ.grows_of_subset hgrows (fun b l hl => hcells b ▸ hl)
          fun c => List.Subset.refl _, by simp [Activity.Fits, Node.Fits, Node.Begins]⟩
      | false =>
        rw [Store.endAcquire_held hg hc] at hgrows hcells ⊢
        exact ⟨hσ.grows_of_subset hgrows (fun b l hl => hcells b ▸ hl)
          fun c => List.Subset.refl _, by simp [Activity.Fits]⟩

/-- An ordinary call leaves executions and boundaries alone. -/
theorem Activity.Ordinary.beside {a : Activity} (h : a.Ordinary) : a.Beside := by
  cases a with
  | start n link k => exact h.elim
  | work s l => exact h.elim
  | complete c r =>
    cases c with
    | boundary b => exact h.elim
    | _ => trivial
  | _ => trivial

theorem Activity.step_fits {a : Activity} (ha : a.Fits σ) (hσ : σ.Sound) : (a.step σ).Fits := by
  by_cases hord : a.Ordinary
  · exact (Activity.step_plain hord σ).fits (Activity.step_aside hord.beside σ) hσ
  cases a with
  | start n link k =>
    refine ⟨hσ.grows (.of_eq rfl rfl rfl) (fun _ _ h => h) fun _ _ hg => .inl hg, fun a' ha' => ?_⟩
    rw [List.mem_singleton.1 ha']
    have hn : n.Fits (σ.begin link k).1 := Node.Fits.grows ha.1 (.of_eq rfl rfl rfl)
    exact ⟨hn, trivial⟩
  | work s l => exact Loop.step_fits ha hσ
  | deliver e k r =>
    cases k with
    | acquired g => exact Store.endAcquire_fits g r hσ
    | lateRelease g =>
      simp only [Activity.step, Sink.receive]
      split
      · exact ⟨hσ.grows (.of_eq rfl rfl rfl) (fun _ _ h => h) fun _ _ hg => .inl hg,
          by simp [Activity.Fits]⟩
      · exact ⟨hσ.grows (.of_eq rfl rfl rfl) (fun _ _ h => h) fun _ _ hg => .inl hg, by simp⟩
    | _ => exact absurd trivial hord
  | complete c r =>
    cases c with
    | boundary b => exact Store.completeBoundary_fits hσ
    | _ => exact absurd trivial hord
  | _ => exact absurd trivial hord

theorem Input.step_fits (i : Input) (hσ : σ.Sound) : (i.step σ).Fits :=
  (i.step_plain σ).fits (i.step_aside σ) hσ

end Steps

namespace Session

/-- **Everything stands where it may**, in every reachable state. -/
theorem fits (cs : List Choice) :
    (after cs).store.Sound ∧ ∀ a ∈ (after cs).calls, a.Fits (after cs).store := by
  refine invariant (P := fun S => S.store.Sound ∧ ∀ a ∈ S.calls, a.Fits S.store)
    ⟨⟨by simp [Store.boundary?], by simp [Store.armed]⟩, by simp⟩ ?_ ?_ cs
  · rintro cs i ⟨hσ, hcalls⟩
    have h := i.step_fits hσ
    refine ⟨h.sound, fun a ha => ?_⟩
    obtain ha | ha := List.mem_append.1 ha
    · exact h.calls a ha
    · exact (hcalls a ha).grows (i.step_grows _)
  · rintro cs a xs ys hS ⟨hσ, hcalls⟩
    rw [hS] at hcalls
    have h := Activity.step_fits (hcalls a (by simp)) hσ
    refine ⟨h.sound, fun a' ha' => ?_⟩
    obtain ha' | ha' := List.mem_append.1 ha'
    · exact h.calls a' ha'
    · refine (hcalls a' ?_).grows (a.step_grows _)
      simp only [List.mem_append, List.mem_cons] at ha' ⊢
      exact ha'.imp_right .inr

end Session

end CancelableEffects
