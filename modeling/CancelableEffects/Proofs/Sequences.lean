import CancelableEffects.Proofs.Strands

/-!
# Sequences — a bracket in plain words

* `Prog.inSequence`: the program that acquires, attempts the use, attempts the release, and ends as both did.
* `Follows`: a loop in the midst of a bracket is where the sequence is.
* `Stage.serves`: a turn that only keeps the books of the bracket.
* **`Follows.takes`**: with the turns of the loop the sequence does what the loop does.
* `Follows.answered`, `Follows.link_eq`: it waits where the loop waits, and the loop is stopped only where
  the connection of the bracket was cancelled.
-/

namespace CancelableEffects

/-! ## The sequence -/

namespace Prog

/-- Ends as the use and the release did, which were attempted: with the value of the use, or with the first
error, in which the second one is suppressed. -/
def composed (used released : Value) : Prog :=
  match used.toResult, released.toResult with
  | .ok v, .ok _ => pure v
  | .ok _, .error e => raise e
  | .error e, .ok _ => raise e
  | .error e, .error later => raise { e with suppressed := e.suppressed ++ [later] }

/-- Attempts the release of the resource after its use. -/
def releaseNext (release : Release Prog) (v used : Value) : Prog :=
  bind (attempt (uncancelable (suspend (release.code v (.ofResult used.toResult)))))
    fun released => .ret (composed used released)

/-- Attempts the use of the resource, and then the release. -/
def useNext (use : Value → Code Prog Prog) (release : Release Prog) (v : Value) : Prog :=
  bind (attempt (suspend (use v))) fun used => .ret (releaseNext release v used)

/-- Acquires a resource, attempts its use, attempts its release, and ends as both did. The resource is
acquired and released with cancellation disabled. -/
def inSequence (acquire : Prog) (use : Value → Code Prog Prog) (release : Release Prog) : Prog :=
  bind (uncancelable acquire) fun v => .ret (useNext use release v)

end Prog

/-- The frame of an attempt of a program. -/
def Frame.attempts : Frame :=
  .fold (fun e => .ret (.pure (.err e))) fun v => .ret (.pure (.ok v))

/-- The frames of the sequence while it acquires. -/
def Frame.whileAcquiring (link : Link) (use : Value → Code Prog Prog) (release : Release Prog) : List Frame :=
  [.restore link, .bind fun v => .ret (.useNext use release v)]

/-- The frames of the sequence while it uses the resource. -/
def Frame.whileUsing (release : Release Prog) (v : Value) : List Frame :=
  [.attempts, .bind fun used => .ret (.releaseNext release v used)]

/-- The frames of the sequence while it releases the resource. -/
def Frame.whileReleasing (link : Link) (used : Value) : List Frame :=
  [.restore link, .attempts, .bind fun released => .ret (.composed used released)]

namespace Strand

variable {σ : Store} {link : Link} {fs : List Frame} {acquire : Prog} {use : Value → Code Prog Prog}
  {release : Release Prog}

theorem comes_result (hc : σ.isCancelled link = false) (r : Result) :
    (Strand.mk (.looking (.result r)) link fs).Comes [] ⟨.handing r, link, fs⟩ :=
  comes_looking (n := .result r) rfl hc

/-- A value comes to the next program. -/
theorem comes_bind (v : Value) (p : Value → Prog) :
    (Strand.mk (.handing (.ok v)) link (.bind (fun v => .ret (p v)) :: fs)).Comes []
      ⟨.looking (.program (p v)), link, fs⟩ :=
  (comes_handing (f := .bind fun v => .ret (p v)) rfl (.ok v) {}).silently (comes_ret _)

/-- An attempt ends with the result as a value. -/
theorem comes_attempts (hc : σ.isCancelled link = false) (r : Result) :
    (Strand.mk (.handing r) link (.attempts :: fs)).Comes [] ⟨.handing (.ok r.toValue), link, fs⟩ := by
  have hpure : ∀ v, (Strand.mk (.suspending (.ret (.pure v))) link fs).Comes [] ⟨.handing (.ok v), link, fs⟩ :=
    fun v => (comes_ret (.pure v)).silently (comes_looking (n := .program (.pure v)) rfl hc)
  cases r with
  | ok v => exact (comes_handing (f := .attempts) rfl (.ok v) {}).silently (hpure (.ok v))
  | error e => exact (comes_handing (f := .attempts) rfl (.error e) {}).silently (hpure (.err e))

theorem comes_restore (hc : σ.isCancelled link = false) (r : Result) (inner : Link) :
    (Strand.mk (.handing r) inner (.restore link :: fs)).Comes [] ⟨.handing r, link, fs⟩ :=
  (comes_handing (f := .restore link) rfl r {}).silently (comes_result hc r)

/-- The sequence begins to acquire. -/
theorem comes_acquiring (hc : σ.isCancelled link = false) :
    (Strand.mk (.looking (.program (.inSequence acquire use release))) link []).Comes []
      ⟨.looking (.program acquire), none, Frame.whileAcquiring link use release⟩ :=
  (comes_looking (n := .program (.inSequence acquire use release)) rfl hc).silently
    (comes_looking (n := .program (.uncancelable acquire)) rfl hc)

/-- With the resource the sequence begins to use it. -/
theorem comes_using (hc : σ.isCancelled link = false) (v : Value) :
    (Strand.mk (.handing (.ok v)) none (Frame.whileAcquiring link use release)).Comes []
      ⟨.looking (.program (.suspend (use v))), link, Frame.whileUsing release v⟩ :=
  (comes_restore hc (.ok v) none).silently <| (comes_bind v (.useNext use release)).silently <|
    (comes_looking (n := .program (.useNext use release v)) rfl hc).silently
      (comes_looking (n := .program (.attempt (.suspend (use v)))) rfl hc)

/-- Without a resource the sequence ends with the error. -/
theorem comes_unacquired (hc : σ.isCancelled link = false) (e : Error) :
    (Strand.mk (.handing (.error e)) none (Frame.whileAcquiring link use release)).Comes []
      ⟨.handing (.error e), link, []⟩ :=
  (comes_restore hc (.error e) none).silently
    (comes_handing (f := .bind fun v => .ret (.useNext use release v)) rfl (.error e) {})

/-- After the use the sequence begins the release. -/
theorem comes_releasing (hc : σ.isCancelled link = false) (v : Value) (r : Result) :
    (Strand.mk (.handing r) link (Frame.whileUsing release v)).Comes []
      ⟨.suspending (release.code v (.ofResult r)), none, Frame.whileReleasing link r.toValue⟩ := by
  have hsuspends : (Strand.mk (.looking (.program (.suspend (release.code v (.ofResult r.toValue.toResult)))))
      none (Frame.whileReleasing link r.toValue)).Comes []
        ⟨.suspending (release.code v (.ofResult r)), none, Frame.whileReleasing link r.toValue⟩ := by
    rw [Value.toResult_toValue]
    exact comes_looking (σ := {}) (n := .program (.suspend (release.code v (.ofResult r)))) rfl rfl
  exact (comes_attempts hc r).silently <| (comes_bind r.toValue (.releaseNext release v)).silently <|
    (comes_looking (n := .program (.releaseNext release v r.toValue)) rfl hc).silently <|
      (comes_looking (n := .program (.attempt (.uncancelable (.suspend
        (release.code v (.ofResult r.toValue.toResult)))))) rfl hc).silently <|
          (comes_looking (n := .program (.uncancelable (.suspend
            (release.code v (.ofResult r.toValue.toResult))))) rfl hc).silently hsuspends

/-- After the release the sequence ends as both did. -/
theorem comes_composed (hc : σ.isCancelled link = false) (r released : Result) :
    (Strand.mk (.handing released) none (Frame.whileReleasing link r.toValue)).Comes []
      ⟨.handing (r.afterRelease released), link, []⟩ := by
  have hends : (Strand.mk (.looking (.program (.composed r.toValue released.toValue))) link []).Comes []
      ⟨.handing (r.afterRelease released), link, []⟩ := by
    simp only [Prog.composed, Value.toResult_toValue]
    cases r with
    | ok v => cases released with
      | ok _ => exact comes_looking (n := .program (.pure v)) rfl hc
      | error e => exact comes_looking (n := .program (.raise e)) rfl hc
    | error e => cases released with
      | ok _ => exact comes_looking (n := .program (.raise e)) rfl hc
      | error later =>
        exact comes_looking (n := .program (.raise { e with suppressed := e.suppressed ++ [later] })) rfl hc
  exact (comes_restore hc released none).silently <| (comes_attempts hc released).silently <|
    (comes_bind released.toValue (.composed r.toValue)).silently hends

end Strand

/-! ## The bracket follows the sequence -/

/-- The result is handed to the frames, or is going to be. -/
def Stage.Hands (r : Result) (s : Stage) : Prop := s = .looking (.result r) ∨ s = .handing r

/-- The frames of a bracket whose use ended with `r`, once the release has its end. -/
def Frame.closing (g : BracketId) (link : Link) (r : Result) : List Frame :=
  [.restore link, .attempt, .endBracket g r]

/-- What comes to which frames, and under which connection, when the release has ended with `released`. -/
inductive Frame.Closes (g : BracketId) (link : Link) (r released : Result) : Result → Link → List Frame → Prop
  | opens : Closes g link r released (.ok released.toValue) none (.openGate g :: closing g link r)
  | restores : Closes g link r released released none (closing g link r)
  | attempts : Closes g link r released released link [.attempt, .endBracket g r]
  | ends : Closes g link r released (.ok released.toValue) link [.endBracket g r]

/-- How far a bracket has come, once its acquisition has ended. -/
inductive Part where
  /-- What it ended with comes to the use. -/
  | acquired
  | inUse
  /-- The use has ended with `r`. -/
  | ending (r : Result)
  /-- And the release has ended too. -/
  | closed (r released : Result)
  /-- No resource was acquired. -/
  | failed (e : Error)

/-- With a turn from the stage, above these frames, a bracket comes from one part to another. -/
inductive Part.Leads (g : BracketId) (s : Stage) (fs : List Frame) : Part → Part → Prop
  | same (p : Part) : Leads g s fs p p
  | uses : Leads g s fs .acquired .inUse
  | fails (e : Error) : Leads g s fs .acquired (.failed e)
  | ends (r : Result) : Leads g s fs .inUse (.ending r)
  | closed (r released : Result) (hs : s = .handing released)
    (hfs : ∃ below, fs = .attempt :: .openGate g :: below) : Leads g s fs (.ending r) (.closed r released)

/-- A loop that has opened the bracket under this connection is at the stage, with these frames above those
that it had then, and `held` is the resource that is there: it is where the sequence is as this strand. -/
inductive Follows (g : BracketId) (link : Link) (use : Value → Code Prog Prog) (release : Release Prog)
    (held : Option Value) : Part → Stage → Link → List Frame → Strand → Prop
  | gets {s : Stage} (r : Result) (hs : s.Hands r) (hheld : ∀ v, r = .ok v → held = some v) :
    Follows g link use release held .acquired s link [.use g use]
      ⟨.handing r, none, Frame.whileAcquiring link use release⟩
  | uses {s : Stage} {inner : Link} {above : List Frame} (v : Value) (hunder : inner.under above = link)
    (hs : s.Spares g) (habove : ∀ f ∈ above, f.Spares g) (hheld : held = some v) :
    Follows g link use release held .inUse s inner (above ++ [.release g])
      ⟨s, inner, above ++ Frame.whileUsing release v⟩
  /-- The release is next. -/
  | asks (v : Value) (r : Result) :
    Follows g link use release held (.ending r) (.looking (.release g v (.ofResult r))) link
      [.attempt, .endBracket g r] ⟨.handing r, link, Frame.whileUsing release v⟩
  /-- The release is run. -/
  | releases {s : Stage} {inner : Link} {above : List Frame} (r : Result) (hunder : inner.under above = none)
    (hs : s.Spares g) (habove : ∀ f ∈ above, f.Spares g) :
    Follows g link use release held (.ending r) s inner
      (above ++ .attempt :: .openGate g :: Frame.closing g link r)
      ⟨s, inner, above ++ Frame.whileReleasing link r.toValue⟩
  | closes {s : Stage} {inner : Link} {fs : List Frame} {x : Result} (r released : Result) (hs : s.Hands x)
    (h : Frame.Closes g link r released x inner fs) :
    Follows g link use release held (.closed r released) s inner fs
      ⟨.handing released, none, Frame.whileReleasing link r.toValue⟩
  | ends {s : Stage} (r released : Result) (hs : s.Hands (r.afterRelease released)) :
    Follows g link use release held (.closed r released) s link [] ⟨.handing (r.afterRelease released), link, []⟩
  | fails {s : Stage} (e : Error) (hs : s.Hands (.error e)) :
    Follows g link use release held (.failed e) s link [] ⟨.handing (.error e), link, []⟩

/-- The next turn from this stage, with these frames, only keeps the books of the bracket. -/
def Stage.serves (g : BracketId) (fs : List Frame) : Stage → Bool
  | .looking (.release g' _ _) => g' == g
  | .leaving b => b == g
  | .handing _ => match fs with
    | .release g' :: _ | .openGate g' :: _ | .endBracket g' _ :: _ => g' == g
    | _ => false
  | _ => false

section Follows

variable {g : BracketId} {link inner : Link} {use : Value → Code Prog Prog} {release : Release Prog}
  {held : Option Value} {l : Loop} {σ : Store} {s : Stage} {t : Turn} {fs fs₀ below : List Frame}
  {y : Strand} {br : Bracket} {p : Part}

/-- Who keeps off the bracket does not keep its books. -/
theorem Stage.Spares.serves (hs : s.Spares g) {above : List Frame} (habove : ∀ f ∈ above, f.Spares g)
    (hne : ∀ r, s = .handing r → above ≠ []) (fs : List Frame) : s.serves g (above ++ fs) = false := by
  cases s with
  | looking n =>
    cases n with
    | release g' v x =>
      refine beq_eq_false_iff_ne.2 ?_
      rintro rfl
      exact hs.2 v x rfl
    | _ => rfl
  | leaving b =>
    refine beq_eq_false_iff_ne.2 ?_
    rintro rfl
    exact hs.1 rfl
  | handing r =>
    cases above with
    | nil => exact absurd rfl (hne r rfl)
    | cons f above =>
      have hf := habove f (.head _)
      cases f with
      | release g' => exact beq_eq_false_iff_ne.2 fun h => hf.1 (congrArg some h)
      | endBracket g' used => exact beq_eq_false_iff_ne.2 fun h => hf.1 (congrArg some h)
      | openGate g' => exact beq_eq_false_iff_ne.2 fun h => hf.2 (congrArg Frame.openGate h)
      | _ => rfl
  | _ => rfl

/-- The use begins with nothing above the frames of the bracket. -/
theorem Follows.uses_first {q : Prog} (v : Value) (hheld : held = some v) :
    Follows g link use release held .inUse (.looking (.program q)) link [.release g]
      ⟨.looking (.program q), link, Frame.whileUsing release v⟩ := by
  have hunder : link.under [] = link := rfl
  exact .uses v hunder ⟨nofun, nofun⟩ nofun hheld

/-- So does the release. -/
theorem Follows.releases_first (r : Result) (c : Code Prog Prog) :
    Follows g link use release held (.ending r) (.suspending c) none
      (.attempt :: .openGate g :: Frame.closing g link r)
      ⟨.suspending c, none, Frame.whileReleasing link r.toValue⟩ := by
  have hunder : Link.under none [] = none := rfl
  exact .releases r hunder ⟨nofun, nofun⟩ nofun

/-- A loop in the midst of a bracket waits where the sequence waits. -/
theorem Follows.answered {b : BoundaryId} (h : Follows g link use release held p (.leaving b) inner fs y)
    (r : Result) : b ≠ g ∧ y.stage = .leaving b ∧ ∃ y', Follows g link use release held p (.looking (.result r)) inner fs y' ∧
      y.Comes [.got b r] y' := by
  cases h with
  | uses v hunder hs habove hheld =>
    exact ⟨fun hb => hs.1 (hb ▸ rfl), rfl, _, .uses v hunder ⟨nofun, nofun⟩ habove hheld,
      (Strand.Does.gets rfl r).comes⟩
  | releases r' hunder hs habove =>
    exact ⟨fun hb => hs.1 (hb ▸ rfl), rfl, _, .releases r' hunder ⟨nofun, nofun⟩ habove,
      (Strand.Does.gets rfl r).comes⟩
  | gets r' hs => obtain hs | hs := hs <;> cases hs
  | closes r' released hs => obtain hs | hs := hs <;> cases hs
  | ends r' released hs => obtain hs | hs := hs <;> cases hs
  | fails e hs => obtain hs | hs := hs <;> cases hs

/-- It matters to a loop which resource is there only as long as it is going to use or to release that. -/
theorem Follows.kept {held' : Option Value} (h : Follows g link use release held p s inner fs y)
    (hheld : .use g use ∈ fs ∨ .release g ∈ fs → held' = held) :
    Follows g link use release held' p s inner fs y := by
  cases h with
  | gets r hs hh => exact .gets r hs fun v hv => (hheld (.inl (.head _))).trans (hh v hv)
  | uses v hunder hs habove hh =>
    exact .uses v hunder hs habove ((hheld (.inr (List.mem_append_right _ (.head _)))).trans hh)
  | asks v r => exact .asks v r
  | releases r hunder hs habove => exact .releases r hunder hs habove
  | closes r released hs h => exact .closes r released hs h
  | ends r released hs => exact .ends r released hs
  | fails e hs => exact .fails e hs

/-- When no frames of the bracket are left, it has ended, and so has the sequence. -/
theorem Follows.of_nil (h : Follows g link use release held p s inner [] y) :
    inner = link ∧ ∃ r, s.Hands r ∧ y = ⟨.handing r, link, []⟩ ∧
      ((∃ used released, p = .closed used released ∧ r = used.afterRelease released) ∨ ∃ e, p = .failed e) := by
  generalize hfs : ([] : List Frame) = fs at h
  cases h with
  | uses v hunder hs habove hheld => exact absurd hfs.symm (List.append_ne_nil_of_right_ne_nil _ nofun)
  | releases r hunder hs habove => exact absurd hfs.symm (List.append_ne_nil_of_right_ne_nil _ nofun)
  | closes r released hs h => cases h <;> cases hfs
  | ends r released hs => exact ⟨rfl, _, hs, rfl, .inl ⟨r, released, rfl, rfl⟩⟩
  | fails e hs => exact ⟨rfl, _, hs, rfl, .inr ⟨e, rfl⟩⟩
  | _ => cases hfs

/-- A loop in the midst of a bracket has no other connection than that of the bracket. -/
theorem Follows.link_eq {c : ConnectionId} (h : Follows g link use release held p s (some c) fs y)
    (hrestore : ∀ enclosing, Frame.restore enclosing ∉ fs) : link = some c := by
  cases h with
  | uses v hunder =>
    refine (hunder.symm.trans (Link.under_of_notMem fun enclosing hmem => ?_))
    exact hrestore enclosing (List.mem_append_left _ hmem)
  | releases r hunder => exact absurd (List.mem_append_right _ (.tail _ (.tail _ (.head _)))) (hrestore link)
  | closes r released hs h =>
    cases h <;> rfl
  | _ => rfl

/-! ### Turns -/

/-- The acts of a turn from this stage, but for the books of the bracket. -/
def Stage.shows (g : BracketId) (fs : List Frame) (σ : Store) (t : Turn) (s : Stage) : List Act :=
  if s.serves g fs then [] else s.deed fs σ t

theorem Stage.shows_of_serves (h : s.serves g fs = true) : s.shows g fs σ t = [] := if_pos h

theorem Stage.shows_of_idle (h : s.acts fs = false) : s.shows g fs σ t = [] := by
  rw [Stage.shows, Stage.deed, h]
  exact ite_self []

/-- Frames that stay above those of the bracket take their turn, or they have come to an end. -/
theorem Loop.Takes.within (gs : List Frame) {above : List Frame} (ht : l.Takes σ s t fs)
    (hstack : l.stack = above ++ gs ++ below) (hs : s.Spares g) (habove : ∀ f ∈ above, f.Spares g)
    (hg : g < σ.boundaries.size) (htoken : (Activity.work s l).deal g σ ≠ .asks true)
    (hne : ∀ r, s = .handing r → above ≠ []) :
    ∃ above', fs = above' ++ gs ++ below ∧
      t.link.under (t.frames ++ above') = l.link.under above ∧ t.stage.Spares g ∧
        (∀ f ∈ t.frames ++ above', f.Spares g) ∧ ∀ below', (Strand.mk s l.link (above ++ below')).Comes
          (s.shows g l.stack σ t)
          ⟨t.stage, t.link, t.frames ++ above' ++ below'⟩ := by
  rw [List.append_assoc] at hstack
  obtain ⟨above', hfs, hsuffix, hunder, hcomes⟩ := Strand.comes_above ht hstack hne
  obtain ⟨hstage, hframes⟩ := ht.spares hg hs (fun r f hr hhead => by
    cases above with
    | nil => exact absurd rfl (hne r hr)
    | cons f' above =>
      rw [hstack] at hhead
      exact Option.some.inj hhead ▸ habove f' (.head _)) htoken
  refine ⟨above', by rw [hfs, List.append_assoc], hunder, hstage, fun f hf => ?_, fun below' => ?_⟩
  · exact (List.mem_append.1 hf).elim (hframes f) fun hf => habove f (hsuffix.mem hf)
  · rw [Stage.shows, if_neg (by rw [hstack, hs.serves habove hne]; exact Bool.false_ne_true)]
    exact hcomes below'

/-- Who keeps off the bracket leaves the resource there. -/
theorem Loop.Takes.held_eq (ht : l.Takes σ s t fs) (hg : g < σ.boundaries.size)
    (htoken : (Activity.work s l).deal g σ ≠ .asks true)
    (huse : (Activity.work s l).deal g σ ≠ .asks false) : t.store.held? g = σ.held? g := by
  have hstore : ((Activity.work s l).step σ).1 = t.store := congrArg Prod.fst ht.step
  obtain hopens | hacquires | ⟨⟨token, hasks⟩, -⟩ | hheld := (Activity.work s l).step_held σ g
  · obtain ⟨l', acquire, use, release, -, hsize, -⟩ := Activity.of_deal_opens hopens
    exact absurd hg (Nat.not_lt.2 (Nat.le_of_eq hsize))
  · obtain ⟨e, r, h, -⟩ := Activity.of_deal_acquires hacquires
    cases h
  · cases token with
    | true => exact absurd hasks htoken
    | false => exact absurd hasks huse
  · exact hstore ▸ hheld

/-- After the turn of the loop, above the frames `below`, the sequence has come from `y` to where it is. -/
def Advances (g : BracketId) (link : Link) (use : Value → Code Prog Prog) (release : Release Prog)
    (below : List Frame) (p : Part) (y : Strand) (s : Stage) (l : Loop) (σ : Store) (t : Turn)
    (fs : List Frame) : Prop :=
  ∃ p' fs₁ y', p.Leads g s l.stack p' ∧ t.frames ++ fs = fs₁ ++ below ∧
    Follows g link use release (t.store.held? g) p' t.stage t.link fs₁ y' ∧ y.Comes (s.shows g l.stack σ t) y'

/-- A result that is looked at is handed to the frames. -/
theorem Advances.of_looking {r : Result} (ht : l.Takes σ (.looking (.result r)) t fs)
    (hstack : l.stack = fs₀ ++ below)
    (h : Follows g link use release (σ.held? g) p (.handing r) l.link fs₀ y) :
    Advances g link use release below p y (.looking (.result r)) l σ t fs := by
  cases ht with
  | looking n hc =>
    refine ⟨p, fs₀, y, .same p, hstack, h, ?_⟩
    rw [Stage.shows_of_idle rfl]
    exact .here

/-- With the resource its use begins, and without one the bracket ends. -/
theorem Advances.of_gets {r : Result} (ht : l.Takes σ (.handing r) t fs)
    (hstack : l.stack = .use g use :: below) (hlink : l.link = link) (hc : σ.isCancelled link = false)
    (hheld : ∀ v, r = .ok v → σ.held? g = some v) : Advances g link use release below .acquired
      ⟨.handing r, none, Frame.whileAcquiring link use release⟩ (.handing r) l σ t fs := by
  subst hlink
  cases ht with
  | handing r f fs hf =>
    obtain ⟨rfl, rfl⟩ := List.cons_eq_cons.1 (hf.symm.trans hstack)
    rw [Advances, hstack, Stage.shows_of_idle rfl]
    cases r with
    | ok v => exact ⟨.inUse, [.release g], _, .uses, rfl, .uses_first v (hheld v rfl), Strand.comes_using hc v⟩
    | error e => exact ⟨.failed e, [], _, .fails e, rfl, .fails e (.inr rfl), Strand.comes_unacquired hc e⟩

/-- The end of the use asks for the release, and gets it. -/
theorem Loop.Takes.asks_release {r : Result} {v : Value} (ht : l.Takes σ (.handing r) t fs)
    (hstack : l.stack = .release g :: below) (hlink : l.link = link) (hheld : σ.held? g = some v) :
    t.frames ++ fs = [.attempt, .endBracket g r] ++ below ∧ t.stage = .looking (.release g v (.ofResult r)) ∧
      t.link = link ∧ (Stage.handing r).shows g l.stack σ t = [] := by
  subst hlink
  cases ht with
  | handing r f fs hf =>
    obtain ⟨rfl, rfl⟩ := List.cons_eq_cons.1 (hf.symm.trans hstack)
    refine ⟨rfl, ?_, rfl, Stage.shows_of_serves (by simp [hf, Stage.serves])⟩
    simp only [Frame.resume, Store.takeRelease_of_held hheld]

/-- The release begins. -/
theorem Advances.of_asked {r : Result} {v : Value} (ht : l.Takes σ (.looking (.release g v (.ofResult r))) t fs)
    (hstack : l.stack = .attempt :: .endBracket g r :: below) (hlink : l.link = link)
    (hbr : σ.bracket? g = some br) (hrelease : br.release = release) (hc : σ.isCancelled link = false) :
    Advances g link use release below (.ending r) ⟨.handing r, link, Frame.whileUsing release v⟩
      (.looking (.release g v (.ofResult r))) l σ t fs := by
  subst hlink hrelease
  cases ht with
  | looking n hactive =>
    rw [Advances, Stage.shows_of_serves (by simp [Stage.serves]), hstack]
    simp only [Node.step, hbr]
    exact ⟨.ending r, .attempt :: .openGate g :: Frame.closing g l.link r, _, .same _, rfl,
      .releases_first r _, Strand.comes_releasing hc v r⟩

/-- The release has ended. -/
theorem Advances.of_released {r released : Result} (ht : l.Takes σ (.handing released) t fs)
    (hstack : l.stack = .attempt :: .openGate g :: Frame.closing g link r ++ below) (hlink : l.link = none) :
    Advances g link use release below (.ending r)
      ⟨.handing released, none, Frame.whileReleasing link r.toValue⟩ (.handing released) l σ t fs := by
  cases ht with
  | handing _ f fs hf =>
    obtain ⟨rfl, rfl⟩ := List.cons_eq_cons.1 (hf.symm.trans hstack)
    rw [Advances, hstack, Stage.shows_of_idle rfl]
    refine ⟨.closed r released, .openGate g :: Frame.closing g link r, _, .closed r released rfl ⟨_, rfl⟩, rfl, ?_,
      .here⟩
    simp only [Frame.resume, hlink]
    exact .closes r released (.inl rfl) .opens

/-- The frames at the end of a bracket receive their results. -/
theorem Advances.of_closes {r released x : Result} (ht : l.Takes σ (.handing x) t fs)
    (hstack : l.stack = fs₀ ++ below) (hc : σ.isCancelled link = false)
    (h : Frame.Closes g link r released x l.link fs₀) :
    Advances g link use release below (.closed r released)
      ⟨.handing released, none, Frame.whileReleasing link r.toValue⟩ (.handing x) l σ t fs := by
  generalize hinner : l.link = inner at h
  cases ht with
  | handing _ f fs hf =>
    have hframes := hf.symm.trans hstack
    cases h with
    | opens =>
      obtain ⟨rfl, rfl⟩ := List.cons_eq_cons.1 hframes
      rw [Advances, hf, Stage.shows_of_serves (by simp [Stage.serves])]
      simp only [Frame.resume, Value.toResult_toValue, hinner]
      exact ⟨_, Frame.closing g link r, _, .same _, rfl, .closes r released (.inl rfl) .restores, .here⟩
    | restores =>
      obtain ⟨rfl, rfl⟩ := List.cons_eq_cons.1 hframes
      rw [Advances, hf, Stage.shows_of_idle rfl]
      exact ⟨_, [.attempt, .endBracket g r], _, .same _, rfl, .closes r _ (.inl rfl) .attempts, .here⟩
    | attempts =>
      obtain ⟨rfl, rfl⟩ := List.cons_eq_cons.1 hframes
      rw [Advances, hf, Stage.shows_of_idle rfl]
      refine ⟨_, [.endBracket g r], _, .same _, rfl, ?_, .here⟩
      simp only [Frame.resume, hinner]
      exact .closes r _ (.inl rfl) .ends
    | ends =>
      obtain ⟨rfl, rfl⟩ := List.cons_eq_cons.1 hframes
      rw [Advances, hf, Stage.shows_of_serves (by simp [Stage.serves])]
      simp only [Frame.resume, Value.toResult_toValue, hinner]
      exact ⟨_, [], _, .same _, rfl, .ends r released (.inl rfl), Strand.comes_composed hc r released⟩

/-- **With the turns of the loop the sequence does what the loop does.** A loop in the midst of a bracket
takes a turn, and does not run the token of that: then the sequence acts as the loop does, but for the books
of the bracket, and comes to where the loop is. -/
theorem Follows.takes (h : Follows g link use release (σ.held? g) p s l.link fs₀ y) (ht : l.Takes σ s t fs)
    (hstack : l.stack = fs₀ ++ below) (hbr : σ.bracket? g = some br) (hrelease : br.release = release)
    (hc : σ.isCancelled link = false) (htoken : (Activity.work s l).deal g σ ≠ .asks true)
    (hgoing : ∀ r, s = .handing r → fs₀ ≠ []) : Advances g link use release below p y s l σ t fs := by
  have hg : g < σ.boundaries.size := Session.lt_of_bracket? hbr
  generalize hinner : l.link = inner at h
  cases h with
  | gets r hs hheld =>
    obtain rfl | rfl := hs
    · exact .of_looking ht hstack (hinner ▸ .gets r (.inr rfl) hheld)
    · exact .of_gets ht hstack hinner hc hheld
  | @uses s inner above v hunder hs habove hheld =>
    by_cases hne : ∀ r, s = .handing r → above ≠ []
    · obtain ⟨above', rfl, hunder', hstage, habove', hcomes⟩ :=
        ht.within [.release g] hstack hs habove hg htoken hne
      refine ⟨_, t.frames ++ above' ++ [.release g], _, .same _, by simp, .uses v ?_ hstage habove' ?_,
        hinner ▸ hcomes _⟩
      · rw [hunder', hinner, hunder]
      · rw [ht.held_eq hg htoken, hheld]
        intro hasks
        obtain ⟨r, l', fs', hwork, hstack'⟩ := Activity.of_deal_asks hasks
        cases hwork
        cases above with
        | nil => exact hne r rfl rfl
        | cons f above =>
          cases (List.cons_eq_cons.1 (hstack.symm.trans hstack')).1
          exact (habove _ (.head _)).1 rfl
    · obtain ⟨r, rfl, rfl⟩ : ∃ r, s = .handing r ∧ above = [] := by simpa using hne
      obtain ⟨hframes, hstage, hlink, hshows⟩ := ht.asks_release hstack (hinner.trans hunder) hheld
      cases (hunder : inner = link)
      refine ⟨.ending r, _, ⟨.handing r, inner, Frame.whileUsing release v⟩, .ends r, hframes, ?_, ?_⟩
      · rw [hstage, hlink]
        exact .asks v r
      · rw [hshows]
        exact .here
  | asks v r => exact .of_asked ht hstack hinner hbr hrelease hc
  | @releases s inner above r hunder hs habove =>
    by_cases hne : ∀ r, s = .handing r → above ≠ []
    · obtain ⟨above', rfl, hunder', hstage, habove', hcomes⟩ :=
        ht.within (.attempt :: .openGate g :: Frame.closing g link r) hstack hs habove hg htoken hne
      refine ⟨_, t.frames ++ above' ++ .attempt :: .openGate g :: Frame.closing g link r, _, .same _, by simp,
        .releases r ?_ hstage habove', hinner ▸ hcomes _⟩
      rw [hunder', hinner, hunder]
    · obtain ⟨released, rfl, rfl⟩ : ∃ r, s = .handing r ∧ above = [] := by simpa using hne
      subst hunder
      exact .of_released ht hstack hinner
  | closes r released hs h =>
    obtain rfl | rfl := hs
    · exact .of_looking ht hstack (hinner ▸ .closes r released (.inr rfl) h)
    · exact .of_closes ht hstack hc (hinner ▸ h)
  | ends r released hs =>
    obtain rfl | rfl := hs
    · exact .of_looking ht hstack (hinner ▸ .ends r released (.inr rfl))
    · exact absurd rfl (hgoing _ rfl)
  | fails e hs =>
    obtain rfl | rfl := hs
    · exact .of_looking ht hstack (hinner ▸ .fails e (.inr rfl))
    · exact absurd rfl (hgoing _ rfl)

end Follows

end CancelableEffects
