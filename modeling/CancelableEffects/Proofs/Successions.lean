import CancelableEffects.Proofs.Nests

/-!
# Successions — tokens are run one after the other, and their failures composed

* `Stroke`, `Stroke.inOrder`: a token begins or has ended; tokens each of which begins when the last one has
  ended.
* `Stroke.made`: the strokes that a loop has made with the tokens of a list above its own stack.
* `Result.failure`: the first failure, in which the later ones are suppressed.
* `Session.Succession`: how far a loop has come with its tokens.
* **`Session.Succession.next`**: it goes on step by step, whatever is cancelled meanwhile.
* **`Session.tokens_run_in_turn`**: every token is run once, in order, and the first failure is raised.
-/

namespace CancelableEffects

/-! ## Failures in order -/

namespace Result

theorem errors_append (rs rs' : List Result) : errors (rs ++ rs') = errors rs ++ errors rs' :=
  List.filterMap_append

/-- The first failure among the results, in which the later ones are suppressed in order. -/
def failure (rs : List Result) : Option Error :=
  match errors rs with
  | [] => none
  | e :: es => some { e with suppressed := e.suppressed ++ es }

/-- One more result is collected. -/
theorem failure_append (rs : List Result) (r : Result) (σ : Store) :
    (σ.collect (failure rs) r).2 = failure (rs ++ [r]) := by
  rw [failure, failure, errors_append]
  cases r with
  | ok v => cases errors rs <;> simp [Store.collect, errors]
  | error later =>
    cases errors rs with
    | nil =>
      obtain ⟨cause, suppressed⟩ := later
      simp [Store.collect, errors]
    | cons e es => simp [Store.collect, errors, Error.suppress]

/-- All succeed, or the first failure is raised: those before it succeeded, and the failures after it are
suppressed in order. -/
theorem composed_cases (rs : List Result) :
    (∀ r ∈ rs, r.isOk = true) ∧ composed (.ok .unit) (errors rs) = .ok .unit ∨
      ∃ before e later, rs = before ++ .error e :: later ∧ (∀ r ∈ before, r.isOk = true) ∧
        composed (.ok .unit) (errors rs) = .error { e with suppressed := e.suppressed ++ errors later } := by
  induction rs with
  | nil => exact .inl ⟨nofun, rfl⟩
  | cons r rs ih =>
    cases r with
    | error e => exact .inr ⟨[], e, rs, rfl, nofun, rfl⟩
    | ok v =>
      obtain ⟨hok, hunit⟩ | ⟨before, e, later, rfl, hok, herror⟩ := ih
      · exact .inl ⟨List.forall_mem_cons.2 ⟨rfl, hok⟩, hunit⟩
      · exact .inr ⟨.ok v :: before, e, later, rfl, List.forall_mem_cons.2 ⟨rfl, hok⟩, herror⟩

end Result

/-- When no token is left, the first failure is raised. -/
theorem Store.sweep_nil_stage (σ : Store) (of link : Link) (below : List Frame) (rs : List Result) :
    (σ.sweep of (Result.failure rs) link below []).stage =
      .looking (.result (Result.composed (.ok .unit) (Result.errors rs))) := by
  unfold Result.failure Result.composed
  cases Result.errors rs <;> rfl

/-- The loop `l₀` while it runs the token `t`, with the frames `above` for this. -/
def Loop.sweeping (l₀ : Loop) (of : Link) (t : Token) (rest : List Token) (first : Option Error)
    (above : List Frame) : Loop :=
  l₀.below none (above ++ [.sweep of t rest first, .restore l₀.link])

section Sweeping

variable {l₀ l : Loop} {of : Link} {t : Token} {rest : List Token} {first : Option Error} {above : List Frame}

theorem Loop.sweeping_stack : (l₀.sweeping of t rest first above).stack =
    above ++ .sweep of t rest first :: .restore l₀.link :: l₀.stack :=
  List.append_assoc ..

/-- The frames tell that a loop runs the token. -/
theorem Loop.eq_sweeping (hid : l.id = l₀.id) (hlink : l.link = none) (hsink : l.sink = l₀.sink)
    (hstack : l.stack = above ++ .sweep of t rest first :: .restore l₀.link :: l₀.stack) :
    l = l₀.sweeping of t rest first above := by
  rw [← Loop.sweeping_stack] at hstack
  obtain ⟨e, link, stack, k⟩ := l
  subst hid hlink hstack hsink
  rfl

end Sweeping

/-! ## Strokes -/

/-- What happens to a token that is run: it begins, and it ends with a result. -/
inductive Stroke where
  | begins (t : Token)
  | ends (t : Token) (r : Result)

namespace Stroke

/-- The strokes of tokens that end with these results, each of which begins when the last one has ended. -/
def inOrder : List (Token × Result) → List Stroke
  | [] => []
  | (t, r) :: done => begins t :: ends t r :: inOrder done

theorem inOrder_append (done : List (Token × Result)) (t : Token) (r : Result) :
    inOrder (done ++ [(t, r)]) = inOrder done ++ [begins t, ends t r] := by
  induction done with
  | nil => rfl
  | cons x done ih => simp [inOrder, ih]

end Stroke

/-- The strokes of the call with the tokens that the execution of `l₀` runs right above the stack of `l₀`. -/
def Activity.strokes (l₀ : Loop) (σ : Store) : Activity → List Stroke
  | .work (.looking (.sweep _ (t :: _))) l =>
    if l.id = l₀.id ∧ l.stack.length = l₀.stack.length ∧ σ.isCancelled l.link = false then [.begins t] else []
  | .work (.handing r) ⟨e, _, .sweep _ t rest _ :: .restore _ :: below, _⟩ =>
    if e = l₀.id ∧ below.length = l₀.stack.length then .ends t r :: (rest.head?.map .begins).toList else []
  | _ => []

/-- The strokes of the moment. -/
def Moment.strokes (l₀ : Loop) (m : Moment) : List Stroke :=
  (m.call.map (Activity.strokes l₀ m.before)).getD []

theorem Moment.strokes_of_call {l₀ : Loop} {m : Moment} {a : Activity} (h : m.call = some a) :
    m.strokes l₀ = a.strokes l₀ m.before := by
  rw [strokes, h]
  rfl

/-- The strokes that were made at these moments, the latest of which comes first. -/
def Stroke.made (l₀ : Loop) : List Moment → List Stroke
  | [] => []
  | m :: ms => made l₀ ms ++ m.strokes l₀

section Strokes

variable {l₀ l : Loop} {σ : Store} {s : Stage}

/-- Another loop makes none, and neither does one that comes to a boundary. -/
theorem Activity.strokes_eq_nil {a : Activity}
    (h : ∀ s l, a = .work s l → l.id = l₀.id → ∃ b, s = .leaving b) : a.strokes l₀ σ = [] := by
  unfold strokes
  split
  · refine if_neg fun hsame => ?_
    obtain ⟨b, hb⟩ := h _ _ rfl hsame.1
    cases hb
  · refine if_neg fun hsame => ?_
    obtain ⟨b, hb⟩ := h _ _ rfl hsame.1
    cases hb
  · rfl

/-- While a token is run, the loop makes none, until it hands the result of the token to what is left. -/
theorem Activity.strokes_sweeping {of : Link} {t : Token} {rest : List Token} {first : Option Error}
    {above : List Frame} (hs : ∀ r, s = .handing r → above ≠ []) :
    (Activity.work s (l₀.sweeping of t rest first above)).strokes l₀ σ = [] := by
  have hlength : (l₀.sweeping of t rest first above).stack.length = above.length + (l₀.stack.length + 2) := by
    rw [Loop.sweeping_stack, List.length_append, List.length_cons, List.length_cons]
  unfold strokes
  split
  · rename_i heq
    cases heq
    refine if_neg fun hsame => ?_
    have := hsame.2.1
    omega
  · rename_i heq
    injection heq with hr hl
    refine if_neg fun hsame => ?_
    rw [hl] at hlength
    refine hs _ hr (List.eq_nil_of_length_eq_zero ?_)
    have := hsame.2
    simp only [List.length_cons] at hlength
    omega
  · rfl

end Strokes

namespace Session

variable {cs₀ cs : List Choice} {c : Choice} {m : Moment} {place : Nat} {of : Link} {ts : List Token}
  {l₀ l : Loop} {s : Stage} {done : List (Token × Result)} {strokes : List Stroke}

/-- A moment at which the loop takes no turn has no stroke. -/
theorem strokes_of_rests (hl : (after cs).Has s l) (hid : l.id = l₀.id) (hm : Made cs c m)
    (hrests : ∀ place, c = .call place → (after cs).calls[place]? = some (.work s l) → ∃ b, s = .leaving b) :
    m.strokes l₀ = [] := by
  obtain ⟨i, -, hnone, -⟩ | ⟨place, a, hc, ha, hsome, -⟩ := hm.how
  · rw [Moment.strokes, hnone]
    rfl
  · rw [Moment.strokes_of_call hsome]
    refine Activity.strokes_eq_nil fun s' l' hwork hid' => ?_
    subst hwork
    obtain ⟨rfl, rfl⟩ := has_unique hl (.inl (List.mem_of_getElem? ha)) (hid'.trans hid.symm)
    exact hrests place hc ha

/-! ## How far a loop has come -/

/-- How far the loop `l₀` has come with the tokens `ts`, when those that are `done` have ended with their
results, and with what strokes. -/
inductive Succession (of : Link) (ts : List Token) (l₀ : Loop) (done : List (Token × Result)) (S : Session) :
    List Stroke → Prop
  /-- It runs the next one. -/
  | runs {t : Token} {rest : List Token} {s : Stage} {above : List Frame} (hts : ts = done.map Prod.fst ++ t :: rest)
    (hl : S.Has s (l₀.sweeping of t rest (Result.failure (done.map Prod.snd)) above)) :
    Succession of ts l₀ done S (Stroke.inOrder done ++ [.begins t])
  /-- All have ended, and it is about to leave with what they came to. -/
  | ends {s : Stage} (hts : ts = done.map Prod.fst)
    (hs : s.Hands (Result.composed (.ok .unit) (Result.errors (done.map Prod.snd))))
    (hl : S.Has s (l₀.below none [.restore l₀.link])) : Succession of ts l₀ done S (Stroke.inOrder done)

/-- The result of the last token comes, and the next one begins, or that was the last one. -/
theorem Succession.of_handing {t : Token} {rest : List Token} {r : Result}
    (hcall : (after cs).calls[place]? = some (.work (.handing r)
      (l₀.sweeping of t rest (Result.failure (done.map Prod.snd)) [])))
    (hts : ts = done.map Prod.fst ++ t :: rest) (hm : Made cs (.call place) m) :
    (after (.call place :: cs)).Succession of ts l₀ (done ++ [(t, r)])
      (Stroke.inOrder done ++ [.begins t] ++ m.strokes l₀) := by
  have hwork := work_of_takes hcall (.handing r _ _ rfl)
  have hstrokes : m.strokes l₀ = .ends t r :: (rest.head?.map .begins).toList := by
    rw [Moment.strokes_of_call (hm.of_call hcall).1]
    exact if_pos ⟨rfl, rfl⟩
  have hfailure : ∀ σ : Store, (σ.collect (Result.failure (done.map Prod.snd)) r).2 =
      Result.failure ((done ++ [(t, r)]).map Prod.snd) := fun σ => by
    rw [Result.failure_append, List.map_append]
    rfl
  rw [hstrokes, List.append_assoc]
  cases rest with
  | nil =>
    have hends : Stroke.inOrder done ++ ([.begins t] ++ [.ends t r]) = Stroke.inOrder (done ++ [(t, r)]) :=
      (Stroke.inOrder_append done t r).symm
    change (after _).Succession of ts l₀ _ (Stroke.inOrder done ++ ([.begins t] ++ [.ends t r]))
    rw [hends]
    refine .ends (by rw [hts, List.map_append]; rfl) (.inl rfl) (.inl ?_)
    rw [← Store.sweep_nil_stage (after cs).store of none [], ← hfailure (after cs).store]
    exact hwork
  | cons t' rest =>
    have hends : Stroke.inOrder done ++ ([.begins t] ++ [.ends t r, .begins t']) =
        Stroke.inOrder (done ++ [(t, r)]) ++ [.begins t'] := by
      rw [Stroke.inOrder_append]
      simp
    change (after _).Succession of ts l₀ _ (Stroke.inOrder done ++ ([.begins t] ++ [.ends t r, .begins t']))
    rw [hends]
    have hlater : (after (.call place :: cs)).Has (.looking (.token t'))
        (l₀.sweeping of t' rest (Result.failure ((done ++ [(t, r)]).map Prod.snd)) []) := by
      rw [← hfailure (after cs).store]
      exact .inl hwork
    exact .runs (by rw [hts, List.map_append, List.append_assoc]; rfl) hlater

/-- A loop that runs a token goes on with it, or hands its result to those that are left. -/
theorem Succession.next_of_runs {t : Token} {rest : List Token} {above : List Frame}
    (hts : ts = done.map Prod.fst ++ t :: rest)
    (hl : (after cs).Has s (l₀.sweeping of t rest (Result.failure (done.map Prod.snd)) above))
    (hm : Made cs c m) :
    ∃ done', (after (c :: cs)).Succession of ts l₀ done' (Stroke.inOrder done ++ [.begins t] ++ m.strokes l₀) := by
  have hstill : ∀ {s' above'}, m.strokes l₀ = [] →
      (after (c :: cs)).Has s' (l₀.sweeping of t rest (Result.failure (done.map Prod.snd)) above') →
        ∃ done', (after (c :: cs)).Succession of ts l₀ done' (Stroke.inOrder done ++ [.begins t] ++ m.strokes l₀) :=
    fun hnone h => ⟨done, by rw [hnone, List.append_nil]; exact .runs hts h⟩
  obtain ⟨hstays, -, hrests⟩ | ⟨b, r, rfl, -, hgone⟩ | ⟨place, rfl, hcall, hleaving⟩ := fares hl hm
  · exact hstill (strokes_of_rests hl rfl hm hrests) hstays
  · exact hstill (strokes_of_rests hl rfl hm fun _ _ _ => ⟨b, rfl⟩) hgone
  obtain ⟨n, -, hcancelled, -⟩ | ⟨r, -, hstack, -⟩ | ⟨turn, fs, ht⟩ | ⟨b, rfl⟩ :=
    (l₀.sweeping of t rest (Result.failure (done.map Prod.snd)) above).step_takes s (after cs).store
  · cases hcancelled
  · simp [Loop.sweeping_stack] at hstack
  · by_cases hends : ∃ r, s = .handing r ∧ above = []
    · obtain ⟨r, rfl, rfl⟩ := hends
      exact ⟨_, .of_handing hcall hts hm⟩
    · have hwork := work_of_takes hcall ht
      obtain ⟨above', habove⟩ | ⟨r, hr, habove, -⟩ := ht.keeps Loop.sweeping_stack
      · have hlink := (fits_of_has (.inl hwork)).link_eq_none
          (habove ▸ List.mem_append_right above' (.tail _ (.head _)))
        have hloop : turn.loop _ fs = l₀.sweeping of t rest _ above' := Loop.eq_sweeping rfl hlink rfl habove
        refine hstill ?_ (.inl (hloop ▸ hwork))
        rw [Moment.strokes_of_call (hm.of_call hcall).1]
        exact Activity.strokes_sweeping fun r hr habove => hends ⟨r, hr, habove⟩
      · exact absurd ⟨r, hr, habove⟩ hends
  · exact absurd rfl (hleaving b)

/-- A loop whose tokens have all ended leaves with what they came to. -/
theorem Succession.next_of_ends {r : Result} (hts : ts = done.map Prod.fst)
    (hr : r = Result.composed (.ok .unit) (Result.errors (done.map Prod.snd))) (hs : s.Hands r)
    (hl : (after cs).Has s (l₀.below none [.restore l₀.link])) (hm : Made cs c m) :
    m.strokes l₀ = [] ∧ ((after (c :: cs)).Succession of ts l₀ done (Stroke.inOrder done) ∨
      (after (c :: cs)).Has (.looking (.result r)) l₀) := by
  subst hr
  obtain ⟨hstays, -, hrests⟩ | ⟨b, r, rfl, -, -⟩ | ⟨place, rfl, hcall, -⟩ := fares hl hm
  · exact ⟨strokes_of_rests hl rfl hm hrests, .inl (.ends hts hs hstays)⟩
  · obtain hs | hs := hs <;> cases hs
  rw [Moment.strokes_of_call (hm.of_call hcall).1]
  obtain rfl | rfl := hs
  · exact ⟨rfl, .inl (.ends hts (.inr rfl) (.inl (work_of_takes hcall (.looking (.result _) rfl))))⟩
  · exact ⟨rfl, .inr (.inl (work_of_takes hcall (.handing _ _ _ rfl)))⟩

/-- **The tokens are run one after the other, step by step**, until all have ended and the loop leaves. -/
theorem Succession.next (h : (after cs).Succession of ts l₀ done strokes) (hm : Made cs c m) :
    (∃ done', (after (c :: cs)).Succession of ts l₀ done' (strokes ++ m.strokes l₀)) ∨
      ts = done.map Prod.fst ∧ strokes = Stroke.inOrder done ∧ m.strokes l₀ = [] ∧
        (after (c :: cs)).Has (.looking (.result (Result.composed (.ok .unit)
          (Result.errors (done.map Prod.snd))))) l₀ := by
  cases h with
  | runs hts hl => exact .inl (next_of_runs hts hl hm)
  | ends hts hs hl =>
    obtain ⟨hnone, hends | hgone⟩ := next_of_ends hts rfl hs hl hm
    · exact .inl ⟨done, by rwa [hnone, List.append_nil]⟩
    · exact .inr ⟨hts, rfl, hnone, hgone⟩

/-- A token that begins is what the loop looks at next, and cancellation is disabled for it. -/
theorem begins_of_made {t : Token} (hm : Made cs c m) (h : .begins t ∈ m.strokes l₀) :
    ∃ l, .work (.looking (.token t)) l ∈ m.next.2 ∧ l.id = l₀.id ∧ l.link = none := by
  obtain ⟨i, -, hnone, -⟩ | ⟨place, a, rfl, ha, hsome, hnext⟩ := hm.how
  · rw [Moment.strokes, hnone] at h
    cases h
  rw [Moment.strokes_of_call hsome] at h
  rw [hnext]
  unfold Activity.strokes at h
  split at h
  · split_ifs at h with hsame
    · obtain rfl : t = _ := by simpa using h
      rw [Activity.step, (Loop.Takes.looking _ hsame.2.2).step]
      exact ⟨_, List.mem_append_right _ (.head _), hsame.1, rfl⟩
    · cases h
  · rename_i r e link of' t' rest first enclosing below k
    split_ifs at h with hsame
    · obtain ⟨rest, rfl⟩ : ∃ rest', rest = t :: rest' := by
        cases rest <;> simp_all
      have hlink := (fits_of_has (.inl (List.mem_of_getElem? ha))).link_eq_none (.tail _ (.head _))
      rw [Activity.step, (Loop.Takes.handing r _ _ rfl).step]
      exact ⟨_, List.mem_append_right _ (.head _), hsame.1, hlink⟩
    · cases h
  · cases h

/-- The first of the tokens begins, or there was none. -/
theorem succession_of_looking (hcall : (after cs).calls[place]? = some (.work (.looking (.sweep of ts)) l₀))
    (hgoes : (after cs).store.isCancelled l₀.link = false) (hm : Made cs (.call place) m) :
    (after (.call place :: cs)).Succession of ts l₀ [] (m.strokes l₀) := by
  have hwork := work_of_takes hcall (.looking (.sweep of ts) hgoes)
  rw [Moment.strokes_of_call (hm.of_call hcall).1, hm.before]
  cases ts with
  | nil => exact .ends rfl (.inl rfl) (.inl hwork)
  | cons t rest =>
    have hstrokes : (Activity.work (.looking (.sweep of (t :: rest))) l₀).strokes l₀ (after cs).store = [.begins t] :=
      if_pos ⟨rfl, rfl, hgoes⟩
    have hlater : (after (.call place :: cs)).Has (.looking (.token t)) (l₀.sweeping of t rest none []) :=
      .inl hwork
    rw [hstrokes]
    exact .runs rfl hlater

section Run

variable {cs₀ : List Choice}

/-- The strokes up to now are those of a succession, which goes on or was over at an earlier moment. -/
theorem succession_later (hcall : (after cs₀).calls[place]? = some (.work (.looking (.sweep of ts)) l₀))
    (hgoes : (after cs₀).store.isCancelled l₀.link = false) (cs : List Choice) :
    ∃ cs₂ cs₁ done later, cs = cs₂ ++ cs₁ ∧
      (after (cs₁ ++ .call place :: cs₀)).past = later ++ (after cs₀).past ∧
      (cs₂ = [] ∧ (after (cs₁ ++ .call place :: cs₀)).Succession of ts l₀ done (Stroke.made l₀ later) ∨
        ts = done.map Prod.fst ∧ Stroke.made l₀ later = Stroke.inOrder done ∧
          (after (cs₁ ++ .call place :: cs₀)).Has (.looking (.result (Result.composed (.ok .unit)
            (Result.errors (done.map Prod.snd))))) l₀) := by
  induction cs with
  | nil =>
    have hm := made_call hcall
    exact ⟨[], [], [], [_], rfl, hm.past, .inl ⟨rfl, succession_of_looking hcall hgoes hm⟩⟩
  | cons c cs ih =>
    obtain ⟨cs₂, cs₁, done, later, rfl, hpast, ⟨rfl, h⟩ | hended⟩ := ih
    · obtain hsame | ⟨m, hm⟩ := made_or (cs₁ ++ .call place :: cs₀) c
      · refine ⟨[], c :: cs₁, done, later, rfl, ?_, .inl ⟨rfl, ?_⟩⟩
        · exact hsame.symm ▸ hpast
        · exact hsame.symm ▸ h
      · have hpast' : (after (c :: cs₁ ++ .call place :: cs₀)).past = (m :: later) ++ (after cs₀).past := by
          rw [List.cons_append, hm.past, hpast, List.cons_append]
        obtain ⟨done', h'⟩ | ⟨hts, hstrokes, hnone, hgone⟩ := h.next hm
        · exact ⟨[], c :: cs₁, done', m :: later, rfl, hpast', .inl ⟨rfl, h'⟩⟩
        · refine ⟨[], c :: cs₁, done, m :: later, rfl, hpast', .inr ⟨hts, ?_, hgone⟩⟩
          rw [Stroke.made, hnone, List.append_nil, hstrokes]
    · exact ⟨c :: cs₂, cs₁, done, later, rfl, hpast, .inr hended⟩

/-- **The tokens of a cancellation are run one after the other, and their failures composed.** A loop begins to
run the tokens `ts`, and whatever is chosen from then on: each token begins when the one before it has ended, and
none is run twice or left out. Until all have ended the loop is at one of them, under no connection, so that
nothing stops it. When all have ended, it leaves with the value of the cancellation if all succeeded, and else
with the first failure, to the suppressed errors of which those of the later ones were added, in order. -/
theorem tokens_run_in_turn (hcall : (after cs₀).calls[place]? = some (.work (.looking (.sweep of ts)) l₀))
    (hgoes : (after cs₀).store.isCancelled l₀.link = false) (cs : List Choice) :
    ∃ cs₂ cs₁ done later, cs = cs₂ ++ cs₁ ∧
      (after (cs₁ ++ .call place :: cs₀)).past = later ++ (after cs₀).past ∧
      (∀ m ∈ later, ∀ t, .begins t ∈ m.strokes l₀ →
        ∃ l, .work (.looking (.token t)) l ∈ m.next.2 ∧ l.id = l₀.id ∧ l.link = none) ∧
      ((cs₂ = [] ∧ ∃ t rest s above, ts = done.map Prod.fst ++ t :: rest ∧
          Stroke.made l₀ later = Stroke.inOrder done ++ [.begins t] ∧
            (after (cs₁ ++ .call place :: cs₀)).Has s
              (l₀.sweeping of t rest (Result.failure (done.map Prod.snd)) above)) ∨
        ts = done.map Prod.fst ∧ Stroke.made l₀ later = Stroke.inOrder done ∧
          ∃ r, ((∀ x ∈ done.map Prod.snd, x.isOk = true) ∧ r = .ok .unit ∨
              ∃ before e after, done.map Prod.snd = before ++ .error e :: after ∧
                (∀ x ∈ before, x.isOk = true) ∧
                  r = .error { e with suppressed := e.suppressed ++ Result.errors after }) ∧
            (cs₂ = [] ∧ (∃ s, s.Hands r ∧
                .work s (l₀.below none [.restore l₀.link]) ∈ (after (cs₁ ++ .call place :: cs₀)).calls) ∨
              (after (cs₁ ++ .call place :: cs₀)).Has (.looking (.result r)) l₀)) := by
  obtain ⟨cs₂, cs₁, done, later, hcs, hpast, h⟩ := succession_later hcall hgoes cs
  have hbegins : ∀ m ∈ later, ∀ t, .begins t ∈ m.strokes l₀ →
      ∃ l, .work (.looking (.token t)) l ∈ m.next.2 ∧ l.id = l₀.id ∧ l.link = none := fun m hm t ht => by
    obtain ⟨earlier, before, rfl⟩ := List.append_of_mem hm
    rw [List.append_assoc] at hpast
    obtain ⟨_, _, _, -, -, hmade⟩ := exists_made hpast
    exact begins_of_made hmade ht
  obtain hcases := Result.composed_cases (done.map Prod.snd)
  refine ⟨cs₂, cs₁, done, later, hcs, hpast, hbegins, ?_⟩
  obtain ⟨rfl, h⟩ | ⟨hts, hstrokes, hgone⟩ := h
  · generalize hstrokes : Stroke.made l₀ later = strokes at h
    cases h with
    | runs hts hl => exact .inl ⟨rfl, _, _, _, _, hts, rfl, hl⟩
    | ends hts hs hl =>
      refine .inr ⟨hts, rfl, _, hcases, .inl ⟨rfl, _, hs, ?_⟩⟩
      obtain hl | ⟨b, rfl, -⟩ := hl
      · exact hl
      · obtain hs | hs := hs <;> cases hs
  · exact .inr ⟨hts, hstrokes, _, hcases, .inr hgone⟩

end Run

/-- Somebody pushes a token to the first connection. -/
def pushing (p : Prog) : Choice := .input (.move (.push (some 0) p (.ret ())))

/-- A connection gets three tokens: the newest fails, the next waits for the first callback, and the last panics.
Then it is cancelled by a run with a connection of its own. -/
def cancelsThree : List Choice :=
  List.replicate 3 (.call 0) ++ .input (.run (.cancel (some 0)) none true) :: pushing (.raise (.msg "first")) ::
    pushing (.connected fun _ _ => .ret ()) :: pushing (.delay (.panic "third")) :: [.input .connection]

/-- The tokens are run until one waits, the run is cancelled itself, and the callback comes. -/
def cancelledMeanwhile : List Choice :=
  List.replicate 10 (.call 0) ++ .input (.move (.answer 0 (.ok .unit) (.ret ()))) ::
    (List.replicate 9 (.call 0) ++ .input (.run (.cancel (some 1)) none false) :: List.replicate 7 (.call 0))

set_option maxRecDepth 1024 in
/-- The three tokens are run in turn, though the run that cancels is cancelled meanwhile. -/
theorem three_run_in_turn :
    (after cancelsThree).calls[0]? = some (.work (.looking (.sweep (some 0)
        [.cleanup (.program 2), .cleanup (.program 1), .cleanup (.program 0)])) ⟨0, some 1, [], .observer 0⟩) ∧
      (after cancelsThree).store.isCancelled (some 1) = false ∧
      (after (cancelledMeanwhile ++ .call 0 :: cancelsThree)).store.isCancelled (some 1) = true ∧
      (after (cancelledMeanwhile ++ .call 0 :: cancelsThree)).Has
        (.looking (.result (.error ((Error.msg "first").suppress (.panic "third"))))) ⟨0, some 1, [], .observer 0⟩ ∧
      ∃ cs₁ done later, (after (cs₁ ++ .call 0 :: cancelsThree)).past = later ++ (after cancelsThree).past ∧
        [Token.cleanup (.program 2), .cleanup (.program 1), .cleanup (.program 0)] = done.map Prod.fst ∧
          Stroke.made ⟨0, some 1, [], .observer 0⟩ later = Stroke.inOrder done := by
  have hcall : (after cancelsThree).calls[0]? = some (.work (.looking (.sweep (some 0)
      [.cleanup (.program 2), .cleanup (.program 1), .cleanup (.program 0)])) ⟨0, some 1, [], .observer 0⟩) := rfl
  have hended : (after (cancelledMeanwhile ++ .call 0 :: cancelsThree)).Has
      (.looking (.result (.error ((Error.msg "first").suppress (.panic "third"))))) ⟨0, some 1, [], .observer 0⟩ :=
    .inl (.head _)
  refine ⟨hcall, rfl, rfl, hended, ?_⟩
  obtain ⟨cs₂, cs₁, done, later, hcs, hpast, -, ⟨rfl, t, rest, s, above, -, -, hruns⟩ | ⟨hts, hstrokes, -⟩⟩ :=
    tokens_run_in_turn hcall rfl cancelledMeanwhile
  · obtain rfl := hcs
    obtain ⟨-, hloop⟩ := has_unique hended hruns rfl
    exact absurd (congrArg Loop.stack hloop) (by simp [Loop.sweeping_stack])
  · exact ⟨cs₁, done, later, hpast, hts, hstrokes⟩

end Session

end CancelableEffects
