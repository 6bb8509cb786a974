import Mathlib.Data.List.Basic
import CancelableEffects.Proofs.Resources

/-!
# Tokens — the token of a bracket is on its connection, or on its way, or was lost

* `Weight.token`: counts the tokens of a bracket that calls and waiting loops carry.
* `Store.onHand`: counts those on a connection.
* **`Activity.step_tokens`**: a step moves the token of a bracket or loses it, unless it opens the
  bracket.
* **`Session.token_ledger`**: the token of a bracket that was opened under a connection is still there,
  or was used up or lost, once.
-/

namespace CancelableEffects

/-- How often the token of the bracket is among the tokens. -/
def Token.count (g : BracketId) (ts : List Token) : Nat := (ts.filterMap Token.bracket?).count g

@[simp] theorem Token.count_nil (g : BracketId) : Token.count g [] = 0 := rfl

theorem Token.count_cons (g : BracketId) (t : Token) (ts : List Token) :
    Token.count g (t :: ts) = Token.count g [t] + Token.count g ts := by
  simp only [Token.count, List.filterMap_cons, List.filterMap_nil]
  cases t.bracket? with
  | none => simp
  | some g' => simp [List.count_cons, Nat.add_comm]

theorem Token.count_append (g : BracketId) (ts us : List Token) :
    Token.count g (ts ++ us) = Token.count g ts + Token.count g us := by
  rw [Token.count, List.filterMap_append, List.count_append]
  rfl

theorem Token.count_pos {g : BracketId} {ts : List Token} (h : .bracket g ∈ ts) :
    0 < Token.count g ts := by
  rw [Token.count, List.count_pos_iff]
  exact List.mem_filterMap.2 ⟨_, h, rfl⟩

/-- The only token of a bracket stands at one place. -/
theorem Token.eq_of_count_le {g : BracketId} {pre post done rest : List Token}
    (h : pre ++ .bracket g :: post = done ++ .bracket g :: rest)
    (hcount : Token.count g (pre ++ .bracket g :: post) ≤ 1) : done = pre := by
  have hone : Token.count g [.bracket g] = 1 := by simp [Token.count, Token.bracket?]
  rw [Token.count_append, Token.count_cons, hone] at hcount
  have hpre : .bracket g ∉ pre := fun hm => by
    have := Token.count_pos hm
    omega
  have hpost : .bracket g ∉ post := fun hm => by
    have := Token.count_pos hm
    omega
  exact ((List.append_cons_inj_of_notMem hpre hpost).1 h).1.symm

theorem Token.count_eq_zero {g : BracketId} {ts : List Token} (h : ∀ t ∈ ts, t.bracket? = none) :
    Token.count g ts = 0 := by
  rw [Token.count, List.filterMap_eq_nil_iff.2 h]
  rfl

/-- Counts the tokens of the bracket that are carried. -/
def Weight.token (g : BracketId) : Weight where
  node
    | .token t => Token.count g [t]
    | .sweep _ ts => Token.count g ts
    | _ => 0
  frame
    | .sweep _ _ ts _ => Token.count g ts
    | _ => 0
  sink _ := 0
  offer _ := 0

/-- How many tokens of the bracket are on the linked connection. -/
def Store.onHand (link : Link) (g : BracketId) (σ : Store) : Nat :=
  match link with
  | some c => (σ.armed c).count g
  | none => 0

section Steps

variable {σ σ' : Store} {g : BracketId} {link : Link}

theorem Weight.token_light : (Weight.token g).Light g where
  node n hn := by
    cases n with
    | token t =>
      have ht : t.bracket? = none := hn
      exact Token.count_eq_zero (by simpa using ht)
    | sweep of ts => exact Token.count_eq_zero hn.2
    | _ => rfl
  frame f hf := by
    cases f with
    | sweep of t ts first => exact Token.count_eq_zero hf.2
    | _ => rfl
  sink _ _ := rfl
  offer _ _ := rfl

theorem Store.onHand_of_armed (h : ∀ c, σ'.armed c = σ.armed c) :
    σ'.onHand link g = σ.onHand link g := by
  cases link with
  | none => rfl
  | some c => rw [Store.onHand, h c, Store.onHand]

/-- A token that is taken from a connection was on hand. -/
theorem Store.onHand_popToken (hlink : ∀ c, g ∈ σ.armed c → link = some c) (from' : Link) :
    Token.count g (σ.popToken from').2.toList + (σ.popToken from').1.onHand link g =
      σ.onHand link g := by
  have hcount : ∀ t : Option Token, Token.count g t.toList =
      ((t.bind Token.bracket?).toList).count g := by
    rintro (_ | t)
    · rfl
    · simp only [Token.count, Option.toList_some, List.filterMap_cons, List.filterMap_nil,
        Option.bind_some]
      cases t.bracket? <;> rfl
  rw [hcount]
  cases from' with
  | none => exact Nat.zero_add _
  | some c =>
    have harmed := σ.armed_popToken (some c) c
    rw [if_pos rfl] at harmed
    by_cases hc : link = some c
    · subst hc
      simp only [Store.onHand]
      rw [harmed, List.count_append]
    · have hzero : ((σ.popToken (some c)).2.bind Token.bracket?).toList.count g = 0 := by
        rw [List.count_eq_zero]
        intro hm
        exact hc (hlink c (harmed ▸ List.mem_append_left _ hm))
      rw [hzero, Nat.zero_add]
      cases link with
      | none => rfl
      | some c' =>
        have h' := σ.armed_popToken (some c) c'
        rw [if_neg (by rintro ⟨⟩; exact hc rfl)] at h'
        simp only [Store.onHand]
        rw [h']
        rfl

theorem Store.onHand_dropToken_le (hlink : ∀ c, g ∈ σ.armed c → link = some c) (from' : Link) :
    (σ.dropToken from').onHand link g ≤ σ.onHand link g := by
  rw [← Store.onHand_popToken hlink from']
  exact Nat.le_add_left _ _

/-- The tokens that a cancellation takes were on hand. -/
theorem Store.onHand_cancel (hlink : ∀ c, g ∈ σ.armed c → link = some c) (of : Link) :
    Token.count g ((σ.cancel of).2.getD []) + (σ.cancel of).1.onHand link g ≤
      σ.onHand link g := by
  cases of with
  | none => exact Nat.le_of_eq (Nat.zero_add _)
  | some c =>
    have hafter : ∀ c', (σ.cancel (some c)).1.armed c' = _ := σ.armed_cancel (some c)
    have htaken : Token.count g ((σ.cancel (some c)).2.getD []) ≤ (σ.armed c).count g := by
      cases hts : (σ.cancel (some c)).2 with
      | none => exact Nat.zero_le _
      | some ts =>
        exact Nat.le_of_eq (by rw [Option.getD_some, Token.count, Store.armed_of_cancel hts])
    by_cases hc : link = some c
    · subst hc
      simp only [Store.onHand, hafter, if_true, List.count_nil]
      exact htaken
    · have hzero : (σ.armed c).count g = 0 := List.count_eq_zero.2 fun hm => hc (hlink c hm)
      have hsame : (σ.cancel (some c)).1.onHand link g = σ.onHand link g := by
        cases link with
        | none => rfl
        | some c' =>
          simp only [Store.onHand, hafter]
          rw [if_neg (by rintro ⟨⟩; exact hc rfl)]
      omega

/-! ## Steps -/

theorem Store.onHand_push_of_ne {g' : BracketId} (h : g' ≠ g) (link' : Link) :
    (σ.push link' (.bracket g')).1.onHand link g = σ.onHand link g := by
  cases link with
  | none => rfl
  | some c =>
    obtain hc | ⟨-, -, hc⟩ := σ.armed_push link' (.bracket g') c <;> simp only [Store.onHand] <;>
      rw [hc]
    exact List.count_cons_of_ne h

theorem Store.onHand_push_le (link' : Link) (t : Token) :
    (σ.push link' t).1.onHand link g ≤ σ.onHand link g + 1 := by
  cases link with
  | none => exact Nat.zero_le _
  | some c =>
    obtain hc | ⟨-, -, hc⟩ := σ.armed_push link' t c <;> simp only [Store.onHand] <;> rw [hc]
    · exact Nat.le_succ _
    · cases t.bracket? with
      | none => exact Nat.le_succ _
      | some g' =>
        simp only [Option.toList_some, List.singleton_append, List.count_cons]
        split <;> omega

/-- What a turn carries and leaves on hand. -/
theorem Weight.token_turn_of_plain {t : Turn} (ht : t.Plain σ) :
    (Weight.token g).turn t + t.store.onHand link g = σ.onHand link g := by
  rw [Weight.turn_eq_zero Weight.token_light ht fun _ => rfl,
    Store.onHand_of_armed ht.alike.armed, Nat.zero_add]

theorem Weight.token_sweep (of : Link) (first : Option Error) (link' : Link) (below : List Frame)
    (hb : (Weight.token g).frames below = 0) (ts : List Token) :
    (Weight.token g).turn (σ.sweep of first link' below ts) = Token.count g ts := by
  cases ts with
  | nil => exact (Nat.zero_add _).trans hb
  | cons t ts =>
    rw [Token.count_cons]
    change 0 + Token.count g [t] + (Weight.token g).frames (.sweep of t ts first :: below) = _
    rw [Weight.frames_cons, hb]
    simp [Weight.token]

theorem Node.step_tokens (m : Node) (e : ExecutionId) (link' : Link)
    (hlink : ∀ c, g ∈ σ.armed c → link = some c) (hd : m.deal g σ false ≠ .opens) :
    (Weight.token g).turn (m.step e link' σ) + (m.step e link' σ).store.onHand link g ≤
      (Weight.token g).node m + σ.onHand link g := by
  by_cases hm : m.Ordinary
  · rw [Weight.token_turn_of_plain (m.step_plain hm e σ)]
    exact Nat.le_add_left _ _
  cases m with
  | program p =>
    cases p with
    | bracket acquire use release =>
      have hg : σ.boundaries.size ≠ g := by
        rintro rfl
        exact hd (by simp [Node.deal])
      let σ₁ := (σ.newBoundary (.bracket { owner := e, link := link', release })).1
      have hcalls : (Weight.token g).calls (σ₁.push link' (.bracket σ.boundaries.size)).2 = 0 := by
        unfold Store.push
        split
        · simp [Weight.call, Weight.token, Token.count, Token.bracket?, hg]
        · rfl
      have hhand : (σ₁.push link' (.bracket σ.boundaries.size)).1.onHand link g =
          σ.onHand link g := Store.onHand_push_of_ne (σ := σ₁) hg link'
      change (Weight.token g).calls ((σ₁.push link' _).2 ++ [_]) + 0 + 0 +
        (σ₁.push link' (.bracket σ.boundaries.size)).1.onHand link g ≤ _
      rw [Weight.calls_append, hcalls, hhand]
      exact Nat.le_refl _
    | pop c =>
      have h := Store.onHand_popToken hlink c
      simp only [Node.step, Prog.step]
      generalize σ.popToken c = x at h
      obtain ⟨σ', _ | t⟩ := x
      · simpa [Weight.turn, Weight.stage, Weight.token] using Nat.le_of_eq h
      · simpa [Weight.turn, Weight.stage, Weight.token] using Nat.le_of_eq h
    | _ => exact absurd trivial hm
  | token t =>
    cases t with
    | bracket g' =>
      have hturn : (Weight.token g).turn (Token.begin (.bracket g') link' σ) = 0 := by
        change 0 + (Weight.token g).node (σ.takeRelease g' .cancelled).2 + 0 = 0
        simp only [Store.takeRelease]
        split <;> rfl
      simp only [Node.step]
      rw [hturn]
      exact Nat.add_le_add_right (Nat.zero_le _) _
    | connection c =>
      have h := Store.onHand_cancel hlink c
      simp only [Node.step, Token.begin]
      generalize σ.cancel c = x at h
      obtain ⟨σ', _ | ts⟩ := x
      · simpa [Weight.turn, Weight.stage, Weight.token] using Nat.le_add_left_of_le h
      · simpa [Weight.turn, Weight.stage, Weight.token] using Nat.le_add_left_of_le h
    | _ => exact absurd ⟨rfl, by simp⟩ hm
  | sweep of ts =>
    simp only [Node.step, Store.sweep_store]
    rw [Weight.token_sweep _ _ _ _ rfl]
    exact Nat.le_refl _
  | release g' v x =>
    simp only [Node.step]
    split <;> exact Nat.le_refl _
  | _ => exact absurd trivial hm

theorem Frame.resume_tokens (f : Frame) (r : Result) (link' : Link)
    (hlink : ∀ c, g ∈ σ.armed c → link = some c) :
    (Weight.token g).turn (f.resume r link' σ) + (f.resume r link' σ).store.onHand link g ≤
      (Weight.token g).frame f + σ.onHand link g := by
  by_cases hf : f.Ordinary
  · rw [Weight.token_turn_of_plain (Frame.resume_plain hf r σ)]
    exact Nat.le_add_left _ _
  cases f with
  | use g' f => cases r <;> exact Nat.le_refl _
  | release g' =>
    have hturn : (Weight.token g).turn ((Frame.release g').resume r link' σ) = 0 := by
      change 0 + (Weight.token g).node (σ.takeRelease g' (.ofResult r)).2 + 0 = 0
      simp only [Store.takeRelease]
      split <;> rfl
    rw [hturn]
    exact Nat.le_refl _
  | openGate g' =>
    cases r with
    | ok v =>
      have hcalls : (Weight.token g).calls (σ.openGate g').2 = 0 :=
        Weight.calls_eq_zero _ fun a ha =>
          Weight.call_eq_zero Weight.token_light (Store.plain_completeSteps _ _ σ a ha) fun _ => rfl
      change (Weight.token g).calls (σ.openGate g').2 + 0 + 0 + _ ≤ _
      rw [hcalls]
      exact Nat.le_refl _
    | error x => exact Nat.le_refl _
  | endBracket g' used =>
    cases r with
    | ok v => exact Nat.add_le_add_left (Store.onHand_dropToken_le hlink _) 0
    | error x => exact Nat.le_refl _
  | sweep of t ts first =>
    simp only [Frame.resume, Store.sweep_store]
    rw [Weight.token_sweep _ _ _ _ rfl]
    exact Nat.le_refl _
  | _ => exact absurd trivial hf

theorem Loop.step_tokens {s : Stage} {l : Loop} (hlink : ∀ c, g ∈ σ.armed c → link = some c)
    (hd : (Activity.work s l).deal g σ ≠ .opens)
    (hopen : ∀ b, s = .leaving b →
      σ.boundary? b = some .registering ∨ ∃ r, σ.boundary? b = some (.ready r)) :
    (Weight.token g).next (l.step s σ) + (l.step s σ).1.onHand link g ≤
      (Weight.token g).call (.work s l) + (Weight.token g).waiting σ + σ.onHand link g := by
  have hplain : ∀ t : Turn, t.Opens σ → t.Plain σ →
      (Weight.token g).next (t.on l) + (t.on l).1.onHand link g ≤
        0 + (Weight.token g).loop l + (Weight.token g).waiting σ + σ.onHand link g := by
    intro t hopens ht
    have h : _ + t.store.onHand link g = _ := Weight.token_turn_of_plain ht
    rw [Weight.next_on _ hopens]
    change _ + t.store.onHand link g ≤ _
    omega
  cases s with
  | looking m =>
    cases hc : σ.isCancelled l.link with
    | true =>
      rw [Loop.step_of_cancelled hc]
      simp only [Weight.next, Weight.calls_cons, Weight.calls_nil, Weight.call, Weight.loop]
      omega
    | false =>
      rw [Loop.step_of_not_cancelled hc, Weight.next_on _ (m.step_opens _ _ σ)]
      have hm : m.deal g σ false ≠ .opens := by
        rw [Activity.deal, hc] at hd
        exact hd
      have h := m.step_tokens l.id l.link hlink hm
      simp only [Weight.call, Weight.stage]
      change _ + (m.step l.id l.link σ).store.onHand link g ≤ _
      omega
  | handing r =>
    obtain ⟨e, link', _ | ⟨f, fs⟩, k⟩ := l
    · exact Nat.le_of_eq (by simp [Loop.step, Weight.next, Weight.call, Weight.stage, Weight.loop])
    · have h := f.resume_tokens r link' hlink
      change (Weight.token g).next (Turn.on _ ⟨e, link', fs, k⟩) +
        (f.resume r link' σ).store.onHand link g ≤ _
      rw [Weight.next_on _ (f.resume_opens r link' σ)]
      simp only [Weight.call, Weight.stage, Weight.loop, Weight.frames_cons]
      omega
  | delaying c => exact hplain _ (c.delaying_opens _ σ) (c.delaying_plain σ)
  | suspending c => exact hplain _ (c.suspending_opens _ σ) (c.suspending_plain σ)
  | mapping c => exact hplain _ (c.mapping_opens _ σ) (c.mapping_plain σ)
  | leaving b =>
    have h : (Weight.token g).next (σ.leave b l) =
        (Weight.token g).loop l + (Weight.token g).waiting σ :=
      Weight.leave _ (fun _ => rfl) (hopen b rfl)
    have hhand : (σ.leave b l).1.onHand link g = σ.onHand link g := by
      unfold Store.leave
      split <;> rfl
    change (Weight.token g).next (σ.leave b l) + (σ.leave b l).1.onHand link g ≤ _
    rw [h, hhand]
    simp [Weight.call, Weight.stage]

theorem Store.endAcquire_tokens (g' : BracketId) (r : Result)
    (hlink : ∀ c, g ∈ σ.armed c → link = some c) :
    (Weight.token g).calls (σ.endAcquire g' r).2 = 0 ∧
      (σ.endAcquire g' r).1.onHand link g ≤ σ.onHand link g := by
  cases hbr : σ.bracket? g' with
  | none =>
    rw [Store.endAcquire_of_none hbr]
    exact ⟨rfl, Nat.le_refl _⟩
  | some br =>
    cases r with
    | error x =>
      rw [Store.endAcquire_error hbr, Weight.calls_append]
      refine ⟨?_, Store.onHand_dropToken_le hlink br.link⟩
      exact congrArg (· + _) (Weight.calls_eq_zero _ fun a ha =>
        Weight.call_eq_zero Weight.token_light (Store.plain_completeSteps _ _ σ a ha) fun _ => rfl)
    | ok v =>
      cases hc : σ.isCancelled br.link with
      | true =>
        rw [Store.endAcquire_late hbr hc]
        exact ⟨rfl, Nat.le_refl _⟩
      | false =>
        rw [Store.endAcquire_held hbr hc]
        exact ⟨rfl, Nat.le_refl _⟩

/-- **A step moves the token of a bracket or loses it**, unless it opens the bracket. -/
theorem Activity.step_tokens {x : Activity} (hlink : ∀ c, g ∈ σ.armed c → link = some c)
    (hd : x.deal g σ ≠ .opens)
    (hopen : ∀ b l, x = .work (.leaving b) l →
      σ.boundary? b = some .registering ∨ ∃ r, σ.boundary? b = some (.ready r)) :
    (Weight.token g).next (x.step σ) + (x.step σ).1.onHand link g ≤
      (Weight.token g).call x + (Weight.token g).waiting σ + σ.onHand link g := by
  by_cases hord : x.Ordinary
  · rw [Weight.next_of_ordinary Weight.token_light hord fun _ => rfl]
    refine Nat.add_le_add_left ?_ _
    obtain ⟨σ', hdrops, hplain⟩ := Activity.step_plain hord σ
    rw [Store.onHand_of_armed hplain.alike.armed]
    obtain rfl | ⟨from', rfl⟩ := hdrops
    · exact Nat.le_refl _
    · exact Store.onHand_dropToken_le hlink from'
  cases x with
  | start m link' k =>
    refine Nat.le_of_eq ?_
    change (Weight.token g).calls [_] + (Weight.token g).waiting σ + σ.onHand link g = _
    simp [Weight.call, Weight.stage, Weight.loop]
  | work s l => exact Loop.step_tokens hlink hd fun b hb => hopen b l (by rw [hb])
  | deliver e k r =>
    cases k with
    | acquired g' =>
      obtain ⟨hcalls, hhand⟩ := Store.endAcquire_tokens g' r hlink
      have hwaiting : (Weight.token g).waiting (σ.endAcquire g' r).1 = (Weight.token g).waiting σ :=
        Weight.waiting_of_cells _ (σ.endAcquire_aside g' r).cells
      change (Weight.token g).calls (σ.endAcquire g' r).2 +
        (Weight.token g).waiting (σ.endAcquire g' r).1 + (σ.endAcquire g' r).1.onHand link g ≤ _
      rw [hcalls, hwaiting]
      exact Nat.add_le_add_left hhand _
    | lateRelease g' =>
      refine Nat.le_of_eq ?_
      change (Weight.token g).next ((Sink.lateRelease g').receive r σ) + _ = _
      simp only [Activity.step, Sink.receive]
      split <;> rfl
    | _ => exact absurd trivial hord
  | complete c r =>
    cases c with
    | boundary b =>
      have hnext : (Weight.token g).next (σ.completeBoundary b r) = (Weight.token g).waiting σ :=
        Weight.completeBoundary _ (fun _ => rfl) b r
      have hhand : (σ.completeBoundary b r).1.onHand link g = σ.onHand link g := by
        unfold Store.completeBoundary
        split <;> rfl
      change (Weight.token g).next (σ.completeBoundary b r) +
        (σ.completeBoundary b r).1.onHand link g ≤ _
      rw [hnext, hhand]
      exact Nat.add_le_add_right (Nat.le_add_left _ _) _
    | _ => exact absurd trivial hord
  | _ => exact absurd trivial hord

/-- An execution that opens a bracket leaves its token on its connection. -/
theorem Activity.open_tokens {x : Activity} (hd : x.deal g σ = .opens) :
    (Weight.token g).next (x.step σ) = (Weight.token g).call x + (Weight.token g).waiting σ ∧
      ∀ link, (x.step σ).1.onHand link g ≤ σ.onHand link g + 1 := by
  obtain ⟨l, acquire, use, release, rfl, rfl, hc⟩ := Activity.of_deal_opens hd
  let σ₁ := (σ.newBoundary (.bracket { owner := l.id, link := l.link, release })).1
  have hpush : (σ₁.push l.link (.bracket σ.boundaries.size)).2 = [] := by
    have hc₁ : σ₁.isCancelled l.link = false := hc
    simp [Store.push, hc₁]
  have hturn : (Weight.token σ.boundaries.size).turn
      ((Node.program (.bracket acquire use release)).step l.id l.link σ) = 0 := by
    change (Weight.token _).calls ((σ₁.push l.link _).2 ++ [_]) + 0 + 0 = 0
    rw [hpush]
    rfl
  change (Weight.token _).next (l.step _ σ) = _ ∧ ∀ link,
    (l.step (.looking (.program (.bracket acquire use release))) σ).1.onHand link _ ≤ _
  rw [Loop.step_of_not_cancelled hc, Weight.next_on _ (Node.step_opens _ _ _ σ), hturn]
  exact ⟨rfl, fun link => Store.onHand_push_le (σ := σ₁) l.link _⟩

end Steps

/-! ## The ledger -/

theorem Store.bracketLink_eq {σ : Store} {g : BracketId} :
    σ.bracketLink g = (σ.terms g).bind Bracket.link := by
  rw [Store.bracketLink, Store.terms]
  cases σ.bracket? g <;> rfl

/-- Who asks for the release leaves the bracket under its connection. -/
theorem Store.bracketLink_take {σ σ' : Store} {g : BracketId}
    (h : σ'.terms g = (σ.terms g).map Bracket.take) : σ'.bracketLink g = σ.bracketLink g := by
  rw [Store.bracketLink_eq, Store.bracketLink_eq, h]
  cases σ.terms g with
  | none => rfl
  | some br =>
    obtain ⟨owner, link, release, resource, gate⟩ := br
    cases resource <;> rfl

/-- What the bracket's token weighs before the moment, in the call that takes the step, in the loops
that wait, and on the connection. -/
def Moment.tokensBefore (g : BracketId) (m : Moment) : Nat :=
  (m.call.map (Weight.token g).call).getD 0 + (Weight.token g).waiting m.before +
    m.before.onHand (m.before.bracketLink g) g

/-- The same after the moment, in the calls that follow. -/
def Moment.tokensAfter (g : BracketId) (m : Moment) : Nat :=
  (Weight.token g).next m.next + m.next.1.onHand (m.next.1.bracketLink g) g

/-- The token of the bracket is used up or lost at this moment. -/
def Moment.spends (g : BracketId) (m : Moment) : Bool :=
  m.tokensAfter g < m.tokensBefore g +
    if m.deal g = .opens ∧ (m.next.1.bracketLink g).isSome then 1 else 0

/-- A loop that runs the token of the bracket uses it up. -/
theorem Moment.spends_of_token {σ : Store} {g : BracketId} {l : Loop}
    (hc : σ.isCancelled l.link = false) :
    Moment.spends g ⟨some (.work (.looking (.token (.bracket g))) l), σ,
      l.step (.looking (.token (.bracket g))) σ⟩ = true := by
  have hdeal : Moment.deal g ⟨some (.work (.looking (.token (.bracket g))) l), σ,
      l.step (.looking (.token (.bracket g))) σ⟩ = .asks true := by
    simp [Moment.deal, Activity.deal, Node.deal, hc]
  have hturn : (Weight.token g).turn (Token.begin (.bracket g) l.link σ) = 0 := by
    change 0 + (Weight.token g).node (σ.takeRelease g .cancelled).2 + 0 = 0
    simp only [Store.takeRelease]
    split <;> rfl
  have hstep := l.step_of_not_cancelled hc (.token (.bracket g))
  have hnext : (Weight.token g).next (l.step (.looking (.token (.bracket g))) σ) =
      (Weight.token g).loop l + (Weight.token g).waiting σ := by
    rw [hstep, Weight.next_on _ (Node.step_opens _ _ _ σ)]
    exact congrArg (· + _ + _) hturn |>.trans (by rw [Nat.zero_add])
  have hturns := (Activity.work (.looking (.token (.bracket g))) l).step_turns (σ := σ) g
  rw [show Activity.deal g σ (.work (.looking (.token (.bracket g))) l) = .asks true from hdeal]
    at hturns
  have hlink : (l.step (.looking (.token (.bracket g))) σ).1.bracketLink g = σ.bracketLink g :=
    Store.bracketLink_take hturns
  have hhand : ∀ link, (l.step (.looking (.token (.bracket g))) σ).1.onHand link g =
      σ.onHand link g := fun link => by
    rw [hstep]
    rfl
  have hcall : (Weight.token g).call (.work (.looking (.token (.bracket g))) l) =
      1 + (Weight.token g).loop l := by
    simp [Weight.call, Weight.stage, Weight.token, Token.count, Token.bracket?]
  simp only [Moment.spends, Moment.tokensAfter, Moment.tokensBefore, hdeal, hlink, hhand,
    Option.map_some, Option.getD_some, hcall, decide_eq_true_eq, reduceCtorEq, false_and, if_false]
  rw [hnext]
  omega

/-- A loop that is stopped before it comes to the tokens it took loses them. -/
theorem Moment.spends_of_stopped {σ : Store} {g : BracketId} {l : Loop} {of : Link}
    {ts : List Token} (hg : .bracket g ∈ ts) :
    Moment.spends g ⟨some (.work (.looking (.sweep of ts)) l), σ,
      σ, [.deliver l.id l.sink (.error .cancelled)]⟩ = true := by
  have hpos := Token.count_pos hg
  have hbefore : (Weight.token g).call (.work (.looking (.sweep of ts)) l) =
      Token.count g ts + (Weight.token g).loop l := rfl
  have hafter : (Weight.token g).next (σ, [.deliver l.id l.sink (.error .cancelled)]) =
      (Weight.token g).sink l.sink + (Weight.token g).waiting σ := rfl
  have hsink : (Weight.token g).sink l.sink = 0 := rfl
  have hdeal : Moment.deal g ⟨some (.work (.looking (.sweep of ts)) l), σ,
      σ, [.deliver l.id l.sink (.error .cancelled)]⟩ = .nothing := rfl
  simp only [Moment.spends, Moment.tokensAfter, Moment.tokensBefore, hdeal, hbefore, hafter, hsink,
    Option.map_some, Option.getD_some, decide_eq_true_eq, reduceCtorEq, false_and, if_false]
  omega

namespace Session

/-- How many tokens of the bracket there are. -/
def tokens (g : BracketId) (S : Session) : Nat :=
  (Weight.token g).session S + S.store.onHand (S.store.bracketLink g) g

/-- How often the token of the bracket was used up or lost. -/
def spent (g : BracketId) (S : Session) : Nat := S.past.countP (·.spends g)

variable {g : BracketId}

theorem spent_record {S : Session} {call : Option Activity} {next : Next} {others : List Activity} :
    (S.record call next others).spent g =
      S.spent g + if Moment.spends g ⟨call, S.store, next⟩ then 1 else 0 := by
  simp only [spent, record_past, List.countP_cons]

theorem spent_le_record {S : Session} {call : Option Activity} {next : Next}
    {others : List Activity} : S.spent g ≤ (S.record call next others).spent g := by
  rw [spent_record]
  exact Nat.le_add_right _ _

theorem armed_link {cs : List Choice} {c : ConnectionId} (h : g ∈ (after cs).store.armed c) :
    (after cs).store.bracketLink g = some c := by
  obtain ⟨br, hbr, hlink⟩ := (fits cs).1.armed c g h
  rw [Store.bracketLink, hbr]
  exact hlink

/-- Only who opens a bracket decides under which connection. -/
theorem bracketLink_step {cs : List Choice} {x : Activity} {xs ys : List Activity}
    (hS : (after cs).calls = xs ++ x :: ys) (hd : x.deal g (after cs).store ≠ .opens) :
    (x.step (after cs).store).1.bracketLink g = (after cs).store.bracketLink g := by
  have hturns := x.step_turns (σ := (after cs).store) g
  have hacquiring : ∀ ok, x.deal g (after cs).store = .acquires ok → _ := fun ok => acquiring hS
  rw [Store.bracketLink_eq, Store.bracketLink_eq]
  revert hturns hacquiring hd
  cases x.deal g (after cs).store with
  | opens => exact fun h => absurd rfl h
  | acquires ok =>
    intro _ hturns hacquiring
    obtain ⟨-, -, br, hbr⟩ := hacquiring ok rfl
    cases ok with
    | true =>
      obtain ⟨v, hv⟩ := hturns br hbr
      rw [hv, hbr]
      rfl
    | false =>
      simp only [Deal.Turns] at hturns
      rw [hturns]
  | asks token =>
    intro _ hturns _
    rw [← Store.bracketLink_eq, ← Store.bracketLink_eq]
    exact Store.bracketLink_take hturns
  | _ =>
    intro _ hturns _
    simp only [Deal.Turns] at hturns
    rw [hturns]

/-- An input leaves the account of the token as it is. -/
theorem tokens_input {cs : List Choice} (i : Input)
    (hle : (after cs).tokens g + (after cs).spent g ≤ 1) :
    ((after cs).record none (i.step (after cs).store) (after cs).calls).tokens g +
        ((after cs).record none (i.step (after cs).store) (after cs).calls).spent g =
      (after cs).tokens g + (after cs).spent g := by
  have hsession := (Weight.token g).session_input (S := after cs) (i.step (after cs).store)
  have hnext := Weight.next_of_plain (Weight.token_light (g := g)) (i.step_plain (after cs).store)
    (i.step_aside _) fun _ => rfl
  have hlink : (i.step (after cs).store).1.bracketLink g = (after cs).store.bracketLink g := by
    rw [Store.bracketLink_eq, i.step_terms, ← Store.bracketLink_eq]
  have hhand : (i.step (after cs).store).1.onHand ((after cs).store.bracketLink g) g ≤
      (after cs).store.onHand ((after cs).store.bracketLink g) g := by
    obtain ⟨σ', hdrops, hplain⟩ := i.step_plain (after cs).store
    rw [Store.onHand_of_armed hplain.alike.armed]
    obtain rfl | ⟨from', rfl⟩ := hdrops
    · exact Nat.le_refl _
    · exact Store.onHand_dropToken_le (fun _ => armed_link) from'
  rw [spent_record]
  simp only [tokens, record_store, hlink, Moment.spends, Moment.tokensAfter, Moment.tokensBefore,
    Moment.deal, Option.map_none, Option.getD_none, decide_eq_true_eq, reduceCtorEq, false_and,
    if_false] at hle ⊢
  split <;> omega

/-- A call that opens the bracket registers its token, if it has a connection. -/
theorem tokens_open {cs : List Choice} {x : Activity} {xs ys : List Activity}
    (hS : (after cs).calls = xs ++ x :: ys) (hd : x.deal g (after cs).store = .opens)
    (h : (after cs).tokens g + (after cs).spent g =
      if ((after cs).store.bracketLink g).isSome then 1 else 0) :
    ((after cs).record (some x) (x.step (after cs).store) (xs ++ ys)).tokens g +
        ((after cs).record (some x) (x.step (after cs).store) (xs ++ ys)).spent g =
      if ((x.step (after cs).store).1.bracketLink g).isSome then 1 else 0 := by
  have hsession := (Weight.token g).session_call (x.step (after cs).store) hS
  obtain ⟨hnext, hhand⟩ := Activity.open_tokens hd
  have hnone : (after cs).store.bracketLink g = none := by
    have hturns := x.step_turns (σ := (after cs).store) g
    rw [hd] at hturns
    rw [Store.bracketLink_eq, hturns.1]
    rfl
  have hzero : ∀ link, (after cs).store.onHand link g = 0 := by
    rintro (_ | c)
    · rfl
    · exact List.count_eq_zero.2 fun hm => nomatch hnone.symm.trans (armed_link hm)
  have hafter : (x.step (after cs).store).1.onHand ((x.step (after cs).store).1.bracketLink g) g ≤
      if ((x.step (after cs).store).1.bracketLink g).isSome then 1 else 0 := by
    cases (x.step (after cs).store).1.bracketLink g with
    | none => exact Nat.le_refl 0
    | some c =>
      have h := hhand (some c)
      rw [hzero] at h
      exact h
  rw [hnone] at h
  rw [spent_record]
  simp only [tokens, hnone, hzero, Option.isSome_none, Bool.false_eq_true, if_false] at h
  simp only [tokens, record_store, Moment.spends, Moment.tokensAfter, Moment.tokensBefore,
    Moment.deal, hd, hnone, hzero, Option.map_some, Option.getD_some, decide_eq_true_eq, true_and]
  revert hafter
  cases ((x.step (after cs).store).1.bracketLink g).isSome <;>
    simp only [Bool.false_eq_true, if_true, if_false] <;> intro hafter <;> split <;> omega

/-- Any other call leaves the account of the token as it is. -/
theorem tokens_call {cs : List Choice} {x : Activity} {xs ys : List Activity}
    (hS : (after cs).calls = xs ++ x :: ys) (hd : x.deal g (after cs).store ≠ .opens)
    (hle : (after cs).tokens g + (after cs).spent g ≤ 1) :
    ((after cs).record (some x) (x.step (after cs).store) (xs ++ ys)).tokens g +
        ((after cs).record (some x) (x.step (after cs).store) (xs ++ ys)).spent g =
      (after cs).tokens g + (after cs).spent g := by
  have hsession := (Weight.token g).session_call (x.step (after cs).store) hS
  have hown : ∀ c, g ∈ (after cs).store.armed c → _ := fun _ => armed_link
  have hstep := Activity.step_tokens hown hd fun b l hx =>
    leaving_open (l := l) (by rw [hS, hx]; simp)
  rw [spent_record]
  simp only [tokens, record_store, bracketLink_step hS hd, Moment.spends, Moment.tokensAfter,
    Moment.tokensBefore, Moment.deal, hd, Option.map_some, Option.getD_some, decide_eq_true_eq,
    false_and, if_false] at hle ⊢
  split <;> omega

/-- **The token of a bracket that was opened under a connection is still there, or was used up or
lost, once.** -/
theorem token_ledger (g : BracketId) (cs : List Choice) :
    (after cs).tokens g + (after cs).spent g =
      if ((after cs).store.bracketLink g).isSome then 1 else 0 := by
  refine invariant (P := fun S => S.tokens g + S.spent g =
    if (S.store.bracketLink g).isSome then 1 else 0) rfl ?_ ?_ cs
  · intro cs i h
    rw [tokens_input i (by rw [h]; split <;> omega), h, record_store, Store.bracketLink_eq,
      Store.bracketLink_eq, i.step_terms]
  · intro cs x xs ys hS h
    rw [record_store]
    by_cases hd : x.deal g (after cs).store = .opens
    · exact tokens_open hS hd h
    · rw [tokens_call hS hd (by rw [h]; split <;> omega), h, bracketLink_step hS hd]

end Session

end CancelableEffects
