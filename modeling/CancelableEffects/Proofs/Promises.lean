import CancelableEffects.Promise
import Mathlib.Data.List.Nodup
import Mathlib.Data.List.Perm.Basic

/-!
# Promises — every listener is told once, unless it was taken out before

* `Promise.Act`: what the users of a promise do, in any order. A listener that is being called is a user
  too, so anything may happen between two calls.
* `Promise.Exchange`: a promise with its users: who was registered and taken out, and the calls of
  listeners that are due and that were made.
* **`Promise.Exchange.sound`**: every registration has one fate, and all listeners are told the same.
* **`Promise.Exchange.get_after`**: the outcome is the first that was offered.
* `Promise.Exchange.remove_step`: a removal is about one listener.
* `Promise.Work`: a promise whose users call each other, the innermost first.
* **`Promise.Work.due_of_returned`**: when all have returned, every call that was due was made.
-/

namespace CancelableEffects.Promise

variable {L O : Type}

/-- The listeners that wait for the outcome, each with its number. -/
def waiting : Promise L O → List (Nat × L)
  | pending ls _ => ls
  | complete _ => []

theorem waiting_remove (p : Promise L O) (n : Nat) :
    (p.remove n).waiting = p.waiting.filter (·.1 != n) := by
  cases p <;> rfl

/-- A promise that is complete has released all who waited. -/
theorem waiting_of_get {p : Promise L O} {o : O} (h : p.get = some o) : p.waiting = [] := by
  cases p with
  | pending ls n => cases h
  | complete o' => rfl

/-- Of listeners with different numbers, one has the number. -/
theorem filter_number {ls : List (Nat × L)} {n : Nat} {l : L} (h : (ls.map (·.1)).Nodup)
    (hl : (n, l) ∈ ls) : ls.filter (·.1 == n) = [(n, l)] := by
  obtain ⟨before, later, rfl⟩ := List.append_of_mem hl
  rw [List.map_append, List.map_cons, List.nodup_append] at h
  obtain ⟨-, hlater, hbefore⟩ := h
  have hnone : ∀ xs : List (Nat × L), n ∉ xs.map (·.1) → xs.filter (·.1 == n) = [] := fun xs hxs =>
    List.filter_eq_nil_iff.2 fun y hy hn => hxs (List.mem_map.2 ⟨y, hy, eq_of_beq hn⟩)
  rw [List.filter_append, List.filter_cons_of_pos (by exact beq_self_eq_true n),
    hnone before fun hn => hbefore n hn n (.head _) rfl, hnone later (List.nodup_cons.1 hlater).1,
    List.nil_append]

/-- What the users of a promise do. -/
inductive Act (L O : Type) where
  /-- Somebody offers an outcome. -/
  | complete (o : O)
  | listen (l : L)
  | remove (n : Nat)
  /-- The listener is called, if it is to be told the outcome. -/
  | call (l : L)

namespace Act

/-- The outcome that is offered. -/
def offer? : Act L O → Option O
  | complete o => some o
  | _ => none

/-- The listener that is registered. -/
def listener? : Act L O → Option L
  | listen l => some l
  | _ => none

/-- The listener that is called. -/
def called? : Act L O → Option L
  | call l => some l
  | _ => none

/-- The promise after the act. -/
def apply (p : Promise L O) : Act L O → Promise L O
  | complete o => (p.fulfil o).1
  | listen l => (p.listen l).1
  | remove n => p.remove n
  | call _ => p

/-- The calls of listeners that become due, each with what it tells. -/
def makes (p : Promise L O) : Act L O → List (L × O)
  | complete o => (p.fulfil o).2.map (·, o)
  | listen l =>
    match (p.listen l).2 with
    | .inl _ => []
    | .inr o => [(l, o)]
  | remove _ | call _ => []

/-- The listeners that are taken out while they wait. -/
def takes (p : Promise L O) : Act L O → List L
  | remove n => (p.waiting.filter (·.1 == n)).map (·.2)
  | _ => []

end Act

/-- A promise with its users. -/
structure Exchange (L O : Type) where
  promise : Promise L O := .empty
  /-- The listeners that were registered, oldest first. -/
  registered : List L := []
  /-- The listeners that were taken out while they waited. -/
  removed : List L := []
  /-- The calls of listeners that are to be made, each with what it tells. -/
  due : List (L × O) := []
  /-- The calls that were made. -/
  told : List (L × O) := []

namespace Exchange

variable [DecidableEq L]

/-- The exchange after one more act. Where no such call is due, nothing happens. -/
def step (x : Exchange L O) (a : Act L O) : Exchange L O where
  promise := a.apply x.promise
  registered := x.registered ++ a.listener?.toList
  removed := x.removed ++ a.takes x.promise
  due :=
    match a with
    | .call l => x.due.eraseP (·.1 = l)
    | a => x.due ++ a.makes x.promise
  told :=
    match a with
    | .call l => x.told ++ (x.due.find? (·.1 = l)).toList
    | _ => x.told

/-- The exchange after some acts, the latest first. -/
def after : List (Act L O) → Exchange L O
  | [] => {}
  | a :: acts => (after acts).step a

/-- Every registration has one fate: the listener was taken out, waits, is to be called, or was called.
The listeners that wait have the numbers under which they were registered, counted from zero, and those
that are called are told the outcome. -/
structure Sound (x : Exchange L O) : Prop where
  fates : x.registered.Perm
    (x.removed ++ x.promise.waiting.map (·.2) ++ x.due.map (·.1) ++ x.told.map (·.1))
  numbered : ∀ y ∈ x.promise.waiting, x.registered[y.1]? = some y.2
  apart : (x.promise.waiting.map (·.1)).Nodup
  next : ∀ ls n, x.promise = .pending ls n → n = x.registered.length
  patient : x.promise.get = none → x.due = [] ∧ x.told = []
  same : ∀ c ∈ x.due ++ x.told, x.promise.get = some c.2

/-! ## One act -/

section Step

variable {x : Exchange L O}

@[simp] theorem step_registered (a : Act L O) :
    (x.step a).registered = x.registered ++ a.listener?.toList := rfl

theorem Sound.complete (h : x.Sound) (o : O) : (x.step (.complete o)).Sound := by
  obtain ⟨p, registered, removed, due, told⟩ := x
  cases p with
  | pending ls n =>
    obtain ⟨rfl, rfl⟩ := h.patient rfl
    refine ⟨?_, nofun, List.nodup_nil, nofun, nofun, ?_⟩
    · simpa [step, Act.apply, Act.makes, Act.takes, Act.listener?, fulfil, waiting, Function.comp_def]
        using h.fates
    · simp only [step, Act.apply, Act.makes, fulfil, get, List.nil_append, List.append_nil, List.mem_map,
        List.map_map]
      rintro c ⟨y, -, rfl⟩
      rfl
  | complete o' => simpa [step, Act.apply, Act.makes, Act.takes, Act.listener?, fulfil] using h

theorem Sound.listen (h : x.Sound) (l : L) : (x.step (.listen l)).Sound := by
  obtain ⟨p, registered, removed, due, told⟩ := x
  cases p with
  | pending ls n =>
    obtain rfl : n = registered.length := h.next _ _ rfl
    obtain ⟨rfl, rfl⟩ := h.patient rfl
    have hlt : ∀ y ∈ ls, y.1 < registered.length := fun y hy =>
      (List.getElem?_eq_some_iff.1 (h.numbered y hy)).1
    refine ⟨?_, ?_, ?_, ?_, fun _ => ⟨rfl, rfl⟩, fun _ hc => (List.not_mem_nil hc).elim⟩
    · have hfates : registered.Perm (removed ++ ls.map (·.2)) := by simpa [waiting] using h.fates
      simpa [step, Act.apply, Act.makes, Act.takes, Act.listener?, Promise.listen, waiting]
        using hfates.append_right [l]
    · show ∀ y ∈ ls ++ [(registered.length, l)], (registered ++ [l])[y.1]? = some y.2
      simp only [List.mem_append, List.mem_singleton]
      rintro y (hy | rfl)
      · rw [List.getElem?_append_left (hlt y hy)]
        exact h.numbered y hy
      · exact List.getElem?_concat_length
    · show ((ls ++ [(registered.length, l)]).map (·.1)).Nodup
      rw [List.map_append, List.map_cons, List.map_nil]
      refine List.nodup_append.2 ⟨h.apart, List.nodup_singleton _, fun n hn n' hn' => ?_⟩
      obtain ⟨y, hy, rfl⟩ := List.mem_map.1 hn
      exact List.mem_singleton.1 hn' ▸ Nat.ne_of_lt (hlt y hy)
    · rintro ls' n' heq
      cases heq
      exact (@List.length_append _ registered [l]).symm
  | complete o =>
    refine ⟨?_, fun _ hy => (List.not_mem_nil hy).elim, List.nodup_nil, (by rintro _ _ ⟨⟩),
      (by rintro ⟨⟩), ?_⟩
    · have hfates : registered.Perm (removed ++ due.map (·.1) ++ told.map (·.1)) := by
        simpa [waiting] using h.fates
      have hlast : (registered ++ [l]).Perm (removed ++ (due.map (·.1) ++ [l]) ++ told.map (·.1)) := by
        refine (hfates.append_right [l]).trans ?_
        rw [List.append_assoc, ← List.append_assoc removed, List.append_assoc (removed ++ _)]
        exact (@List.perm_append_comm _ (told.map (·.1)) [l]).append_left _
      simpa [step, Act.apply, Act.makes, Act.takes, Act.listener?, Promise.listen, waiting] using hlast
    · show ∀ c ∈ (due ++ [(l, o)]) ++ told, some o = some c.2
      simp only [List.mem_append, List.mem_singleton]
      rintro c ((hc | rfl) | hc)
      · exact h.same c (List.mem_append_left _ hc)
      · rfl
      · exact h.same c (List.mem_append_right _ hc)

theorem Sound.remove (h : x.Sound) (n : Nat) : (x.step (.remove n)).Sound := by
  obtain ⟨p, registered, removed, due, told⟩ := x
  cases p with
  | pending ls next =>
    obtain ⟨rfl, rfl⟩ := h.patient rfl
    refine ⟨?_, fun y hy => ?_, ?_, ?_, fun _ => ⟨rfl, rfl⟩, nofun⟩
    · have hfates : registered.Perm (removed ++ ls.map (·.2)) := by simpa [waiting] using h.fates
      have hsplit : ls.Perm (ls.filter (·.1 == n) ++ ls.filter (·.1 != n)) :=
        (List.filter_append_perm (·.1 == n) ls).symm
      have hmapped := (hsplit.map (·.2)).append_left removed
      simpa [step, Act.apply, Act.makes, Act.takes, Act.listener?, Promise.remove, waiting]
        using hfates.trans hmapped
    · have hnumbered := h.numbered y (List.mem_filter.1 hy).1
      simpa [step, Act.listener?] using hnumbered
    · exact h.apart.sublist (List.filter_sublist.map _)
    · rintro ls' n' heq
      cases heq
      simpa [step, Act.listener?] using h.next _ _ rfl
  | complete o => simpa [step, Act.apply, Act.makes, Act.takes, Act.listener?, Promise.remove, waiting] using h

theorem step_other {a : Act L O} (ha : ∀ l, a ≠ .call l) :
    (x.step a).due = x.due ++ a.makes x.promise ∧ (x.step a).told = x.told := by
  cases a with
  | call l => exact absurd rfl (ha l)
  | _ => exact ⟨rfl, rfl⟩

/-- A call that is due takes place: it is no longer due, but was made. -/
theorem step_call {l : L} {c : L × O} (hc : x.due.find? (·.1 = l) = some c) :
    x.due.Perm (c :: (x.step (.call l)).due) ∧ (x.step (.call l)).told = x.told ++ [c] := by
  obtain ⟨hcl, before, later, hsplit, hbefore⟩ := List.find?_eq_some_iff_append.1 hc
  have hdue : (x.step (.call l)).due = before ++ later := by
    change x.due.eraseP _ = _
    rw [hsplit, List.eraseP_append_right _ (by simpa using hbefore)]
    exact congrArg (before ++ ·) (List.eraseP_cons_of_pos hcl)
  refine ⟨?_, by simp only [step, hc, Option.toList_some]⟩
  rw [hdue, hsplit]
  exact List.perm_middle

/-- A call that is not due does not take place. -/
theorem step_call_of_none {l : L} (hc : x.due.find? (·.1 = l) = none) :
    (x.step (.call l)).due = x.due ∧ (x.step (.call l)).told = x.told :=
  ⟨List.eraseP_of_forall_not fun c hc' => List.find?_eq_none.1 hc c hc',
    by simp only [step, hc, Option.toList_none, List.append_nil]⟩

theorem Sound.call (h : x.Sound) (l : L) : (x.step (.call l)).Sound := by
  have hrest : (x.step (.call l)).registered = x.registered := List.append_nil _
  have hremoved : (x.step (.call l)).removed = x.removed := List.append_nil _
  -- the calls that are due or were made are the same as before, in another order
  have hmoved : (x.due ++ x.told).Perm ((x.step (.call l)).due ++ (x.step (.call l)).told) := by
    cases hc : x.due.find? (·.1 = l) with
    | none =>
      obtain ⟨hdue, htold⟩ := step_call_of_none hc
      rw [hdue, htold]
    | some c =>
      obtain ⟨hdue, htold⟩ := step_call hc
      rw [htold, ← List.append_assoc]
      exact (hdue.append_right _).trans (List.perm_append_singleton c _).symm
  refine ⟨?_, hrest ▸ h.numbered, h.apart, hrest ▸ h.next, fun hnone => ?_,
    fun c hc => h.same c (hmoved.mem_iff.2 hc)⟩
  · rw [hrest, hremoved]
    have hmapped := (hmoved.map (·.1)).append_left (x.removed ++ x.promise.waiting.map (·.2))
    rw [List.map_append, List.map_append, ← List.append_assoc, ← List.append_assoc] at hmapped
    exact h.fates.trans hmapped
  · obtain ⟨hdue, htold⟩ := h.patient hnone
    rw [hdue, htold] at hmoved
    exact List.append_eq_nil_iff.1 hmoved.nil_eq.symm

/-- All calls that are due to a listener tell it the same. -/
theorem Sound.find?_due (h : x.Sound) {l : L} {o : O} (hmem : (l, o) ∈ x.due) :
    x.due.find? (·.1 = l) = some (l, o) := by
  cases hc : x.due.find? (·.1 = l) with
  | none => exact absurd (decide_eq_true rfl) (List.find?_eq_none.1 hc _ hmem)
  | some c =>
    have hl : c.1 = l := by simpa using List.find?_some hc
    have ho := (h.same c (List.mem_append_left _ (List.mem_of_find?_eq_some hc))).symm.trans
      (h.same _ (List.mem_append_left _ hmem))
    exact congrArg some (Prod.ext hl (Option.some.inj ho))

end Step

/-! ## All acts -/

/-- **Every registration has one fate**, and all listeners are told the outcome. -/
theorem sound (acts : List (Act L O)) : (after acts).Sound := by
  induction acts with
  | nil => exact ⟨.nil, nofun, List.nodup_nil, fun ls n h => by cases h; rfl, fun _ => ⟨rfl, rfl⟩, nofun⟩
  | cons a acts ih =>
    cases a with
    | complete o => exact ih.complete o
    | listen l => exact ih.listen l
    | remove n => exact ih.remove n
    | call l => exact ih.call l

theorem get_step (x : Exchange L O) (a : Act L O) :
    (x.step a).promise.get = x.promise.get.or a.offer? := by
  obtain ⟨p, registered, removed, due, told⟩ := x
  cases a <;> cases p <;> rfl

/-- **The outcome is the first that was offered.** -/
theorem get_after (acts : List (Act L O)) :
    (after acts).promise.get = (acts.filterMap Act.offer?).getLast? := by
  induction acts with
  | nil => rfl
  | cons a acts ih =>
    rw [after, get_step, ih, List.filterMap_cons]
    cases a.offer? with
    | none => exact Option.or_none
    | some o => rw [List.getLast?_cons]; cases (acts.filterMap Act.offer?).getLast? <;> rfl

/-- The listeners are registered in the order of the acts. -/
theorem registered_after (acts : List (Act L O)) :
    (after acts).registered = (acts.filterMap Act.listener?).reverse := by
  induction acts with
  | nil => rfl
  | cons a acts ih =>
    rw [after, step_registered, ih, List.filterMap_cons]
    cases a.listener? with
    | none => exact List.append_nil _
    | some l => exact List.reverse_cons.symm

/-- The outcome stays. -/
theorem get_stays {acts : List (Act L O)} {o : O} (h : (after acts).promise.get = some o)
    (later : List (Act L O)) : (after (later ++ acts)).promise.get = some o := by
  induction later with
  | nil => exact h
  | cons a later ih => rw [List.cons_append, after, get_step, ih, Option.some_or]

/-- **A removal is about the listener that was registered under the number**, if it waits: all others wait
on, and nobody is told anything. -/
theorem remove_step (acts : List (Act L O)) (n : Nat) :
    let x := after acts
    let y := x.step (.remove n)
    y.promise.waiting = x.promise.waiting.filter (·.1 != n) ∧ y.promise.get = x.promise.get ∧
      y.registered = x.registered ∧ y.due = x.due ∧ y.told = x.told ∧
      (∀ l, (n, l) ∈ x.promise.waiting → x.registered[n]? = some l ∧ y.removed = x.removed ++ [l]) ∧
      ((∀ l, (n, l) ∉ x.promise.waiting) → y.removed = x.removed) := by
  intro x y
  have hsound := sound acts
  refine ⟨waiting_remove _ _, get_remove _ _, List.append_nil _, List.append_nil _, rfl,
    fun l hl => ⟨hsound.numbered _ hl, ?_⟩, fun hnone => ?_⟩
  · show x.removed ++ (x.promise.waiting.filter (·.1 == n)).map (·.2) = _
    rw [filter_number hsound.apart hl]
    rfl
  · have hfilter : x.promise.waiting.filter (·.1 == n) = [] :=
      List.filter_eq_nil_iff.2 fun z hz hn => hnone z.2 (eq_of_beq hn ▸ hz)
    show x.removed ++ (x.promise.waiting.filter (·.1 == n)).map (·.2) = _
    rw [hfilter]
    exact List.append_nil _

/-- The first listener is taken out before the second one is told, and a later completion is dropped. -/
example : (after ([.complete 8, .call 2, .complete 7, .remove 0, .listen 2, .listen 1] :
    List (Act Nat Nat))).told = [(2, 7)] := by decide

end Exchange

/-! ## Users that call each other -/

/-- A promise at work: what has happened, the latest act first, and what is still to be done, the innermost
first. -/
structure Work (L O : Type) where
  acts : List (Act L O) := []
  agenda : List (Act L O)

namespace Work

variable [DecidableEq L] {body : L → O → List (Act L O)}

/-- What an act calls before it is over. Who completes a promise calls the listeners that it releases, who
listens too late is called at once, and a listener that is called does what `body` tells. -/
def inner (body : L → O → List (Act L O)) (x : Exchange L O) : Act L O → List (Act L O)
  | .call l => (x.due.find? (·.1 = l)).elim [] fun c => body l c.2
  | a => (a.makes x.promise).map fun c => .call c.1

/-- The next act. -/
def step (body : L → O → List (Act L O)) (w : Work L O) : Work L O :=
  match w.agenda with
  | [] => w
  | a :: agenda => ⟨a :: w.acts, inner body (.after w.acts) a ++ agenda⟩

/-- The work after `n` acts. -/
def after (body : L → O → List (Act L O)) (agenda : List (Act L O)) : Nat → Work L O
  | 0 => { agenda }
  | n + 1 => (after body agenda n).step body

/-- The calls of listeners that are due are those on the agenda. -/
def Owes (w : Work L O) : Prop :=
  ((Exchange.after w.acts).due.map (·.1)).Perm (w.agenda.filterMap Act.called?)

theorem Owes.step (hbody : ∀ l o, ∀ a ∈ body l o, a.called? = none) {w : Work L O} (h : w.Owes) :
    (w.step body).Owes := by
  obtain ⟨acts, _ | ⟨a, agenda⟩⟩ := w
  · exact h
  have hsound : (Exchange.after acts).Sound := Exchange.sound acts
  by_cases ha : ∃ l, a = .call l
  · obtain ⟨l, rfl⟩ := ha
    have h : ((Exchange.after acts).due.map (·.1)).Perm (l :: agenda.filterMap Act.called?) := h
    obtain ⟨c, hc, rfl⟩ := List.mem_map.1 (h.mem_iff.2 (.head _))
    have hfind := hsound.find?_due (l := c.1) (o := c.2) hc
    have hinner : (inner body (.after acts) (.call c.1)).filterMap Act.called? = [] := by
      simp only [inner, hfind, Option.elim_some]
      exact List.filterMap_eq_nil_iff.2 (hbody _ _)
    change (((Exchange.after acts).step (.call c.1)).due.map (·.1)).Perm (List.filterMap Act.called? (_ ++ _))
    rw [List.filterMap_append, hinner]
    exact (((Exchange.step_call hfind).1.map (·.1)).symm.trans h).cons_inv
  · have hother : ∀ l, a ≠ .call l := fun l hl => ha ⟨l, hl⟩
    have hinner : (inner body (.after acts) a).filterMap Act.called? =
        (a.makes (Exchange.after acts).promise).map (·.1) := by
      cases a with
      | call l => exact absurd rfl (hother l)
      | _ => simp [inner, List.filterMap_map, Function.comp_def, Act.called?]
    have h : ((Exchange.after acts).due.map (·.1)).Perm (agenda.filterMap Act.called?) := by
      cases a with
      | call l => exact absurd rfl (hother l)
      | _ => exact h
    change (((Exchange.after acts).step a).due.map (·.1)).Perm (List.filterMap Act.called? (_ ++ _))
    rw [List.filterMap_append, hinner, (Exchange.step_other hother).1, List.map_append]
    exact (h.append_right _).trans List.perm_append_comm

/-- **When all users have returned, every call that was due was made.** -/
theorem due_of_returned (hbody : ∀ l o, ∀ a ∈ body l o, a.called? = none) {agenda : List (Act L O)}
    (hagenda : ∀ a ∈ agenda, a.called? = none) (n : Nat) (h : (after body agenda n).agenda = []) :
    (Exchange.after (after body agenda n).acts).due = [] := by
  have howes : (after body agenda n).Owes := by
    clear h
    induction n with
    | zero =>
      change List.Perm [] (agenda.filterMap Act.called?)
      rw [List.filterMap_eq_nil_iff.2 hagenda]
    | succ n ih => exact ih.step hbody
  unfold Owes at howes
  rw [h] at howes
  exact List.map_eq_nil_iff.1 howes.eq_nil

end Work

end CancelableEffects.Promise
