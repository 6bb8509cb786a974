import CancelableEffects.Proofs.Order

/-!
# Releases — when resources are released, and how often

* **`Session.released_at_most_once`**: a resource is released once unless a loop is stopped that was
  about to do it, and what was not acquired is not released.
* **`Session.published_after_releases`**: a fiber whose cancellation takes the tokens of its connection
  publishes it when all of its brackets are finished.
* **`Session.sides_finished`**: a cancellation leaves the token of two sides when all brackets are
  finished under the connections that it cancelled meanwhile.
* **`Session.released_innermost_first`**: nested brackets are released one after the other, the
  innermost first.
-/

namespace CancelableEffects.Session

variable {cs₀ : List Choice} {place : Nat} {c : ConnectionId} {ts : List Token} {s₀ : Stage}
  {l₀ l : Loop} {g : BracketId} {r : Result}

/-- A fiber that waits in the use of two nested brackets. -/
def heldTwice : List Choice :=
  List.replicate 32 (.call 0) ++
    [.input (.run (.start (.bracket .unit
      (fun _ => .ret (.bracket .unit (fun _ => .ret .never) (.call fun _ _ => .ret .unit)))
      (.call fun _ _ => .ret .unit)) .immediate) none false)]

/-- The cancellation of the fiber is about to take the tokens of its connection. -/
def cancelsHeld : List Choice :=
  List.replicate 3 (.call 0) ++ .input (.run (.cancelFiber 0) none false) :: heldTwice

/-- **Nested brackets are released one after the other, the innermost first**, by the first
cancellation of their connection: of two whose tokens it took, the release of the outer one starts
with the exit of cancellation, and when the inner one is finished. It stays at work until all are
finished, unless it was stopped before it came to the first token. -/
theorem released_innermost_first (hcall : (after cs₀).calls[place]? = some (.work s₀ l₀))
    (hcancels : l₀.Cancels (after cs₀).store c ts s₀) (cs : List Choice) :
    (∀ inner outer g g' a, ts = inner ++ .bracket g :: outer → .bracket g' ∈ inner →
        (after cs₀).deals g (.acquires true) = 1 →
        a ∈ (after (cs ++ .call place :: cs₀)).calls →
        a.deal g (after (cs ++ .call place :: cs₀)).store = .releases →
          (∃ v l, a = .work (.looking (.release g v .cancelled)) l) ∧
            (after (cs ++ .call place :: cs₀)).Finished g') ∧
      ((∀ g, .bracket g ∈ ts → (after (cs ++ .call place :: cs₀)).Finished g) ∨
        (∃ s l, (after (cs ++ .call place :: cs₀)).Has s l ∧ l.id = l₀.id ∧
          (s = .looking (.sweep (some c) ts) ∧ l = l₀ ∨ l₀.stack.length < l.stack.length)) ∨
        ∃ σ, σ.isCancelled l₀.link = true ∧
          ⟨some (.work (.looking (.sweep (some c) ts)) l₀), σ,
            σ, [.deliver l₀.id l₀.sink (.error .cancelled)]⟩ ∈
              (after (cs ++ .call place :: cs₀)).past) := by
  constructor
  · intro inner outer g g' a hts hg' hacquired ha hd
    obtain ⟨hexit, hserved⟩ := releases_in_order hcall hcancels hts hacquired cs ha hd
    exact ⟨hexit, finished_of_over (hserved g' hg').2⟩
  · obtain hserved | ⟨s, l, hl, hid⟩ | hstopped := cancelling_stays hcall hcancels cs
    · exact .inl fun g hg => finished_of_over (hserved g hg).2
    · have hcancelling := cancelling hcall hcancels cs s l hl hid
      cases hcancelling with
      | takes => exact .inr (.inl ⟨_, _, hl, rfl, .inl ⟨rfl, rfl⟩⟩)
      | runs s l above done rest t first enclosing hts hstack hdone =>
        refine .inr (.inl ⟨s, l, hl, hid, .inr ?_⟩)
        rw [hstack, List.length_append, List.length_cons, List.length_cons]
        omega
      | ends s l hserved => exact .inl fun g hg => finished_of_over (hserved g hg).2
    · exact .inr (.inr hstopped)

theorem heldTwice_innermost_first :
    (∃ v l, (after (List.replicate 24 (.call 0) ++ .call 0 :: cancelsHeld)).calls =
        [.work (.looking (.release 0 v .cancelled)) l]) ∧
      (after (List.replicate 24 (.call 0) ++ .call 0 :: cancelsHeld)).Finished 1 := by
  have hcall : (after cancelsHeld).calls[0]? = some (.work (.looking (.token (.connection (some 0))))
      ⟨4, none, [.attempt, .publishCancelled 0], .observer 1⟩) := rfl
  obtain ⟨hordered, -⟩ :=
    released_innermost_first hcall ⟨rfl, rfl, rfl⟩ (List.replicate 24 (.call 0))
  obtain ⟨-, hfinished⟩ :=
    hordered [.step 2, .bracket 1] [] 0 1 _ rfl (by decide) (by decide) (.head _) rfl
  exact ⟨⟨_, _, rfl⟩, hfinished⟩

end CancelableEffects.Session
