import Std.Data.HashSet

/-!
# Holdings — what lasts when things keep each other

* `Holding`: a thing is kept, by the outside world or by another thing.
* `Holding.lasting`: the holdings that are left when whatever nobody keeps is given up, and with it
  whatever it kept, until nothing more can be given up.
* `Holding.backed_of_mem_lasting`: every holder that is left is itself kept.
* `Holding.subset_lasting`: holdings whose holders keep each other are never given up, even if
  nothing outside keeps any of them.
-/

namespace CancelableEffects

/-- That a thing is kept: by the outside world, if no holder is named, or by another thing. -/
structure Holding (α : Type) where
  holder : Option α
  object : α
  deriving DecidableEq, Repr

namespace Holding

variable {α : Type} [DecidableEq α] [Hashable α]

/-- The things that are kept. -/
def objects (hs : List (Holding α)) : Std.HashSet α := Std.HashSet.ofList (hs.map object)

/-- Whether the holder is outside, or is among the things that are kept. -/
def isBacked (kept : Std.HashSet α) (h : Holding α) : Bool :=
  match h.holder with
  | none => true
  | some x => kept.contains x

/-- Gives up every holding whose holder nobody keeps. -/
def round (hs : List (Holding α)) : List (Holding α) :=
  let kept := objects hs
  hs.filter (isBacked kept)

/-- The holdings that are left when no more can be given up. -/
def lasting (hs : List (Holding α)) : List (Holding α) :=
  let next := round hs
  if next.length < hs.length then lasting next else hs
termination_by hs.length

/-! ## Laws -/

/-- The things that are kept are those that some holding names. -/
theorem mem_objects {hs : List (Holding α)} {x : α} :
    x ∈ objects hs ↔ ∃ h ∈ hs, h.object = x := by
  rw [objects, Std.HashSet.mem_ofList, List.contains_iff_mem, List.mem_map]

/-- A holding is backed when its holder is outside, or is kept by a holding of the list. -/
theorem isBacked_objects_iff {hs : List (Holding α)} {h : Holding α} :
    isBacked (objects hs) h = true ↔
      ∀ x, h.holder = some x → ∃ k ∈ hs, k.object = x := by
  unfold isBacked
  cases h.holder with
  | none => simp
  | some y => rw [Std.HashSet.contains_iff_mem, mem_objects]; simp

/-- No holding comes from nowhere. -/
theorem lasting_sublist (hs : List (Holding α)) : (lasting hs).Sublist hs := by
  fun_induction lasting hs with
  | case1 hs next h ih => exact ih.trans List.filter_sublist
  | case2 hs next h => exact List.Sublist.refl _

/-- Every holder that is left is outside or is itself kept. -/
theorem backed_of_mem_lasting {hs : List (Holding α)} {h : Holding α} (hh : h ∈ lasting hs) :
    ∀ x, h.holder = some x → ∃ k ∈ lasting hs, k.object = x := by
  fun_induction lasting hs with
  | case1 hs next _ ih => exact ih hh
  | case2 hs next hlt =>
    have hle : (round hs).length ≤ hs.length := List.length_filter_le _ _
    have heq : round hs = hs :=
      List.filter_sublist.eq_of_length (Nat.le_antisymm hle (Nat.le_of_not_lt hlt))
    have hmem : h ∈ round hs := by rw [heq]; exact hh
    exact isBacked_objects_iff.1 (List.mem_filter.1 hmem).2

/-- Holdings whose holders are outside or kept by one another are all left. -/
theorem subset_lasting {ks hs : List (Holding α)} (hsub : ∀ k ∈ ks, k ∈ hs)
    (hks : ∀ k ∈ ks, ∀ x, k.holder = some x → ∃ k' ∈ ks, k'.object = x) :
    ∀ k ∈ ks, k ∈ lasting hs := by
  fun_induction lasting hs with
  | case1 hs next _ ih =>
    refine ih fun k hk => List.mem_filter.2 ⟨hsub k hk, isBacked_objects_iff.2 fun x hx => ?_⟩
    obtain ⟨k', hk', rfl⟩ := hks k hk x hx
    exact ⟨k', hsub k' hk', rfl⟩
  | case2 hs next _ => exact hsub

end Holding

end CancelableEffects
