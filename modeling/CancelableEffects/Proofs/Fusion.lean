import CancelableEffects.Proofs.Segments

/-!
# Fusion — how transformations are fused into layers

* `Transforms`: transformations in order. The first panic skips the rest, and an error skips all.
* `Prog.mapAll`, `Prog.mapEach`: a program with many transformations, in fused layers or in one layer for each.
* **`Prog.mapAll_same`**, **`Prog.stops_mapAll_iff`**: they do the same, and are stopped where the source is.
* **`Prog.ends_mapEach_iff`**: how they end.
* `Prog.Layers`, **`Prog.Layers.mapAll`**: how many transformations there are in each layer.
* **`Prog.map_fusion_invisible`**: all this.
-/

namespace CancelableEffects

/-- A transformation of the value of a program. -/
abbrev Transformation := Value → Code Prog Value

/-- The transformations in order, as one. -/
def Transformation.inTurn : List Transformation → Transformation
  | [] => .ret
  | f :: fs => fun v => (f v).bind (inTurn fs)

theorem Transformation.inTurn_append (fs gs : List Transformation) (v : Value) :
    inTurn (fs ++ gs) v = (inTurn fs v).bind (inTurn gs) := by
  induction fs generalizing v with
  | nil => rfl
  | cons f fs ih =>
    have hrest : inTurn (fs ++ gs) = fun w => (inTurn fs w).bind (inTurn gs) := funext ih
    rw [List.cons_append, inTurn, hrest, inTurn, Code.bind_assoc]

theorem Transformation.inTurn_singleton (f : Transformation) : inTurn [f] = f :=
  funext fun v => Code.bind_ret (f v)

/-! ## What transformations do -/

/-- With these acts the transformations, one after the other, make a result of another one. -/
inductive Transforms : List Transformation → Result → List Act → Result → Prop
  | done (r : Result) : Transforms [] r [] r
  /-- An error skips all. -/
  | skips (fs : List Transformation) (e : Error) : Transforms fs (.error e) [] (.error e)
  | returns {f : Transformation} {fs : List Transformation} {v w : Value} {as bs : List Act} {r : Result}
    (h : (f v).Performs as (.ok w)) (h' : Transforms fs (.ok w) bs r) : Transforms (f :: fs) (.ok v) (as ++ bs) r
  /-- A panic is an error, and skips the rest. -/
  | panics {f : Transformation} {fs : List Transformation} {v : Value} {as : List Act} {m : String}
    (h : (f v).Performs as (.error m)) : Transforms (f :: fs) (.ok v) as (.error (.panic m))

section Transforms

open Strand

variable {link : Link} {as : List Act} {r r' : Result} {f : Transformation} {fs : List Transformation}

/-- A strand that calls the closure of a transformation ends as that does. -/
theorem ends_mapping_iff {c : Code Prog Value} : (Strand.mk (.mapping c) link []).Ends as r ↔
    ∃ o, c.Performs as o ∧ .mapped o = Stage.handing r := by
  have hends : ∀ o as, (Strand.mk (.mapped o) link []).Ends as r ↔ as = [] ∧ .mapped o = Stage.handing r :=
    fun o as => by cases o <;> simp [Stage.mapped, ends_handing_nil_iff, eq_comm]
  simp only [Stage.mapping_calling.ends_iff, hends]
  constructor
  · rintro ⟨o, as₁, _, rfl, h, rfl, ho⟩
    exact ⟨o, by rwa [List.append_nil], ho⟩
  · rintro ⟨o, h, ho⟩
    exact ⟨o, as, [], (List.append_nil as).symm, h, rfl, ho⟩

/-- A frame that transforms. -/
theorem ends_map_frame_iff : (Strand.mk (.handing r) link [.map f]).Ends as r' ↔ Transforms [f] r as r' := by
  rw [ends_iff_of_silent (hands rfl r)]
  cases r with
  | error e =>
    refine ends_handing_nil_iff.trans ⟨?_, fun h => ?_⟩
    · rintro ⟨rfl, rfl⟩
      exact .skips _ e
    · cases h
      exact ⟨rfl, rfl⟩
  | ok v =>
    refine ends_mapping_iff.trans ⟨?_, fun h => ?_⟩
    · rintro ⟨o, h, hr⟩
      cases o with
      | error m =>
        cases hr
        exact .panics h
      | ok w =>
        cases hr
        exact List.append_nil as ▸ .returns h (.done _)
    · cases h with
      | returns h h' =>
        cases h'
        exact ⟨_, by rwa [List.append_nil], rfl⟩
      | panics h => exact ⟨_, h, rfl⟩

/-- An error skips all. -/
theorem transforms_error_iff {e : Error} : Transforms fs (.error e) as r ↔ as = [] ∧ r = .error e := by
  constructor
  · intro h
    cases h <;> exact ⟨rfl, rfl⟩
  · rintro ⟨rfl, rfl⟩
    exact .skips fs e

theorem transforms_cons_iff : Transforms (f :: fs) r as r' ↔
    ∃ r₁ as₁ as₂, as = as₁ ++ as₂ ∧ Transforms [f] r as₁ r₁ ∧ Transforms fs r₁ as₂ r' := by
  constructor
  · intro h
    cases h with
    | skips _ e => exact ⟨_, [], [], rfl, .skips _ e, .skips _ e⟩
    | @returns _ _ v w as bs _ h h' => exact ⟨_, as, bs, rfl, List.append_nil as ▸ .returns h (.done _), h'⟩
    | panics h => exact ⟨_, as, [], (List.append_nil as).symm, .panics h, .skips _ _⟩
  · rintro ⟨r₁, as₁, as₂, rfl, h, h'⟩
    cases h with
    | skips _ e =>
      obtain ⟨rfl, rfl⟩ := transforms_error_iff.1 h'
      exact .skips _ e
    | returns h hdone =>
      cases hdone
      rw [List.append_nil]
      exact .returns h h'
    | panics h =>
      obtain ⟨rfl, rfl⟩ := transforms_error_iff.1 h'
      rw [List.append_nil]
      exact .panics h

/-- All that the strand does is to transform a result. -/
def Strand.Transforming (x : Strand) : Prop :=
  ((∃ r, x.stage = .handing r) ∨ ∃ c, x.stage = .mapping c) ∧ ∀ g ∈ x.stack, ∃ f, g = .map f

theorem Strand.Transforming.does {x y : Strand} (h : x.Transforming) (hdoes : x.Does as y) : y.Transforming := by
  obtain ⟨s, link, stack⟩ := x
  obtain ⟨hstage, hstack⟩ := h
  dsimp only at hstage hstack
  obtain ⟨r, rfl⟩ | ⟨c, rfl⟩ := hstage
  · cases hdoes with
    | @turns e σ t rest ht => cases ht with
      | handing r g _ hcons =>
        have hcons : stack = g :: rest := hcons
        subst hcons
        obtain ⟨f, rfl⟩ := hstack g (.head _)
        have hrest : ∀ g ∈ rest, ∃ f, g = .map f := fun g hg => hstack g (.tail _ hg)
        cases r with
        | ok v => exact ⟨.inr ⟨_, rfl⟩, hrest⟩
        | error e => exact ⟨.inl ⟨_, rfl⟩, hrest⟩
    | gets hb => cases hb
  · cases hdoes with
    | turns ht => cases ht with
      | mapping c =>
        refine ⟨?_, hstack⟩
        simp only [Strand.next, Code.turn]
        split
        · rename_i o _
          cases o with
          | ok w => exact .inl ⟨_, rfl⟩
          | error m => exact .inl ⟨_, rfl⟩
        · exact .inr ⟨_, rfl⟩
    | gets hb => cases hb

/-- It never looks at a connection. -/
theorem not_stops_of_transforming {x : Strand} {c : ConnectionId} (h : x.Transforming) : ¬x.Stops as c := by
  rintro ⟨n, fs, hcomes⟩
  obtain ⟨⟨r, hr⟩ | ⟨c, hc⟩, -⟩ := hcomes.invariant (fun h hdoes => h.does hdoes) h
  · cases hr
  · cases hc

end Transforms

/-! ## Programs with many transformations -/

namespace Prog

open Strand

/-- The program with the transformations, added one after the other. -/
def mapAll (p : Prog) (fs : List Transformation) : Prog := fs.foldl map p

/-- The program with a layer for each transformation. -/
def mapEach (p : Prog) (fs : List Transformation) : Prog := fs.foldl (fun q f => mapped q f 0) p

/-- The program is the source below these layers of transformations, and a layer has as many of them as it
counts, one and those added to it, of which there are at most `maxFusion`. A layer lies on a full one. -/
inductive Layers (source : Prog) : List (List Transformation) → Prog → Prop
  | source : Layers source [] source
  | layer {ls : List (List Transformation)} {p : Prog} {fs : List Transformation} {fused : Nat}
    (h : Layers source ls p) (hfull : ∀ n, p.fused? = some n → n = maxFusion) (hlength : fs.length = fused + 1)
    (hmax : fused ≤ maxFusion) : Layers source (ls ++ [fs]) (mapped p (Transformation.inTurn fs) fused)

section Fusion

variable {p q source : Prog} {f : Transformation} {fs : List Transformation} {fused : Nat} {link : Link}
  {as : List Act} {r : Result} {c : ConnectionId} {ls : List (List Transformation)}

/-! ### They do the same -/

theorem mapped_begins (p : Prog) (f : Transformation) (fused : Nat) : (mapped p f fused).Begins p [.map f] :=
  fun _ _ => looks rfl

theorem Same.mapped (h : p.Same q) (f : Transformation) (fused : Nat) :
    (mapped p f fused).Same (mapped q f fused) := fun link below =>
  (h link (.map f :: below)).of_rest (mapped_begins p f fused link below) (mapped_begins q f fused link below)

/-- A transformation that is fused with others does what it does in a layer of its own. -/
theorem map_same_mapped (p : Prog) (f : Transformation) : (p.map f).Same (.mapped p f 0) :=
  fun link below => (map_same p f link below).trans (mapped_same p f 0 link below).symm

theorem Same.mapEach (h : p.Same q) (fs : List Transformation) : (p.mapEach fs).Same (q.mapEach fs) := by
  induction fs generalizing p q with
  | nil => exact h
  | cons f fs ih => exact ih (h.mapped f 0)

/-- **Fused layers do what one layer for each transformation does.** -/
theorem mapAll_same (p : Prog) (fs : List Transformation) : (p.mapAll fs).Same (p.mapEach fs) := by
  induction fs generalizing p with
  | nil => exact fun _ _ => .refl _
  | cons f fs ih => exact fun link below =>
    (ih (p.map f) link below).trans ((map_same_mapped p f).mapEach fs link below)

/-! ### They are stopped where the source is -/

theorem stops_mapped_iff : (mapped p f fused).Stops link as c ↔ p.Stops link as c := by
  have hsource : (Strand.mk (.looking (.program p)) link [.map f]).Stops as c ↔ p.Stops link as c := by
    refine stops_program_iff.trans ⟨?_, .inl⟩
    rintro (h | ⟨r, as₁, as₂, -, -, h⟩)
    · exact h
    · exact absurd h (not_stops_of_transforming ⟨.inl ⟨r, rfl⟩, fun g hg => ⟨f, List.mem_singleton.1 hg⟩⟩)
  rw [← hsource]
  constructor
  · rintro ⟨n, fs, h⟩
    cases h with
    | here => exact ⟨_, _, .here⟩
    | goesOn hdoes hcomes =>
      cases hdoes with
      | turns ht => cases ht with
        | looking n' hc => exact ⟨n, fs, hcomes⟩
      | gets hb => cases hb
  · rintro ⟨n, fs, h⟩
    exact ⟨n, fs, (mapped_begins p f fused link []).silently h⟩

theorem stops_map_iff : (p.map f).Stops link as c ↔ p.Stops link as c := by
  cases p with
  | mapped source g fused =>
    simp only [map]
    split
    · rw [stops_mapped_iff, stops_mapped_iff]
    · exact stops_mapped_iff
  | _ => exact stops_mapped_iff

/-- **Fused layers are stopped where the source is.** -/
theorem stops_mapAll_iff : (p.mapAll fs).Stops link as c ↔ p.Stops link as c := by
  induction fs generalizing p with
  | nil => rfl
  | cons f fs ih => exact (ih (p := p.map f)).trans stops_map_iff

theorem stops_mapEach_iff : (p.mapEach fs).Stops link as c ↔ p.Stops link as c := by
  induction fs generalizing p with
  | nil => rfl
  | cons f fs ih => exact (ih (p := .mapped p f 0)).trans stops_mapped_iff

theorem mapAll_interchangeable (p : Prog) (fs : List Transformation) :
    (p.mapAll fs).Interchangeable (p.mapEach fs) :=
  (mapAll_same p fs).interchangeable fun _ _ _ => stops_mapAll_iff.trans stops_mapEach_iff.symm

/-! ### How they end -/

theorem ends_mapped_iff : (mapped p f fused).Ends link as r ↔
    ∃ r₁ as₁ as₂, as = as₁ ++ as₂ ∧ p.Ends link as₁ r₁ ∧ Transforms [f] r₁ as₂ r := by
  simp only [(mapped_begins p f fused).ends_iff, ends_map_frame_iff]

/-- **With a layer for each transformation, the source comes first, and then the transformations in order.** -/
theorem ends_mapEach_iff : (p.mapEach fs).Ends link as r ↔
    ∃ r₁ as₁ as₂, as = as₁ ++ as₂ ∧ p.Ends link as₁ r₁ ∧ Transforms fs r₁ as₂ r := by
  induction fs generalizing p with
  | nil =>
    constructor
    · exact fun h => ⟨r, as, [], (List.append_nil as).symm, h, .done r⟩
    · rintro ⟨r₁, as₁, as₂, rfl, h, h'⟩
      have hdone : as₂ = [] ∧ r = r₁ := by cases h' <;> exact ⟨rfl, rfl⟩
      obtain ⟨rfl, rfl⟩ := hdone
      rwa [List.append_nil]
  | cons f fs ih =>
    refine (ih (p := .mapped p f 0)).trans ?_
    constructor
    · rintro ⟨r₂, as₂, bs, rfl, h, h'⟩
      obtain ⟨r₁, as₁, as₂, rfl, h, hf⟩ := ends_mapped_iff.1 h
      exact ⟨r₁, as₁, as₂ ++ bs, List.append_assoc .., h, transforms_cons_iff.2 ⟨r₂, as₂, bs, rfl, hf, h'⟩⟩
    · rintro ⟨r₁, as₁, as₂, rfl, h, h'⟩
      obtain ⟨r₂, as₂, bs, rfl, hf, h'⟩ := transforms_cons_iff.1 h'
      exact ⟨r₂, as₁ ++ as₂, bs, (List.append_assoc ..).symm, ends_mapped_iff.2 ⟨r₁, as₁, as₂, rfl, h, hf⟩, h'⟩

/-! ### Layers -/

/-- One more transformation joins the top layer, or begins a new one on it. -/
theorem Layers.map (h : Layers source ls p) (hsource : source.fused? = none) (f : Transformation) :
    ∃ ls', Layers source ls' (p.map f) ∧ ls'.flatten = ls.flatten ++ [f] := by
  have hbegins (hfull : ∀ n, p.fused? = some n → n = maxFusion) :
      ∃ ls', Layers source ls' (.mapped p f 0) ∧ ls'.flatten = ls.flatten ++ [f] :=
    by
    have hlayer : Layers source (ls ++ [[f]]) (.mapped p (Transformation.inTurn [f]) 0) :=
      h.layer hfull rfl (Nat.zero_le _)
    rw [Transformation.inTurn_singleton] at hlayer
    exact ⟨ls ++ [[f]], hlayer, by simp⟩
  cases h with
  | source =>
    cases p with
    | mapped => cases hsource
    | _ => exact hbegins nofun
  | @layer ls p fs fused h hfull hlength hmax =>
    simp only [Prog.map]
    split
    · rename_i hroom
      refine ⟨ls ++ [fs ++ [f]], ?_, by simp⟩
      have hlayer : Layers source (ls ++ [fs ++ [f]]) (.mapped p (Transformation.inTurn (fs ++ [f])) (fused + 1)) :=
        h.layer hfull (by rw [List.length_append, hlength]; rfl) hroom
      have hfuses : Transformation.inTurn (fs ++ [f]) = fun v => (Transformation.inTurn fs v).bind f :=
        funext fun v => by rw [Transformation.inTurn_append, Transformation.inTurn_singleton]
      rwa [hfuses] at hlayer
    · rename_i hroom
      refine hbegins fun n hn => ?_
      cases hn
      exact Nat.le_antisymm hmax (Nat.le_of_not_lt hroom)

/-- **No layer has more transformations than it may have**, and none is lost or moved. -/
theorem Layers.mapAll (h : Layers source ls p) (hsource : source.fused? = none) (fs : List Transformation) :
    ∃ ls', Layers source ls' (p.mapAll fs) ∧ ls'.flatten = ls.flatten ++ fs := by
  induction fs generalizing ls p with
  | nil => exact ⟨ls, h, (List.append_nil _).symm⟩
  | cons f fs ih =>
    obtain ⟨ls', h', hflatten⟩ := h.map hsource f
    obtain ⟨ls'', h'', hflatten'⟩ := ih h'
    exact ⟨ls'', h'', by rw [hflatten', hflatten, List.append_assoc]; rfl⟩

/-! ### All of it -/

/-- **Fusion is invisible.** For every source and every list of transformations, whatever they do and wherever
one panics, the program to which they were added one after the other and the one with a layer for each of them
behave alike under any connection, and end as the source does and the transformations make of it, in order. The
first panic skips the rest, and an error of the source skips all. In each layer above a source that is none there
is one transformation and those that the layer counts, at most `maxFusion`, and all layers together hold those
that were added, in order. -/
theorem map_fusion_invisible (p : Prog) (fs : List Transformation) :
    (p.mapAll fs).Interchangeable (p.mapEach fs) ∧
      (∀ link as r, (p.mapAll fs).Ends link as r ↔
        ∃ r₁ as₁ as₂, as = as₁ ++ as₂ ∧ p.Ends link as₁ r₁ ∧ Transforms fs r₁ as₂ r) ∧
      ∀ source ls, source.fused? = none → Layers source ls p →
        ∃ ls', Layers source ls' (p.mapAll fs) ∧ ls'.flatten = ls.flatten ++ fs :=
  ⟨mapAll_interchangeable p fs, fun _ _ _ => (mapAll_same p fs).ends_iff.trans ends_mapEach_iff,
    fun _ _ hsource h => h.mapAll hsource fs⟩

/-- Of forty transformations of a value the thirty-sixth one panics. They are in two layers, and the program ends
with the panic as an error. -/
theorem forty_maps_with_panic : ∃ fs : List Transformation, fs.length = 40 ∧
    ((pure .unit).mapAll fs).fused? = some 7 ∧ ((pure .unit).mapAll fs).Ends none [] (.error (.panic "boom")) ∧
      ∃ ls', Layers (pure .unit) ls' ((pure .unit).mapAll fs) ∧ ls'.flatten = fs := by
  have hpanics : ∀ n, Transforms (List.replicate n .ret ++ (fun _ => .panic "boom") :: List.replicate 4 .ret)
      (.ok .unit) [] (.error (.panic "boom")) := fun n => by
    induction n with
    | zero => exact .panics (.panics "boom")
    | succ n ih => exact .returns (.returns .unit) ih
  obtain ⟨-, hends, hlayers⟩ := map_fusion_invisible (pure .unit)
    (List.replicate 35 .ret ++ (fun _ => .panic "boom") :: List.replicate 4 .ret)
  exact ⟨_, rfl, rfl, (hends none [] _).2 ⟨.ok .unit, [], [], rfl, ⟨none, looks rfl⟩, hpanics 35⟩,
    hlayers _ _ rfl .source⟩

end Fusion

end Prog

end CancelableEffects
