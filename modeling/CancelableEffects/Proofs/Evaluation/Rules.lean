import CancelableEffects.Proofs.Evaluation.Effect

/-!
# Rules — what a program means, apart from the loop that interprets it

* `Code.Runs`: a closure returns or panics after some moves; what it launches, answers or registers
  is carried out by the machine meanwhile.
* `Phrase`: what has a meaning: a stage of a loop, a frame that receives a result, and frames.
* `Evaluates`: the big-step semantics, with cancellation disabled. The nodes and frames of the core
  have rules of their own; any other one has the meaning of what it turns into.
-/

namespace CancelableEffects

/-- The closure `c` returns or panics after the moves `L`. -/
inductive Code.Runs {α : Type} :
    Code Prog α → Store → List Effect → Store → Except String α → Prop
  | ret (a : α) (σ : Store) : Runs (.ret a) σ [] σ (.ok a)
  | panic (m : String) (σ : Store) : Runs (.panic m) σ [] σ (.error m)
  | move {c c' : Code Prog α} {σ σ₁ σ₂ σ' : Store} {calls : List Activity} {L₁ L₂ : List Effect}
      {o : Except String α} :
      c.move σ = ((σ₁, calls), .inr c') → Machine.Returns σ₁ calls L₁ σ₂ → Runs c' σ₂ L₂ σ' o →
      Runs c σ (c.effect?.toList ++ (L₁ ++ L₂)) σ' o

/-- What has a meaning. -/
inductive Phrase where
  /-- What a loop is busy with. -/
  | stage (s : Stage)
  /-- A frame receives a result. -/
  | frame (f : Frame) (r : Result)
  /-- Frames receive a result, the top one first. -/
  | frames (fs : List Frame) (r : Result)

namespace Phrase

/-- A program. -/
abbrev program (p : Prog) : Phrase := stage (.looking (.program p))

/-- A closure that computes the next program. -/
abbrev closure (c : Code Prog Prog) : Phrase := stage (.suspending c)

end Phrase

/-- The program is built from a node of the core and has a rule of its own. -/
def Prog.core : Prog → Bool
  | .pure _ | .raise _ | .delay _ | .suspend _ | .bind _ _ | .mapped _ _ _ | .recover _ _
  | .fold _ _ _ | .uncancelable _ | .iterate _ _ => true
  | _ => false

/-- The node is a program of the core or a result. -/
def Node.core : Node → Bool
  | .program p => p.core
  | .result _ => true
  | _ => false

/-- The frame belongs to a node of the core. -/
def Frame.core : Frame → Bool
  | .map _ | .bind _ | .recover _ | .fold _ _ | .iterate _ => true
  | _ => false

/-- **The big-step semantics.** In the execution `e`, with cancellation disabled, a phrase comes to
the result `r` after the moves `L`. -/
inductive Evaluates (e : ExecutionId) :
    Phrase → Store → List Effect → Store → Result → Prop
  -- programs
  | pure (v : Value) (σ : Store) : Evaluates e (.program (.pure v)) σ [] σ (.ok v)
  | raise (x : Error) (σ : Store) : Evaluates e (.program (.raise x)) σ [] σ (.error x)
  | delay {c : Code Prog (Except Error Value)} {σ σ' : Store} {L : List Effect} {r : Result} :
      Evaluates e (.stage (.delaying c)) σ L σ' r → Evaluates e (.program (.delay c)) σ L σ' r
  | suspend {c : Code Prog Prog} {σ σ' : Store} {L : List Effect} {r : Result} :
      Evaluates e (.closure c) σ L σ' r → Evaluates e (.program (.suspend c)) σ L σ' r
  | bind {p : Prog} {f : Value → Code Prog Prog} {σ σ₁ σ' : Store} {L₁ L₂ : List Effect}
      {r₁ r : Result} :
      Evaluates e (.program p) σ L₁ σ₁ r₁ → Evaluates e (.frame (.bind f) r₁) σ₁ L₂ σ' r →
      Evaluates e (.program (.bind p f)) σ (L₁ ++ L₂) σ' r
  | mapped {p : Prog} {f : Value → Code Prog Value} {n : Nat} {σ σ₁ σ' : Store}
      {L₁ L₂ : List Effect} {r₁ r : Result} :
      Evaluates e (.program p) σ L₁ σ₁ r₁ → Evaluates e (.frame (.map f) r₁) σ₁ L₂ σ' r →
      Evaluates e (.program (.mapped p f n)) σ (L₁ ++ L₂) σ' r
  | recover {p : Prog} {h : Error → Code Prog Prog} {σ σ₁ σ' : Store} {L₁ L₂ : List Effect}
      {r₁ r : Result} :
      Evaluates e (.program p) σ L₁ σ₁ r₁ → Evaluates e (.frame (.recover h) r₁) σ₁ L₂ σ' r →
      Evaluates e (.program (.recover p h)) σ (L₁ ++ L₂) σ' r
  | fold {p : Prog} {h : Error → Code Prog Prog} {f : Value → Code Prog Prog} {σ σ₁ σ' : Store}
      {L₁ L₂ : List Effect} {r₁ r : Result} :
      Evaluates e (.program p) σ L₁ σ₁ r₁ → Evaluates e (.frame (.fold h f) r₁) σ₁ L₂ σ' r →
      Evaluates e (.program (.fold p h f)) σ (L₁ ++ L₂) σ' r
  | uncancelable {p : Prog} {σ σ' : Store} {L : List Effect} {r : Result} :
      Evaluates e (.program p) σ L σ' r → Evaluates e (.program (.uncancelable p)) σ L σ' r
  | iterate {seed : Value} {f : Value → Code Prog Prog} {σ σ₁ σ' : Store} {L₁ L₂ : List Effect}
      {r₁ r : Result} :
      Evaluates e (.closure (f seed)) σ L₁ σ₁ r₁ →
      Evaluates e (.frame (.iterate f) r₁) σ₁ L₂ σ' r →
      Evaluates e (.program (.iterate seed f)) σ (L₁ ++ L₂) σ' r
  -- closures
  | computes {c : Code Prog (Except Error Value)} {σ σ' : Store} {L : List Effect} {r : Result} :
      c.Runs σ L σ' (.ok r) → Evaluates e (.stage (.delaying c)) σ L σ' r
  | computePanics {c : Code Prog (Except Error Value)} {m : String} {σ σ' : Store}
      {L : List Effect} :
      c.Runs σ L σ' (.error m) → Evaluates e (.stage (.delaying c)) σ L σ' (.error (.panic m))
  | transforms {c : Code Prog Value} {v : Value} {σ σ' : Store} {L : List Effect} :
      c.Runs σ L σ' (.ok v) → Evaluates e (.stage (.mapping c)) σ L σ' (.ok v)
  | transformPanics {c : Code Prog Value} {m : String} {σ σ' : Store} {L : List Effect} :
      c.Runs σ L σ' (.error m) → Evaluates e (.stage (.mapping c)) σ L σ' (.error (.panic m))
  | returns {c : Code Prog Prog} {p : Prog} {σ σ₁ σ' : Store} {L₁ L₂ : List Effect} {r : Result} :
      c.Runs σ L₁ σ₁ (.ok p) → Evaluates e (.program p) σ₁ L₂ σ' r →
      Evaluates e (.closure c) σ (L₁ ++ L₂) σ' r
  | panics {c : Code Prog Prog} {m : String} {σ σ' : Store} {L : List Effect} :
      c.Runs σ L σ' (.error m) → Evaluates e (.closure c) σ L σ' (.error (.panic m))
  -- frames
  | mapOk {f : Value → Code Prog Value} {v : Value} {σ σ' : Store} {L : List Effect}
      {r : Result} :
      Evaluates e (.stage (.mapping (f v))) σ L σ' r →
      Evaluates e (.frame (.map f) (.ok v)) σ L σ' r
  | mapSkip (f : Value → Code Prog Value) (x : Error) (σ : Store) :
      Evaluates e (.frame (.map f) (.error x)) σ [] σ (.error x)
  | bindOk {f : Value → Code Prog Prog} {v : Value} {σ σ' : Store} {L : List Effect}
      {r : Result} :
      Evaluates e (.closure (f v)) σ L σ' r → Evaluates e (.frame (.bind f) (.ok v)) σ L σ' r
  | bindSkip (f : Value → Code Prog Prog) (x : Error) (σ : Store) :
      Evaluates e (.frame (.bind f) (.error x)) σ [] σ (.error x)
  | recoverError {h : Error → Code Prog Prog} {x : Error} {σ σ' : Store} {L : List Effect}
      {r : Result} :
      Evaluates e (.closure (h x)) σ L σ' r →
      Evaluates e (.frame (.recover h) (.error x)) σ L σ' r
  | recoverSkip (h : Error → Code Prog Prog) (v : Value) (σ : Store) :
      Evaluates e (.frame (.recover h) (.ok v)) σ [] σ (.ok v)
  | foldOk {h : Error → Code Prog Prog} {f : Value → Code Prog Prog} {v : Value} {σ σ' : Store}
      {L : List Effect} {r : Result} :
      Evaluates e (.closure (f v)) σ L σ' r → Evaluates e (.frame (.fold h f) (.ok v)) σ L σ' r
  | foldError {h : Error → Code Prog Prog} {f : Value → Code Prog Prog} {x : Error}
      {σ σ' : Store} {L : List Effect} {r : Result} :
      Evaluates e (.closure (h x)) σ L σ' r →
      Evaluates e (.frame (.fold h f) (.error x)) σ L σ' r
  | iterateAgain {f : Value → Code Prog Prog} {v : Value} {σ σ₁ σ' : Store}
      {L₁ L₂ : List Effect} {r₁ r : Result} :
      Evaluates e (.closure (f v)) σ L₁ σ₁ r₁ →
      Evaluates e (.frame (.iterate f) r₁) σ₁ L₂ σ' r →
      Evaluates e (.frame (.iterate f) (.ok (.left v))) σ (L₁ ++ L₂) σ' r
  | iterateDone (f : Value → Code Prog Prog) (v : Value) (σ : Store) :
      Evaluates e (.frame (.iterate f) (.ok (.right v))) σ [] σ (.ok v)
  | iterateSkip (f : Value → Code Prog Prog) {r : Result} (σ : Store) :
      (∀ v, r ≠ .ok (.left v)) → (∀ v, r ≠ .ok (.right v)) →
      Evaluates e (.frame (.iterate f) r) σ [] σ r
  | nil (r : Result) (σ : Store) : Evaluates e (.frames [] r) σ [] σ r
  | cons {f : Frame} {fs : List Frame} {σ σ₁ σ' : Store} {L₁ L₂ : List Effect}
      {r₀ r₁ r : Result} :
      Evaluates e (.frame f r₀) σ L₁ σ₁ r₁ → Evaluates e (.frames fs r₁) σ₁ L₂ σ' r →
      Evaluates e (.frames (f :: fs) r₀) σ (L₁ ++ L₂) σ' r
  -- everything else
  | handing (r : Result) (σ : Store) : Evaluates e (.stage (.handing r)) σ [] σ r
  | result (r : Result) (σ : Store) : Evaluates e (.stage (.looking (.result r))) σ [] σ r
  | completed {b : BoundaryId} {σ : Store} {r : Result} :
      σ.boundary? b = some (.ready r) →
      Evaluates e (.stage (.leaving b)) σ [] (σ.setBoundary b .resumed) r
  | node {n : Node} {σ σ₁ σ₂ σ' : Store} {L₁ L₂ L₃ : List Effect} {r₁ r : Result} :
      n.core = false →
      Machine.Returns (n.step e none σ).store (n.step e none σ).calls L₁ σ₁ →
      Evaluates e (.stage (n.step e none σ).stage) σ₁ L₂ σ₂ r₁ →
      Evaluates e (.frames (n.step e none σ).frames r₁) σ₂ L₃ σ' r →
      Evaluates e (.stage (.looking n)) σ (L₁ ++ (L₂ ++ L₃)) σ' r
  | frame {f : Frame} {r₀ r₁ r : Result} {σ σ₁ σ₂ σ' : Store} {L₁ L₂ L₃ : List Effect} :
      f.core = false → (f.resume r₀ none σ).link = none →
      Machine.Returns (f.resume r₀ none σ).store (f.resume r₀ none σ).calls L₁ σ₁ →
      Evaluates e (.stage (f.resume r₀ none σ).stage) σ₁ L₂ σ₂ r₁ →
      Evaluates e (.frames (f.resume r₀ none σ).frames r₁) σ₂ L₃ σ' r →
      Evaluates e (.frame f r₀) σ (L₁ ++ (L₂ ++ L₃)) σ' r

end CancelableEffects
