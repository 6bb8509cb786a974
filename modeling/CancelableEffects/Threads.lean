import CancelableEffects.Text.Blank
import CancelableEffects.Text.Integer
import CancelableEffects.Text.Quoted

/-!
# Threads — the configuration of the threads that run effects

* `ThreadConfig`: how many threads there are, what they are called and how large their stacks are.
* `ThreadConfig.ofVariables`: the defaults with the overrides found among given variables.
* `Setting`, `ThreadConfig.set`: the setters; the two counts are at least one.
* `ThreadConfig.pool`: a pool of threads with these settings.
* `ThreadConfig.startFault?`: why the threads cannot be started under the configured name.
* `ThreadConfig.Positive`: no count is zero, whatever the configuration was made from.
-/

namespace CancelableEffects

/-- Why a variable was refused. -/
inductive ConfigError where
  | invalidNumber (name value : String)
  | emptyName (name : String)
  deriving DecidableEq, Repr

namespace ConfigError

/-- The sentence that reports the fault. -/
def message : ConfigError → String
  | invalidNumber x value => x ++ " must be a positive integer, got " ++ Text.quoted value
  | emptyName x => x ++ " must not be empty"

/-- The name of the fault. -/
def kind : ConfigError → String
  | invalidNumber _ _ => "InvalidNumber"
  | emptyName _ => "EmptyName"

/-- The variable, and the refused value where it matters. -/
def fields : ConfigError → List String
  | invalidNumber x value => [x, value]
  | emptyName x => [x]

end ConfigError

/-- The configuration of threads. -/
structure ThreadConfig where
  /-- How many workers there are; `none` stands for one for each processor. -/
  workers : Option Nat := none
  maxBlocking : Nat := 512
  name : String := "lambars-fx-worker"
  stackSize : Option Nat := none
  deriving DecidableEq, Repr

/-- A change of one setting. -/
inductive Setting where
  | workers (n : Nat)
  | maxBlocking (n : Nat)
  | name (s : String)
  | stackSize (bytes : Nat)
  deriving DecidableEq, Repr

namespace ThreadConfig

/-- The variable that overrides the number of workers. -/
def workersVariable : String := "LAMBARS_FX_WORKER_THREADS"

/-- The variable that overrides the bound on blocking threads. -/
def maxBlockingVariable : String := "LAMBARS_FX_MAX_BLOCKING_THREADS"

/-- The variable that overrides the name. -/
def nameVariable : String := "LAMBARS_FX_THREAD_NAME"

/-- Reads a count that is not zero, with blanks around it or not. -/
def parsePositive (x value : String) : Except ConfigError Nat :=
  match Integer.parseCount (Text.trim value) with
  | .ok (n + 1) => .ok (n + 1)
  | _ => .error (.invalidNumber x value)

/-- Reads a name that is not blank, without the blanks around it. -/
def parseName (x value : String) : Except ConfigError String :=
  if (Text.trim value).isEmpty then .error (.emptyName x) else .ok (Text.trim value)

/-- What the variable overrides a default with, if it is there. -/
def override {α : Type} (lookup : String → Option String)
    (parse : String → String → Except ConfigError α) (x : String) (default : α) :
    Except ConfigError α :=
  match lookup x with
  | none => .ok default
  | some value => parse x value

/-- The defaults with the overrides that the variables hold; the first refused one is reported. -/
def ofVariables (lookup : String → Option String) : Except ConfigError ThreadConfig := do
  let workers ← override lookup (fun x v => (parsePositive x v).map some) workersVariable none
  let maxBlocking ← override lookup parsePositive maxBlockingVariable 512
  let name ← override lookup parseName nameVariable "lambars-fx-worker"
  return { workers, maxBlocking, name }

/-- Changes a setting; a count of zero becomes one. -/
def set (c : ThreadConfig) : Setting → ThreadConfig
  | .workers n => { c with workers := some (max n 1) }
  | .maxBlocking n => { c with maxBlocking := max n 1 }
  | .name s => { c with name := s }
  | .stackSize bytes => { c with stackSize := some bytes }

/-- Whether the configuration is the default one; unknown when the number of workers is given, as
the number of processors is. -/
def isDefault? (c : ThreadConfig) : Option Bool :=
  match c.workers with
  | some _ => none
  | none => some (c == {})

/-- Whether no count is zero. -/
def Positive (c : ThreadConfig) : Prop := (∀ n ∈ c.workers, 0 < n) ∧ 0 < c.maxBlocking

theorem set_positive {c : ThreadConfig} (h : c.Positive) (s : Setting) : (c.set s).Positive := by
  cases s with
  | workers n =>
    refine ⟨fun m hm => ?_, h.2⟩
    simp only [set, Option.mem_def, Option.some.injEq] at hm
    omega
  | maxBlocking n => exact ⟨h.1, by simp only [set]; omega⟩
  | name s => exact h
  | stackSize bytes => exact h

end ThreadConfig

/-- Why no thread can go by the name, if so: it has a zero byte. The place of the first one and all
the bytes are reported. -/
def threadNameFault? (name : String) : Option String :=
  let bytes := name.toUTF8.toList
  (bytes.findIdx? (· == 0)).map fun i =>
    "thread name may not contain interior null bytes: NulError(" ++ toString i ++ ", [" ++
      ", ".intercalate (bytes.map toString) ++ "])"

/-- A pool that starts a thread for each task. -/
structure ThreadPool where
  name : String
  stackSize : Option Nat
  spawned : Nat := 0
  deriving DecidableEq, Repr

namespace ThreadPool

/-- Starts a thread for a task: its name carries the number of threads started before. -/
def spawn (p : ThreadPool) : ThreadPool × String :=
  ({ p with spawned := p.spawned + 1 }, p.name ++ "-" ++ toString p.spawned)

/-- Starts `n` threads, one after the other. -/
def spawnMany (p : ThreadPool) : Nat → ThreadPool × List String
  | 0 => (p, [])
  | n + 1 =>
    let (p, name) := p.spawn
    let (p, names) := p.spawnMany n
    (p, name :: names)

/-- The debug form. -/
def debug (p : ThreadPool) : String :=
  let size := match p.stackSize with
    | none => "None"
    | some n => "Some(" ++ toString n ++ ")"
  "ThreadExecutor \x7b thread_name: " ++ Text.quoted p.name ++ ", stack_size: " ++ size ++
    ", spawned: " ++ toString p.spawned ++ " \x7d"

end ThreadPool

namespace ThreadConfig

/-- The pool of threads with these settings. -/
def pool (c : ThreadConfig) : ThreadPool := ⟨c.name, c.stackSize, 0⟩

/-- Why the workers, if they are wanted, or some of `n` threads of the pool cannot be started. -/
def startFault? (c : ThreadConfig) (workers : Bool) (n : Nat) : Option String :=
  (if workers then threadNameFault? c.name else none) <|>
    (c.pool.spawnMany n).2.findSome? threadNameFault?

end ThreadConfig

end CancelableEffects
