import TensorGraph.Backend.BuiltIn
import TensorGraph.Engine.Registry

/-!
The engine holds a module, a backend and the functions that this backend compiled.
Installing a backend, whatever its kind, drops every compiled function.
-/

namespace TensorGraph

structure Engine where
  registry : Registry
  backend : Backend
  /-- Whether the engine answers for the backend, or its supplier does. -/
  ownsBackend : Bool
  module : Module

inductive Engine.State where
  | fresh
  | compiled
  deriving DecidableEq, Repr

def Engine.State.name : Engine.State → String
  | fresh => "fresh"
  | compiled => "compiled"

/-- Compiling changes the engine and, by folding constants, may add to the store. -/
abbrev Compiling := EStateM Error (Engine × Store)

namespace Engine

/-- An engine with an empty module and a fresh backend. -/
def new (kind : BackendKind) (module : ModuleId) : Engine :=
  ⟨.empty, .ofKind kind, true, .empty module⟩

def installBackend (e : Engine) (backend : Backend) (owned : Bool) : Engine :=
  { e with registry := .empty, backend := backend, ownsBackend := owned }

/-- Installs a fresh backend that the engine owns. -/
def setBackend (e : Engine) (kind : BackendKind) : Engine := e.installBackend (.ofKind kind) true

def state (e : Engine) : Engine.State := if e.registry.isEmpty then .fresh else .compiled

/-- Optimizes a function of the module in place. -/
def optimizeFunction (name : String) (mode : Mode) : Compiling Function :=
  fun (e, σ) =>
    match e.module.function name with
    | .error err => .error err (e, σ)
    | .ok f =>
      match f.optimize mode σ with
      | .error err σ => .error (err.whileCompiling name) (e, σ)
      | .ok (f, _) σ => .ok f ({ e with module := e.module.setFunction name f }, σ)

/-- Compiles with a backend; a failure names the function. -/
def compileWith (backend : Backend) (name : String) (f : Function) (mode : Mode) :
    Except Error Executable :=
  (backend.compile f mode).mapError (·.whileCompiling name)

/-- Optimizes the function `name` in place, compiles it and registers the result. With
`clearOthers` all compiled functions are dropped first, even if compiling then fails. -/
def compile (mode : Mode) (name : String) (clearOthers : Bool) : Compiling Unit := do
  if clearOthers then modify fun (e, σ) => ({ e with registry := .empty }, σ)
  let f ← optimizeFunction name mode
  let compiled ← compileWith (← get).1.backend name f mode
  modify fun (e, σ) => ({ e with registry := e.registry.insert name compiled }, σ)

/-- Writes a bundle of an optimized copy of the function `name`. -/
def save (e : Engine) (σ : Store) (mode : Mode) (name : String)
    (directory : Path) (network : String) : Export Unit := do
  if !e.backend.supportsBundles then
    throw (.error (.bundleUnsupported e.backend.kind.name))
  let f ← e.module.function name
  match f.optimize mode σ with
  | .error err _ => throw (.error (err.whileCompiling name))
  | .ok (f, _) σ => e.backend.save σ f mode directory network

def execute (f : Executable) : Run Unit := f.execute.adaptExcept (·.whileRunning f.name)

def run (e : Engine) : Run Unit := do execute (← e.registry.lookupSole)

def runNamed (e : Engine) (name : String) : Run Unit := do execute (← e.registry.lookup name)

end Engine
end TensorGraph
