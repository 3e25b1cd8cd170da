import TensorGraph.Backend.Basic

/-!
The CPU backend: it lowers functions to tapes and exports bundles, on float kinds and for
inference only.
-/

namespace TensorGraph.Cpu

structure Config where
  /-- The output size from which a matrix product is split by rows. -/
  parallelThreshold : Nat := 4096
  /-- The alignment of every buffer in a bundle. -/
  alignment : Nat := 64
  deriving DecidableEq, Repr

namespace Config

def withParallelThreshold (c : Config) (threshold : Nat) : Config :=
  { c with parallelThreshold := max threshold 1 }

/-- Sets the alignment, rounded up to a power of two. Past `2 ^ 63` that is no word. -/
def withAlignment (c : Config) (alignment : Nat) : Except Error Config := do
  return { c with alignment := ← Word.check (max alignment 1).nextPowerOfTwo }

end Config

def supports (_ : OpKind) (kind : ElementKind) : Bool := kind.isFloat

/-- Lowers a function to a plan, for inference only. -/
def lower (f : Function) (mode : Mode) : Except Error Plan := do
  if mode.isTraining then
    throw (.compilation f.name (.trainingUnsupported BackendKind.cpu.name))
  Backend.requireSupport .cpu supports f
  (Plan.ofFunction f).mapError (·.whileCompiling f.name)

def compile (config : Config) (f : Function) (mode : Mode) :
    Except Error Executable := do
  return .tape (← lower f mode) config.parallelThreshold

def saveBundle (config : Config) (σ : Store) (f : Function) (mode : Mode)
    (directory : Path) (network : String) : Export Bundle.Written := do
  Bundle.checkNetworkName network
  let plan ← lower f mode
  Bundle.write σ plan directory network config.alignment

def backend (config : Config) : Backend where
  kind := .cpu
  supports := supports
  compile := compile config
  supportsBundles := true
  save σ f mode directory network := discard (saveBundle config σ f mode directory network)

end TensorGraph.Cpu
