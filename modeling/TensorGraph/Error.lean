import TensorGraph.Graph.OpKind
import TensorGraph.Tensor.Type

/-!
What can go wrong, by cause. `Error.message` is the one place that words a cause.
-/

namespace TensorGraph

/-- Why the inputs of a batch run do not fit its placeholders. -/
inductive BatchFault where
  | placeholderIsScalar
  | widthDiffers (leading width : Nat)
  | inputIsScalar
  | sampleDiffers (input placeholder : List Nat)
  | notAMultiple (batch width : Nat)
  | other (text : String)
  deriving DecidableEq, Repr

/-- Why a bundle was not written. -/
inductive BundleFault where
  | networkName
  | cannotCreate (path : String)
  | cannotWrite (path : String)
  | other (text : String)
  deriving DecidableEq, Repr

inductive Error where
  /-- An empty name stands for the only function. -/
  | noSuchFunction (name : String)
  | ambiguousFunction (names : List String)
  | compilation (function : String) (cause : Error)
  | execution (function : String) (cause : Error)
  | bundleUnsupported (backend : String)
  | bundle (network : String) (cause : BundleFault)
  | unknownPlaceholder (name : String)
  | unknownFunction (name : String)
  | duplicateName (name : String)
  | arityMismatch (what : String) (expected got : Nat)
  | batchShapeMismatch (placeholder : String) (cause : BatchFault)
  | unboundPlaceholder (name : String)
  | shapeMismatch (expected got : Shape)
  | elementKindMismatch (expected got : ElementKind)
  | rankMismatch (expected got : Nat)
  | dimOutOfRange (dim rank : Nat)
  | elementCountMismatch (shape : Shape) (expected got : Nat)
  | matmulShapeMismatch (rows inner inner' cols : Nat)
  | fileSystem
  | unknownElementKind (text : String)
  | unknownBackendKind (text : String)
  | tooManyDimensions (shape : Shape)
  | emptyLeadingDimension
  | missingArgument (op : OpKind) (expected got : Nat)
  | needsContext (op : OpKind) (placeholder : String)
  | noSuchNode (id : Nat) (function : String)
  | alreadySaved (placeholder function : String)
  | operandNotBefore (node : String) (id : Nat) (function : String) (operand : Nat)
  | savedTwice (placeholder function : String)
  | valueNotComputed (node : String) (operand : Nat)
  | unsupportedOperation (backend : String) (op : OpKind) (kind : ElementKind) (node : String)
  | trainingUnsupported (backend : String)
  | operandHasNoSlot (node : String) (operand : Nat)
  | emptySlot (slot : Nat)
  | cursorOverflow (cursor width : Nat)
  | truncatedWeights (path : String)
  | headerPastEnd (path : String)
  | invalidHeader (path : String)
  | other (text : String)
  /-- Arithmetic left the 64-bit words. The program stops there: no caller gets to see this. -/
  | overflow
  deriving DecidableEq, Repr

def BatchFault.message : BatchFault → String
  | placeholderIsScalar => "placeholder has no leading dimension"
  | widthDiffers leading width =>
    s!"leading dimension {leading} differs from slice width {width}"
  | inputIsScalar => "input has no leading dimension"
  | sampleDiffers input placeholder =>
    let found := Shape.render ⟨input⟩
    let expected := Shape.render ⟨placeholder⟩
    s!"input sample shape {found} does not match {expected}"
  | notAMultiple batch width =>
    s!"input batch {batch} is not a non-zero multiple of slice width {width}"
  | other text => text

def BundleFault.message : BundleFault → String
  | networkName => "network name must be a C identifier"
  | cannotCreate path => s!"cannot create {path}"
  | cannotWrite path => s!"cannot write {path}"
  | other text => text

namespace Error

def message : Error → String
  | noSuchFunction name =>
    if name.isEmpty then "no compiled function is registered"
    else s!"no compiled function named '{name}'"
  | ambiguousFunction names =>
    let listed := String.intercalate ", " names
    s!"{names.length} compiled functions are registered ({listed}), a name is required"
  | compilation function cause => s!"failed to compile '{function}': {cause.message}"
  | execution function cause => s!"execution of '{function}' failed: {cause.message}"
  | bundleUnsupported backend => s!"backend '{backend}' cannot export standalone bundles"
  | bundle network cause => s!"bundle '{network}' could not be written: {cause.message}"
  | unknownPlaceholder name => s!"unknown placeholder '{name}'"
  | unknownFunction name => s!"unknown function '{name}'"
  | duplicateName name => s!"name '{name}' is already used in module"
  | arityMismatch what expected got =>
    s!"{what}: {expected} placeholders but {got} tensors"
  | batchShapeMismatch placeholder cause =>
    s!"batch shape mismatch for placeholder '{placeholder}': {cause.message}"
  | unboundPlaceholder name => s!"placeholder '{name}' is not bound in the context"
  | shapeMismatch expected got =>
    s!"shape mismatch: expected {expected.render}, got {got.render}"
  | elementKindMismatch expected got =>
    s!"element kind mismatch: expected {expected.name}, got {got.name}"
  | rankMismatch expected got => s!"rank mismatch: expected rank {expected}, got {got}"
  | dimOutOfRange dim rank =>
    s!"dimension out of range: dim {dim} for tensor with {rank} dimensions"
  | elementCountMismatch shape expected got =>
    s!"element count mismatch: shape {shape.render} requires {expected} elements, got {got}"
  | matmulShapeMismatch m k k2 n =>
    s!"matmul shape mismatch: [{m}x{k}] @ [{k2}x{n}], inner dims must match"
  | fileSystem => ""
  | unknownElementKind text => s!"unknown element kind '{text}'"
  | unknownBackendKind text => s!"unknown backend kind '{text}'"
  | tooManyDimensions shape =>
    s!"shape {shape.render} has {shape.rank} dimensions, " ++
      s!"at most {Shape.maxRank} are supported"
  | emptyLeadingDimension => "cannot slice rows of a tensor with an empty leading dimension"
  | missingArgument op expected got => s!"{op.name} expects {expected} inputs, got {got}"
  | needsContext op placeholder =>
    s!"{op.name} of placeholder '{placeholder}' needs a context"
  | noSuchNode id function => s!"node %{id} does not exist in '{function}'"
  | alreadySaved placeholder function =>
    s!"placeholder '{placeholder}' is already saved by '{function}'"
  | operandNotBefore node id function operand =>
    s!"node '{node}' (%{id}) in '{function}' reads %{operand} which is not defined before it"
  | savedTwice placeholder function =>
    s!"placeholder '{placeholder}' is saved twice in '{function}'"
  | valueNotComputed node operand =>
    s!"node '{node}' reads value %{operand} which has not been computed"
  | unsupportedOperation backend op kind node =>
    s!"{backend} backend does not support {op.name} on {kind.name} (node '{node}')"
  | trainingUnsupported backend => s!"{backend} backend only compiles for inference"
  | operandHasNoSlot node operand => s!"node '{node}' reads %{operand} which has no slot"
  | emptySlot slot => s!"buffer slot {slot} is empty (value was freed or never produced)"
  | cursorOverflow cursor width => s!"run_batch: cursor {cursor} cannot advance by {width}"
  | truncatedWeights path => s!"{path}: truncated weights file"
  | headerPastEnd path => s!"{path}: header runs past end of file"
  | invalidHeader path => s!"{path}: invalid weights header"
  | other text => text
  | overflow => ""

/-- The error as a failure of running `function`, wrapped once. -/
def whileRunning (e : Error) (function : String) : Error :=
  match e with
  | execution .. | overflow => e
  | _ => execution function e

/-- The error as a failure of compiling `function`, wrapped once. -/
def whileCompiling (e : Error) (function : String) : Error :=
  match e with
  | compilation .. | overflow => e
  | _ => compilation function e

@[simp] theorem whileRunning_twice (e : Error) (f g : String) :
    (e.whileRunning f).whileRunning g = e.whileRunning f := by
  cases e <;> rfl

theorem whileRunning_eq_overflow {e : Error} {f : String} :
    e.whileRunning f = .overflow ↔ e = .overflow := by
  cases e <;> simp [whileRunning]

theorem whileCompiling_eq_overflow {e : Error} {f : String} :
    e.whileCompiling f = .overflow ↔ e = .overflow := by
  cases e <;> simp [whileCompiling]

@[simp] theorem whileCompiling_twice (e : Error) (f g : String) :
    (e.whileCompiling f).whileCompiling g = e.whileCompiling f := by
  cases e <;> rfl

end Error

/-- A check may stand inside a computation with state, which it leaves alone. -/
instance liftCheck {ε σ : Type} : MonadLift (Except ε) (EStateM ε σ) where
  monadLift x s :=
    match x with
    | .ok a => .ok a s
    | .error e => .error e s

namespace Shape

/-- Refuses a shape with more than `maxRank` dimensions. -/
def validate (s : Shape) : Except Error Unit :=
  if s.rank ≤ maxRank then .ok () else .error (.tooManyDimensions s)

def dim (s : Shape) (d : Nat) : Except Error Nat :=
  match s.dims[d]? with
  | some n => .ok n
  | none => .error (.dimOutOfRange d s.rank)

def leading (s : Shape) : Except Error Nat := s.dim 0

def withLeading (s : Shape) (leading : Nat) : Except Error Shape :=
  match s.withLeading? leading with
  | some t => .ok t
  | none => .error (.rankMismatch 1 0)

def matrixDims (s : Shape) : Except Error (Nat × Nat) :=
  match s.matrix? with
  | some dims => .ok dims
  | none => .error (.rankMismatch 2 s.rank)

end Shape

/-- Refuses another type; a difference in kind is reported before one in shape. -/
def TensorType.expectEq (expected got : TensorType) : Except Error Unit :=
  if expected.kind ≠ got.kind then .error (.elementKindMismatch expected.kind got.kind)
  else if expected.shape ≠ got.shape then .error (.shapeMismatch expected.shape got.shape)
  else .ok ()

theorem TensorType.expectEq_ok_iff {a b : TensorType} : a.expectEq b = .ok () ↔ a = b := by
  cases a; cases b
  simp only [expectEq]
  split
  · simp_all
  · split <;> simp_all

def ElementKind.parse (text : String) : Except Error ElementKind :=
  match ofName? text with
  | some kind => .ok kind
  | none => .error (.unknownElementKind text)

end TensorGraph
