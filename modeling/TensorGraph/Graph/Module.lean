import TensorGraph.Graph.Builder

/-!
Modules: the placeholders and functions that belong together. No two placeholders and no
two functions of a module share a name.
-/

namespace TensorGraph

structure Module where
  id : ModuleId
  placeholders : List Placeholder
  functions : List Function
  deriving DecidableEq, Repr

abbrev ModuleM := EStateM Error Module

namespace Module

def empty (id : ModuleId) : Module := ⟨id, [], []⟩

def placeholder? (m : Module) (id : PlaceholderId) : Option Placeholder :=
  m.placeholders.find? (·.id = id)

def placeholderNamed (m : Module) (name : String) : Except Error Placeholder :=
  match m.placeholders.find? (·.name = name) with
  | some p => .ok p
  | none => .error (.unknownPlaceholder name)

def function (m : Module) (name : String) : Except Error Function :=
  match m.functions.find? (·.name = name) with
  | some f => .ok f
  | none => .error (.unknownFunction name)

/-- The module with one function replaced by another version of it. -/
def setFunction (m : Module) (name : String) (f : Function) : Module :=
  { m with functions := m.functions.map fun g => if g.name = name then f else g }

def createPlaceholder (kind : ElementKind) (shape : Shape) (name : String)
    (trainable : Bool) : ModuleM Placeholder := do
  shape.validate
  let m ← get
  if m.placeholders.any (·.name = name) then throw (.duplicateName name)
  let p : Placeholder := ⟨⟨m.id, m.placeholders.length⟩, name, ⟨kind, shape⟩, trainable⟩
  set { m with placeholders := m.placeholders ++ [p] }
  return p

def createFunction (name : String) : ModuleM Unit := do
  let m ← get
  if m.functions.any (·.name = name) then throw (.duplicateName name)
  set { m with functions := m.functions ++ [Function.empty name m.id] }

/-- Takes a function out. Its placeholders stay declared. -/
def eraseFunction (name : String) : ModuleM Function := do
  let m ← get
  let f ← m.function name
  set { m with functions := m.functions.filter (·.name ≠ name) }
  return f

/-- Builds on a function. What was built before a failure stays. -/
def build (name : String) {α : Type} (steps : Builder α) : ModuleM α := fun m =>
  match m.function name with
  | .error e => .error e m
  | .ok f =>
    match steps f with
    | .ok a f => .ok a (m.setFunction name f)
    | .error e f => .error e (m.setFunction name f)

def verify (m : Module) : Except Error Unit := m.functions.forM Function.verify

end Module
end TensorGraph
