import TensorGraph.Backend.Basic

/-! The interpreter as a backend: it compiles by checking support, in either mode. -/

namespace TensorGraph.Interpreter

/-- Everything but products of integer matrices. -/
def supports (op : OpKind) (kind : ElementKind) : Bool := op ≠ .matmul || kind.isFloat

def compile (f : Function) (_ : Mode) : Except Error Executable := do
  Backend.requireSupport .interpreter supports f
  return .interpreted f

def backend : Backend where
  kind := .interpreter
  supports := supports
  compile := compile

end TensorGraph.Interpreter
