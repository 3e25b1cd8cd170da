import TensorGraph.Engine.Basic

/-!
Batch runs: each iteration binds, for every placeholder, the next `width` rows of its
input, wrapping around, runs the only compiled function and moves the cursor on.
-/

namespace TensorGraph

structure BatchState where
  memory : Memory
  /-- The sample to start from next. -/
  cursor : Nat
  deriving DecidableEq, Repr

abbrev BatchRun := EStateM Error BatchState

instance : MonadLift Run BatchRun where
  monadLift x s :=
    match x s.memory with
    | .ok a μ => .ok a { s with memory := μ }
    | .error e μ => .error e { s with memory := μ }

namespace Batch

/-- One past the last position a cursor may take. -/
def cursorBound : Nat := Word.bound

/-- Checks one placeholder and its input. The first placeholder sets the width. -/
def checkInput (width : Option Nat) (p : Placeholder) (t : Tensor) :
    Except BatchFault (Option Nat) :=
  match p.ty.shape.dims with
  | [] => .error .placeholderIsScalar
  | leading :: sample =>
    let width := width.getD leading
    if leading ≠ width then .error (.widthDiffers leading width)
    else
      match t.ty.shape.dims with
      | [] => .error .inputIsScalar
      | batch :: found =>
        if found ≠ sample then .error (.sampleDiffers found sample)
        else if batch = 0 ∨ width = 0 ∨ batch % width ≠ 0 then
          .error (.notAMultiple batch width)
        else .ok (some width)

def sharedWidth (inputs : List (Placeholder × Tensor)) : Except Error Nat := do
  let width ← inputs.foldlM (fun width (p, t) =>
    (checkInput width p t).mapError (.batchShapeMismatch p.name ·)) none
  return width.getD 0

def bindRows (inputs : List (Placeholder × Tensor)) (width cursor : Nat) : Run Unit :=
  inputs.forM fun (p, t) => do
    let start := cursor % t.ty.shape.dims.headD 0
    Run.bindTo p.id (← t.compute (·.rowsWrapping start width))

def iterate (e : Engine) (inputs : List (Placeholder × Tensor)) (width : Nat) :
    (iterations : Nat) → BatchRun Unit
  | 0 => return
  | iterations + 1 => do
    let cursor := (← get).cursor
    if cursorBound ≤ cursor + width then throw (.cursorOverflow cursor width)
    bindRows inputs width cursor
    e.run
    modify ({ · with cursor := cursor + width })
    iterate e inputs width iterations

end Batch

/-- Runs `iterations` times over `inputs`. The cursor counts completed iterations even if a
later one fails; an iteration that would move it past 64 bits is not begun. -/
def Engine.runBatch (e : Engine) (iterations : Nat) (placeholders : List Placeholder)
    (inputs : List Tensor) : BatchRun Unit := do
  if placeholders.length ≠ inputs.length then
    throw (.arityMismatch "run_batch" placeholders.length inputs.length)
  let pairs := placeholders.zip inputs
  let width ← Batch.sharedWidth pairs
  Batch.iterate e pairs width iterations

end TensorGraph
