import TensorGraph.Proofs.Engine.Binding
import TensorGraph.Proofs.Bundle.Reading
import TensorGraph.Proofs.Engine.Feeding
import TensorGraph.Proofs.Engine.Training
import TensorGraph.Proofs.Optimize.Again
import TensorGraph.Proofs.Run.Frame
import TensorGraph.Proofs.Bundle.Withdrawing
import TensorGraph.Proofs.Directories
import TensorGraph.Proofs.Bundle.Exporting
import TensorGraph.Proofs.Run.Allocating
import TensorGraph.Proofs.Number.Bounds
import TensorGraph.Proofs.Run.Workbench
import TensorGraph.Proofs.Tape.Pressure
import TensorGraph.Proofs.Optimize.Counts
import TensorGraph.Proofs.Optimize.Compiling
import TensorGraph.Proofs.Tape.Splitting
import TensorGraph.Proofs.Tensor.Product
import TensorGraph.Proofs.Tensor.Wrapping
import TensorGraph.Proofs.Number.Reading
import TensorGraph.Proofs.Number.Zeros
import TensorGraph.Proofs.Run.Integers
import TensorGraph.Proofs.Run.Saturating
import TensorGraph.Proofs.Bundle.Header
import TensorGraph.Proofs.Bundle.Safety
import TensorGraph.Proofs.Bundle.Truncation
