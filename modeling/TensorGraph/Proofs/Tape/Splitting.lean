import TensorGraph.Backend.Cpu
import TensorGraph.Proofs.Run.Failure

/-!
Split kernels. A kernel whose output is large shares it out in pieces: single elements, or the
rows of a product. A piece is a part of the whole output and lands in its own place, so neither
the order of the pieces nor what the buffer held before shows in the result, and the size from
which kernels are split does not matter to any run.
-/

namespace TensorGraph

namespace Buffer

variable {buffer values : Buffer} {width count : Nat} {piece : Nat → Buffer}

/-- The elements from `first` on replaced by those of a piece, as far as both go. -/
def patched (buffer : Buffer) (first : Nat) (piece : Buffer) : Buffer :=
  Array.ofFn fun j : Fin buffer.size =>
    if first ≤ j then piece[j - first]?.getD buffer[j] else buffer[j]

/-- Pieces of `width` elements, put in their places in the given order. -/
def assembled (buffer : Buffer) (width : Nat) (piece : Nat → Buffer) (order : List Nat) : Buffer :=
  order.foldl (fun b i => b.patched (i * width) (piece i)) buffer

/-- Each of `count` pieces put in its place once, in whatever order, leaves `result`. -/
def Assembles (buffer : Buffer) (count width : Nat) (piece : Nat → Buffer) (result : Buffer) :
    Prop :=
  ∀ order : List Nat, order.Perm (List.range count) → buffer.assembled width piece order = result

theorem getElem?_overwritten (buffer values : Buffer) (j : Nat) :
    (buffer.overwritten values)[j]? = buffer[j]?.map fun old => values[j]?.getD old := by
  rw [overwritten, Array.getElem?_append]
  grind

theorem getElem?_patched_extract (buffer values : Buffer) (first last j : Nat) :
    (buffer.patched first (values.extract first last))[j]? =
      buffer[j]?.map fun old => if first ≤ j ∧ j < last then values[j]?.getD old else old := by
  simp only [patched, Array.getElem?_ofFn]
  grind

theorem getElem?_assembled {order : List Nat}
    (cut : ∀ i ∈ order, piece i = values.extract (i * width) ((i + 1) * width)) (j : Nat) :
    (buffer.assembled width piece order)[j]? = buffer[j]?.map fun old =>
      if ∃ i ∈ order, i * width ≤ j ∧ j < (i + 1) * width then values[j]?.getD old else old := by
  induction order generalizing buffer with
  | nil => simp [assembled]
  | cons i order ih =>
    have step : buffer.assembled width piece (i :: order) =
        (buffer.patched (i * width) (piece i)).assembled width piece order := rfl
    rw [step, ih fun k later => cut k (List.mem_cons_of_mem i later),
      cut i List.mem_cons_self, getElem?_patched_extract, Option.map_map]
    congr 1
    funext old
    simp only [Function.comp_apply, List.exists_mem_cons_iff]
    by_cases here : i * width ≤ j ∧ j < (i + 1) * width <;> cases values[j]? <;> simp [here]

/-- The pieces of an output make up the output, over whatever was in the buffer. -/
theorem assembles_overwritten (whole : values.size = count * width)
    (cut : ∀ i < count, piece i = values.extract (i * width) ((i + 1) * width)) :
    buffer.Assembles count width piece (buffer.overwritten values) := by
  intro order visited
  have range {i : Nat} : i ∈ order ↔ i < count := visited.mem_iff.trans List.mem_range
  refine Array.ext_getElem? fun j => ?_
  rw [getElem?_assembled fun i member => cut i (range.1 member), getElem?_overwritten]
  congr 1
  funext old
  split
  · rfl
  next outside =>
    have past : values.size ≤ j := by
      by_contra within
      rw [Nat.not_le, whole, Nat.mul_comm] at within
      have positive : 0 < width := Nat.pos_of_mul_pos_right (Nat.zero_lt_of_lt within)
      exact outside ⟨j / width, range.2 (Nat.div_lt_of_lt_mul within), Nat.div_mul_le_self j width,
        Nat.lt_mul_of_div_lt (Nat.lt_succ_self _) positive⟩
    rw [Array.getElem?_eq_none past, Option.getD_none]

theorem assembles_elements {element : Nat → Binary64} (size : values.size = count)
    (each : ∀ (i : Nat) (h : i < values.size), values[i] = element i) :
    buffer.Assembles count 1 (fun i => #[element i]) (buffer.overwritten values) := by
  subst size
  refine assembles_overwritten (Nat.mul_one _).symm fun i inside => ?_
  refine Array.ext (by simp; omega) fun j left right => ?_
  obtain rfl : j = 0 := by simpa using left
  simp [each i inside]

end Buffer

/-- A row computed on its own is that row of the whole product. -/
theorem Matrix.productRows_eq_extract (a b : Array Binary64) {row rows : Nat} (inner cols : Nat)
    (inside : row < rows) :
    productRows a b row (row + 1) inner cols =
      (productRows a b 0 rows inner cols).extract (row * cols) ((row + 1) * cols) := by
  have last : (row + 1) * cols ≤ rows * cols := Nat.mul_le_mul_right cols inside
  refine Array.ext ?_ fun j left right => ?_
  · simp only [productRows, Array.size_extract, Array.size_ofFn, Nat.sub_zero,
      Nat.min_eq_left last]
    rw [← Nat.sub_mul]
  · have short : j < cols := by simpa [productRows] using left
    simp [productRows, Nat.mul_comm row cols, Nat.mul_add_div (Nat.zero_lt_of_lt short),
      Nat.div_eq_of_lt short]

namespace Kernel

variable (dst src lhs rhs : Buffer) (kind : ElementKind)

theorem matmul_assembles {threshold m k n : Nat} {out : Buffer}
    (made : matmul threshold m k n kind dst lhs rhs = .ok out) :
    (dst.resized (m * n)).Assembles m n
      (fun row => (Matrix.productRows lhs rhs row (row + 1) k n).map kind.coerce) out := by
  have fits : (Shape.matrix m n).Fits := by
    by_contra unfit
    cases (matmul_overflow unfit).symm.trans made
  cases (matmul_of_fits dst lhs rhs kind threshold m k n fits).symm.trans made
  refine Buffer.assembles_overwritten (by simp [Matrix.productRows]) fun row inside => ?_
  rw [Matrix.productRows_eq_extract lhs rhs k n inside, Array.map_extract]

theorem unary_assembles (f : Unary) :
    (dst.resized src.size).Assembles src.size 1
      (fun i => #[kind.coerce (f.apply (src.getD i default))]) (unary f kind dst src) := by
  refine Buffer.assembles_elements (Array.size_map ..) fun i inside => ?_
  have there : i < src.size := by simpa using inside
  simp [Array.getD_eq_getD_getElem?, there]

theorem binary_assembles (f : Binary64 → Binary64 → Binary64) :
    (dst.resized lhs.size).Assembles (min lhs.size rhs.size) 1
      (fun i => #[kind.coerce (f (lhs.getD i default) (rhs.getD i default))])
      (binary f kind dst lhs rhs) := by
  refine Buffer.assembles_elements (Array.size_zipWith ..) fun i inside => ?_
  obtain ⟨left, right⟩ : i < lhs.size ∧ i < rhs.size := by
    simpa [Nat.lt_min] using inside
  simp [Array.getD_eq_getD_getElem?, left, right]

end Kernel

namespace Tape

variable (plan : Plan) (threshold threshold' : Nat) (μ : Memory)

namespace Machine

theorem result_threshold (s : Machine) (dst : Slot) (old : Buffer) (i : Instruction) :
    result plan threshold μ s dst old i = result plan threshold' μ s dst old i := by
  cases i with
  | matmul => simp only [result, Kernel.matmul_eq_product]
  | _ => rfl

theorem step_threshold (s : Machine) (i : Instruction) :
    step plan threshold μ s i = step plan threshold' μ s i := by
  cases i <;> simp only [step, result_threshold plan threshold threshold']

end Machine

theorem execute_threshold : execute plan threshold μ = execute plan threshold' μ := by
  have steps : Machine.step plan threshold μ = Machine.step plan threshold' μ :=
    funext fun s => funext fun i => Machine.step_threshold plan threshold threshold' μ s i
  rw [execute, execute, steps]

theorem run_threshold : run plan threshold = run plan threshold' := by
  simp only [run, execute_threshold plan threshold threshold']

end Tape

/-- The size from which kernels are split shows in nothing. Under other settings a function that
compiles for the CPU still does, and its tape behaves the same on every memory: the same outcome,
and the same bindings and storage, bit for bit. A split product is the product itself, also where its
entries cannot be counted, and what the rows of a product, or the elements of any other output,
leave in a buffer, taken in any order, is what the kernel leaves there. -/
theorem threshold_unobserved {config : Cpu.Config} {f : Function} {mode : Mode}
    {tape : Executable} (compiled : Cpu.compile config f mode = .ok tape) :
    (∀ config' : Cpu.Config, ∃ tape', Cpu.compile config' f mode = .ok tape' ∧
      ∀ μ, tape'.execute μ = tape.execute μ) ∧
    (∀ (kind : ElementKind) (dst lhs rhs : Buffer) (threshold m k n : Nat),
      Kernel.matmul threshold m k n kind dst lhs rhs =
        (Matrix.multiplyRows lhs rhs 0 m k n).map (·.map kind.coerce) ∧
      ∀ out, Kernel.matmul threshold m k n kind dst lhs rhs = .ok out →
        (dst.resized (m * n)).Assembles m n
          (fun row => (Matrix.productRows lhs rhs row (row + 1) k n).map kind.coerce) out) ∧
    (∀ (kind : ElementKind) (dst src : Buffer) (f : Unary),
      (dst.resized src.size).Assembles src.size 1
        (fun i => #[kind.coerce (f.apply (src.getD i default))]) (Kernel.unary f kind dst src)) ∧
    ∀ (kind : ElementKind) (dst lhs rhs : Buffer) (f : Binary64 → Binary64 → Binary64),
      (dst.resized lhs.size).Assembles (min lhs.size rhs.size) 1
        (fun i => #[kind.coerce (f (lhs.getD i default) (rhs.getD i default))])
        (Kernel.binary f kind dst lhs rhs) := by
  refine ⟨fun config' => ?_, fun kind dst lhs rhs threshold m k n => ?_, fun kind dst src f => ?_,
    fun kind dst lhs rhs f => ?_⟩
  · obtain ⟨plan, lowered, made⟩ := bind_eq_ok.1 compiled
    cases made
    refine ⟨_, bind_eq_ok.2 ⟨plan, lowered, rfl⟩, fun μ => ?_⟩
    simp only [Executable.execute,
      Tape.run_threshold plan config'.parallelThreshold config.parallelThreshold]
  · exact ⟨Kernel.matmul_eq_product dst lhs rhs kind threshold m k n,
      fun out => Kernel.matmul_assembles dst lhs rhs kind⟩
  · exact Kernel.unary_assembles dst src kind f
  · exact Kernel.binary_assembles dst lhs rhs kind f

/-- A function that saves the product of a two by two matrix with itself. -/
def Workspace.square : Function :=
  let x : Placeholder := ⟨⟨⟨0⟩, 0⟩, "x", ⟨.float, .matrix 2 2⟩, false⟩
  let y : Placeholder := ⟨⟨⟨0⟩, 1⟩, "y", ⟨.float, .matrix 2 2⟩, false⟩
  let built := [Action.declare .float (.matrix 2 2) "x" false,
    .declare .float (.matrix 2 2) "y" false, .create "square", .build "square" (.input x),
    .build "square" (.matmul "product" 0 0), .build "square" (.save "saved" 1 y)].foldl perform
    ⟨.empty, .empty ⟨0⟩⟩
  built.module.functions.headD (.empty "" ⟨0⟩)

/-- With threshold 1 the product is split, with the default it is not. -/
theorem threshold_unobserved_square :
    Workspace.square.countKind .matmul = 1 ∧
    ∃ whole split, Cpu.compile {} Workspace.square .infer = .ok whole ∧
      Cpu.compile { parallelThreshold := 1 } Workspace.square .infer = .ok split ∧
      ∀ μ, split.execute μ = whole.execute μ := by
  obtain ⟨whole, compiled⟩ : ∃ tape, Cpu.compile {} Workspace.square .infer = .ok tape :=
    exists_of_isOk (by decide)
  obtain ⟨others, -⟩ := threshold_unobserved compiled
  obtain ⟨split, again, same⟩ := others { parallelThreshold := 1 }
  exact ⟨by decide, whole, split, compiled, again, same⟩

end TensorGraph
