import TensorGraph.Proofs.Run.Keeping
import TensorGraph.Proofs.Tensor.Domain

/-!
Work with tensors. A workbench is a memory with the handles that were given out so far, and a call
is anything that may be done with them: make tensors, overwrite them, bind them and take what is
bound, run functions. Any function may be run and any tape, compiled or not. Whatever the calls and
however they end, every tensor holds numbers of its kind only.
-/

namespace TensorGraph

structure Workbench where
  memory : Memory
  handles : List Tensor
  deriving DecidableEq

/-- A value made from a caller's data. -/
inductive Origin where
  | elements (data : Array Binary64) (shape : Shape) (kind : ElementKind)
  | scalars (data : Array Scalar) (shape : Shape) (kind : ElementKind)
  | zeros (ty : TensorType)

/-- A value made from another. -/
inductive Derivation where
  | duplicate
  | unary (f : Unary)
  | transpose
  | reshape (shape : Shape)
  | rows (start length : Nat)

/-- A value made from two others. -/
inductive Combination where
  | binary (f : Binary)
  | addRelu
  | matmul

def Origin.value : Origin → Except Error Value
  | elements data shape kind => Value.ofData data shape kind
  | scalars data shape kind => Value.ofScalars data shape kind
  | zeros ty => Value.zeros ty

def Derivation.apply : Derivation → Value → Except Error Value
  | duplicate, v => v.duplicate
  | unary f, v => v.unary f
  | transpose, v => v.transpose
  | reshape shape, v => v.reshape shape
  | rows start length, v => v.rowsWrapping start length

def Combination.apply : Combination → Value → Value → Except Error Value
  | binary f, a, b => Value.binary f a b
  | addRelu, a, b => a.addRelu b
  | matmul, a, b => a.matmul b

theorem Origin.wellFormed {o : Origin} {r : Value} (made : o.value = .ok r) : r.WellFormed := by
  cases o with
  | elements data shape kind => exact Value.wellFormed_of_ofData made
  | scalars data shape kind => exact Value.wellFormed_of_ofData made
  | zeros ty => exact Value.wellFormed_of_zeros made

theorem Derivation.wellFormed {d : Derivation} {v r : Value} (made : d.apply v = .ok r) :
    r.WellFormed := by
  cases d with
  | duplicate => exact Value.wellFormed_of_ofData made
  | unary f => exact Value.wellFormed_of_unary made
  | transpose => exact Value.wellFormed_of_transpose made
  | reshape shape => exact Value.wellFormed_of_reshape made
  | rows start length => exact Value.wellFormed_of_rowsWrapping made

theorem Combination.wellFormed {c : Combination} {a b r : Value} (made : c.apply a b = .ok r) :
    r.WellFormed := by
  cases c with
  | binary f => exact Value.wellFormed_of_binary made
  | addRelu => exact Value.wellFormed_of_addRelu made
  | matmul => exact Value.wellFormed_of_matmul made

/-- What may be done. Tensors are named by their place among the handles. -/
inductive Call where
  | make (o : Origin)
  | derive (d : Derivation) (source : Nat)
  | combine (c : Combination) (left right : Nat)
  | update (target : Nat) (data : Array Binary64)
  | copyFrom (target source : Nat)
  | bind (id : PlaceholderId) (source : Nat)
  | unbind (id : PlaceholderId)
  /-- A handle on what is bound. -/
  | take (id : PlaceholderId)
  | allocate (p : Placeholder)
  | allocateAll (m : Module)
  | deliver (p : Placeholder) (source : Nat)
  | deliverElements (p : Placeholder) (data : Array Binary64)
  | interpret (f : Function)
  | runTape (plan : Plan) (threshold : Nat)

namespace Workbench

def empty : Workbench := ⟨⟨.empty, .empty⟩, []⟩

/-- Runs on the memory. -/
def run (w : Workbench) (x : Run Unit) : Workbench := { w with memory := stateAfter x w.memory }

/-- Runs on the memory, and gives out the handle that comes of it. -/
def hand (w : Workbench) (x : Run Tensor) : Workbench :=
  match x w.memory with
  | .ok t μ => ⟨μ, w.handles ++ [t]⟩
  | .error _ μ => { w with memory := μ }

/-- Goes on with a handle that was given out. -/
def pick (w : Workbench) (place : Nat) (next : Tensor → Workbench) : Workbench :=
  match w.handles[place]? with
  | some t => next t
  | none => w

def perform (w : Workbench) : Call → Workbench
  | .make o => w.hand (liftM (do Tensor.new (← o.value) : StoreM Tensor))
  | .derive d source => w.pick source fun t => w.hand (t.compute d.apply)
  | .combine c left right =>
    w.pick left fun a => w.pick right fun b => w.hand (Tensor.compute₂ c.apply a b)
  | .update target data => w.pick target fun t => w.run (t.update data)
  | .copyFrom target source =>
    w.pick target fun t => w.pick source fun s => w.run (t.copyFrom s)
  | .bind id source => w.pick source fun t => w.run (Run.bindTo id t)
  | .unbind id => { w with memory.context := w.memory.context.erase id }
  | .take id =>
    match w.memory.context.get? id with
    | some t => { w with handles := w.handles ++ [t] }
    | none => w
  | .allocate p => w.hand (Run.allocate p)
  | .allocateAll m => w.run (Run.allocateAll m)
  | .deliver p source => w.pick source fun t => w.run (Run.deliver p (w.memory.store.read t))
  | .deliverElements p data => w.run (Run.deliverElements p data)
  | .interpret f => w.run (Executable.interpreted f).execute
  | .runTape plan threshold => w.run (Executable.tape plan threshold).execute

/-- The tensors there are: those given out and those bound. -/
def Knows (w : Workbench) (t : Tensor) : Prop :=
  t ∈ w.handles ∨ ∃ id, w.memory.context.get? id = some t

/-- Every tensor there is has a well-formed value of its type. -/
structure Sound (w : Workbench) : Prop where
  handles : ∀ t ∈ w.handles, w.memory.store.Holds t
  bindings : w.memory.Lawful

/-- The later workbench is sound, and what was a good handle still is. -/
structure Continues (w w' : Workbench) : Prop where
  sound : w'.Sound
  evolves : w.memory.store.Evolves w'.memory.store

variable {w w' w'' : Workbench}

theorem Sound.knows (sound : w.Sound) {t : Tensor} (known : w.Knows t) :
    w.memory.store.Holds t := by
  rcases known with given | ⟨id, bound⟩
  · exact sound.handles t given
  · exact sound.bindings id t bound

theorem Sound.stays (sound : w.Sound) : w.Continues w := ⟨sound, .refl _⟩

theorem Continues.trans (first : w.Continues w') (second : w'.Continues w'') :
    w.Continues w'' :=
  ⟨second.sound, first.evolves.trans second.evolves⟩

theorem Sound.give (sound : w.Sound) {t : Tensor} (held : w.memory.store.Holds t) :
    Sound { w with handles := w.handles ++ [t] } := by
  refine ⟨fun u member => ?_, sound.bindings⟩
  rcases List.mem_append.1 member with old | new
  · exact sound.handles u old
  · rw [List.mem_singleton.1 new]
    exact held

theorem Sound.sustain (sound : w.Sound) {μ : Memory} (sustains : w.memory.Sustains μ) :
    w.Continues { w with memory := μ } :=
  ⟨⟨fun t member => sustains.evolves t (sound.handles t member), sustains.lawful sound.bindings⟩,
    sustains.evolves⟩

theorem Sound.run (sound : w.Sound) {x : Run Unit} (sustains : Run.Sustains x) :
    w.Continues (w.run x) :=
  sound.sustain (sustains w.memory)

theorem Sound.hand (sound : w.Sound) {x : Run Tensor} (sustains : Run.Sustains x)
    (yields : ∀ t μ, x w.memory = .ok t μ → μ.store.Holds t) : w.Continues (w.hand x) := by
  rw [Workbench.hand]
  cases ran : x w.memory with
  | ok t μ =>
    have continues := sound.sustain (sustains.of_ok ran)
    exact ⟨continues.sound.give (yields t μ ran), continues.evolves⟩
  | error e μ => exact sound.sustain (sustains.of_error ran)

theorem Sound.handMade (sound : w.Sound) {made : StoreM Tensor} (makes : Tensor.Makes made) :
    w.Continues (w.hand made) := by
  refine sound.hand (Run.sustains_store makes.evolves) fun t μ ran => ?_
  rw [Run.store_eq] at ran
  rcases makes w.memory.store with ⟨v, wellFormed, allocates⟩ | ⟨e, fails⟩
  · rw [allocates] at ran
    cases ran
    exact w.memory.store.holds_allocate wellFormed
  · rw [fails] at ran
    cases ran

theorem Sound.pick (sound : w.Sound) (place : Nat) {next : Tensor → Workbench}
    (continues : ∀ t, w.memory.store.Holds t → w.Continues (next t)) :
    w.Continues (w.pick place next) := by
  rw [Workbench.pick]
  cases found : w.handles[place]? with
  | some t => exact continues t (sound.handles t (List.mem_of_getElem? found))
  | none => exact sound.stays

/-- Every call keeps a workbench sound, and every good handle good. -/
theorem Sound.perform (sound : w.Sound) (call : Call) : w.Continues (w.perform call) := by
  cases call with
  | make o => exact sound.handMade (.check fun _ => Origin.wellFormed)
  | derive d source =>
    exact sound.pick source fun t _ => sound.handMade (.compute Derivation.wellFormed)
  | combine c left right =>
    exact sound.pick left fun a _ => sound.pick right fun b _ =>
      sound.handMade (.compute₂ Combination.wellFormed)
  | update target data => exact sound.pick target fun t _ => sound.run (Run.sustains_update t data)
  | copyFrom target source =>
    exact sound.pick target fun t _ => sound.pick source fun s _ =>
      sound.run (Run.sustains_copyFrom t s)
  | bind id source =>
    refine sound.pick source fun t held => sound.sustain ⟨.refl _, fun good other u found => ?_⟩
    change (w.memory.context.insert id t).get? other = some u at found
    rw [Table.get?_insert] at found
    split at found
    · cases found
      exact held
    · exact good other u found
  | unbind id =>
    refine sound.sustain ⟨.refl _, fun good other u found => good other u ?_⟩
    rw [Table.get?_erase] at found
    split at found
    · cases found
    · exact found
  | take id =>
    rw [Workbench.perform]
    cases found : w.memory.context.get? id with
    | some t => exact ⟨sound.give (sound.bindings id t found), .refl _⟩
    | none => exact sound.stays
  | allocate p =>
    exact sound.hand (Run.sustains_allocate p) fun _ _ => Run.holds_of_allocate sound.bindings
  | allocateAll m => exact sound.run (Run.sustains_allocateAll m)
  | deliver p source =>
    exact sound.pick source fun t _ => sound.run (Run.sustains_deliver p _)
  | deliverElements p data => exact sound.run (Run.sustains_deliverElements p data)
  | interpret f => exact sound.run (Executable.sustains_interpreted f)
  | runTape plan threshold => exact sound.run (Executable.sustains_tape plan threshold)

theorem Sound.performAll (sound : w.Sound) (calls : List Call) :
    w.Continues (calls.foldl Workbench.perform w) := by
  induction calls generalizing w with
  | nil => exact sound.stays
  | cons call rest ih =>
    have first := sound.perform call
    exact first.trans (ih first.sound)

theorem sound_empty : empty.Sound :=
  ⟨fun _ member => (nomatch member), fun _ _ found => nomatch found⟩

/-- Whatever calls are made, failed ones included, and whatever is done afterwards with the tensors
there are then: each of them keeps its type and holds numbers of its kind only, as many as its
dimensions multiply to. -/
theorem tensors_stay_in_kind (earlier later : List Call) :
    let before := earlier.foldl perform empty
    let after := later.foldl perform before
    ∀ t, before.Knows t → after.memory.store.InKind t ∧
      (after.memory.store.read t).ty = (before.memory.store.read t).ty := by
  intro before after t known
  have sound : before.Sound := (sound_empty.performAll earlier).sound
  have held := sound.knows known
  have still : after.memory.store.Holds t := (sound.performAll later).evolves t held
  exact ⟨still.inKind, still.read.2.trans held.read.2.symm⟩

/-- A pair that a function reads, adds to itself and saves over itself, and a byte that is
overwritten by a number too large for it. -/
theorem tensors_stay_in_kind_shift :
    let byte : Tensor := ⟨1, ⟨.int8, .vector 1⟩⟩
    let before := [Call.make (.elements #[.ofInt 1, .ofInt (-3)] (.vector 2) .float),
      .make (.scalars #[.whole 3] (.vector 1) .int8)].foldl perform empty
    let after := [Call.bind Workspace.Shift.source.id 0, .bind Workspace.Shift.target.id 0,
      .interpret Workspace.Shift.function, .update 1 #[.ofInt 300]].foldl perform before
    (before.Knows Workspace.Shift.handle ∧ after.memory.store.InKind Workspace.Shift.handle ∧
      (after.memory.store.read Workspace.Shift.handle).data = #[.ofInt 3, .zero false]) ∧
    before.Knows byte ∧ after.memory.store.InKind byte ∧
      (after.memory.store.read byte).data = #[.ofInt 127] := by
  intro byte before after
  have pair : before.Knows Workspace.Shift.handle := .inl (by decide +kernel)
  have single : before.Knows byte := .inl (by decide +kernel)
  exact ⟨⟨pair, (tensors_stay_in_kind _ _ _ pair).1, by decide +kernel⟩, single,
    (tensors_stay_in_kind _ _ _ single).1, by decide +kernel⟩

end Workbench
end TensorGraph
