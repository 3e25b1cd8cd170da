import TensorGraph.Proofs.Graph.Building
import TensorGraph.Proofs.Optimize.Passes

/-!
Histories of a module. A workspace is a module with the store its constants live in, and an
action is anything a caller may do to it: declare, build with whatever operands, succeeding or
not, erase, run a pass, optimize. Between actions tensors may be made and changed at will.
Whatever was done, every function of the module is lawful.
-/

namespace TensorGraph

structure Workspace where
  store : Store
  module : Module
  deriving DecidableEq

inductive Action where
  | declare (kind : ElementKind) (shape : Shape) (name : String) (trainable : Bool)
  | create (function : String)
  | erase (function : String)
  | build (function : String) (call : BuilderCall)
  | apply (function : String) (pass : Pass)
  | optimize (function : String) (mode : Mode)

/-- The state a computation ends in, whether it succeeds or fails. -/
def stateAfter {ε σ α : Type} (x : EStateM ε σ α) (s : σ) : σ :=
  match x s with
  | .ok _ s => s
  | .error _ s => s

namespace Workspace

/-- Puts a function's new version in its place. A failure leaves the function. -/
def rewrite {α : Type} (w : Workspace) (name : String)
    (pass : Function → StoreM (Function × α)) : Workspace :=
  match w.module.function name with
  | .error _ => w
  | .ok f =>
    match pass f w.store with
    | .ok (g, _) σ => ⟨σ, w.module.setFunction name g⟩
    | .error _ σ => { w with store := σ }

def perform (w : Workspace) : Action → Workspace
  | .declare kind shape name trainable =>
    { w with module := stateAfter (Module.createPlaceholder kind shape name trainable) w.module }
  | .create name => { w with module := stateAfter (Module.createFunction name) w.module }
  | .erase name => { w with module := stateAfter (Module.eraseFunction name) w.module }
  | .build name call => { w with module := stateAfter (Module.build name call.run) w.module }
  | .apply name pass => w.rewrite name pass.apply
  | .optimize name mode => w.rewrite name (·.optimize mode)

/-- The placeholders and tensors handed to a builder exist. -/
def Admits (w : Workspace) : Action → Prop
  | .build _ call => call.Genuine w.module.id w.module.placeholders w.store
  | _ => True

inductive Reachable : Workspace → Prop where
  | start (id : ModuleId) (σ : Store) : Reachable ⟨σ, .empty id⟩
  | tensors {w : Workspace} {σ : Store} (reached : Reachable w) (evolves : w.store.Evolves σ) :
      Reachable { w with store := σ }
  | act {w : Workspace} {action : Action} (reached : Reachable w) (admits : w.Admits action) :
      Reachable (w.perform action)

/-- Each action of the list is admitted where it is performed. -/
def AdmitsAll : Workspace → List Action → Prop
  | _, [] => True
  | w, action :: rest => w.Admits action ∧ (w.perform action).AdmitsAll rest

theorem Reachable.run {w : Workspace} (reached : w.Reachable) {actions : List Action}
    (admits : w.AdmitsAll actions) : (actions.foldl perform w).Reachable := by
  induction actions generalizing w with
  | nil => exact reached
  | cons action rest ih => exact ih (.act reached admits.1) admits.2

end Workspace

/-- What every module keeps: placeholders are numbered and of lawful shapes, and functions are
its own and lawful. -/
structure Module.Lawful (σ : Store) (m : Module) : Prop where
  numbered : ∀ (i : Nat) (p : Placeholder), m.placeholders[i]? = some p → p.id = ⟨m.id, i⟩
  ranks : ∀ p ∈ m.placeholders, p.ty.shape.rank ≤ Shape.maxRank
  functions : ∀ f ∈ m.functions, f.owner = m.id ∧ f.Lawful m.placeholders σ

namespace Module

variable {σ τ : Store} {m : Module} {name : String}

theorem Lawful.apart (lawful : m.Lawful σ) : Placeholder.Apart m.placeholders := by
  intro p left q right same
  obtain ⟨i, atI⟩ := List.mem_iff_getElem?.1 left
  obtain ⟨j, atJ⟩ := List.mem_iff_getElem?.1 right
  rw [lawful.numbered i p atI, lawful.numbered j q atJ] at same
  obtain rfl := (PlaceholderId.mk.inj same).2
  exact Option.some.inj (atI.symm.trans atJ)

theorem Lawful.evolve (lawful : m.Lawful σ) (evolves : σ.Evolves τ) : m.Lawful τ := by
  refine ⟨lawful.numbered, lawful.ranks, fun f member => ?_⟩
  obtain ⟨own, function⟩ := lawful.functions f member
  exact ⟨own, function.mono (fun _ declared => declared) evolves⟩

theorem function_eq_ok {f : Function} (found : m.function name = .ok f) : f ∈ m.functions := by
  unfold Module.function at found
  split at found
  next source =>
    obtain rfl := Except.ok.inj found
    exact List.mem_of_find?_eq_some source
  next => cases found

theorem Lawful.setFunction (lawful : m.Lawful σ) {g : Function} (own : g.owner = m.id)
    (function : g.Lawful m.placeholders σ) : (m.setFunction name g).Lawful σ := by
  refine ⟨lawful.numbered, lawful.ranks, fun f member => ?_⟩
  obtain ⟨old, present, rfl⟩ := List.mem_map.1 member
  by_cases named : old.name = name
  · rw [if_pos named]
    exact ⟨own, function⟩
  · rw [if_neg named]
    exact lawful.functions old present

theorem createPlaceholder_after (m : Module) (kind : ElementKind) (shape : Shape) (name : String)
    (trainable : Bool) :
    let after := stateAfter (createPlaceholder kind shape name trainable) m
    after = m ∨ shape.rank ≤ Shape.maxRank ∧ after = { m with
      placeholders := m.placeholders ++
        [⟨⟨m.id, m.placeholders.length⟩, name, ⟨kind, shape⟩, trainable⟩] } := by
  unfold stateAfter createPlaceholder
  simp only [state_bind, state_check, state_get]
  cases valid : shape.validate with
  | error e => exact .inl rfl
  | ok u =>
    by_cases taken : m.placeholders.any (·.name = name)
    · simp only [if_pos taken]
      exact .inl rfl
    · simp only [if_neg taken]
      exact .inr ⟨Shape.validate_eq_ok.1 valid, rfl⟩

theorem createFunction_after (m : Module) (name : String) :
    let after := stateAfter (createFunction name) m
    after = m ∨ after = { m with functions := m.functions ++ [.empty name m.id] } := by
  unfold stateAfter createFunction
  simp only [state_bind, state_get]
  by_cases taken : m.functions.any (·.name = name)
  · simp only [if_pos taken]
    exact .inl rfl
  · simp only [if_neg taken]
    exact .inr rfl

theorem eraseFunction_after (m : Module) (name : String) :
    let after := stateAfter (eraseFunction name) m
    after = m ∨ after = { m with functions := m.functions.filter (·.name ≠ name) } := by
  unfold stateAfter eraseFunction
  simp only [state_bind, state_check, state_get]
  cases m.function name with
  | error e => exact .inl rfl
  | ok f => exact .inr rfl

theorem Lawful.createPlaceholder (lawful : m.Lawful σ) (kind : ElementKind) (shape : Shape)
    (name : String) (trainable : Bool) :
    (stateAfter (Module.createPlaceholder kind shape name trainable) m).Lawful σ := by
  rcases m.createPlaceholder_after kind shape name trainable with same | ⟨rank, added⟩
  · rw [same]
    exact lawful
  · rw [added]
    refine ⟨fun i p found => ?_, fun p member => ?_, fun f member => ?_⟩
    · rcases getElem?_concat found with old | ⟨rfl, rfl⟩
      · exact lawful.numbered i p old
      · rfl
    · rcases List.mem_append.1 member with old | new
      · exact lawful.ranks p old
      · rw [List.mem_singleton.1 new]
        exact rank
    · obtain ⟨own, function⟩ := lawful.functions f member
      refine ⟨own, function.mono (fun p declared => ?_) fun t held => held⟩
      exact List.mem_append_left _ declared

theorem Lawful.createFunction (lawful : m.Lawful σ) (name : String) :
    (stateAfter (Module.createFunction name) m).Lawful σ := by
  rcases m.createFunction_after name with same | added
  · rw [same]
    exact lawful
  · rw [added]
    refine ⟨lawful.numbered, lawful.ranks, fun f member => ?_⟩
    rcases List.mem_append.1 member with old | new
    · exact lawful.functions f old
    · rw [List.mem_singleton.1 new]
      exact ⟨rfl, Function.lawful_empty name m.id⟩

theorem Lawful.eraseFunction (lawful : m.Lawful σ) (name : String) :
    (stateAfter (Module.eraseFunction name) m).Lawful σ := by
  rcases m.eraseFunction_after name with same | removed
  · rw [same]
    exact lawful
  · rw [removed]
    exact ⟨lawful.numbered, lawful.ranks, fun f member =>
      lawful.functions f (List.mem_filter.1 member).1⟩

theorem Lawful.build (lawful : m.Lawful σ) (name : String) {call : BuilderCall}
    (genuine : call.Genuine m.id m.placeholders σ) :
    (stateAfter (Module.build name call.run) m).Lawful σ := by
  cases found : m.function name with
  | error e =>
    rw [stateAfter, Module.build, found]
    exact lawful
  | ok f =>
    obtain ⟨own, function⟩ := lawful.functions f (function_eq_ok found)
    cases built : call.run f with
    | error e g =>
      obtain rfl := call.run_error built
      simp only [stateAfter, Module.build, found, built]
      exact lawful.setFunction own function
    | ok id g =>
      obtain ⟨kept, same⟩ := call.run_ok function lawful.ranks (own.symm ▸ genuine) built
      simp only [stateAfter, Module.build, found, built]
      exact lawful.setFunction (same.trans own) kept

end Module

namespace Workspace

variable {w : Workspace}

/-- A pass that rewrites every lawful function, or stops, keeps the module lawful. -/
theorem lawful_rewrite (lawful : w.module.Lawful w.store) (name : String) {α : Type}
    {pass : Function → StoreM (Function × α)}
    (rewrites : ∀ f ∈ w.module.functions, (∃ g a τ, pass f w.store = .ok (g, a) τ ∧
      Rewrites w.module.placeholders w.store f τ g) ∨ f.Overflows (pass f) w.store) :
    (w.rewrite name pass).module.Lawful (w.rewrite name pass).store := by
  unfold rewrite
  cases found : w.module.function name with
  | error e => exact lawful
  | ok f =>
    have member := Module.function_eq_ok found
    obtain ⟨g, a, τ, made, rewritten⟩ | ⟨-, τ, failed, grows⟩ := rewrites f member
    · simp only [made]
      have own := (lawful.functions f member).1
      exact (lawful.evolve rewritten.grows.evolves).setFunction (rewritten.owner.trans own)
        rewritten.lawful
    · simp only [failed]
      exact lawful.evolve grows.evolves

/-- One action keeps a lawful module lawful. -/
theorem lawful_perform (lawful : w.module.Lawful w.store) {action : Action}
    (admits : w.Admits action) : (w.perform action).module.Lawful (w.perform action).store := by
  cases action with
  | declare kind shape name trainable => exact lawful.createPlaceholder kind shape name trainable
  | create name => exact lawful.createFunction name
  | erase name => exact lawful.eraseFunction name
  | build name call => exact lawful.build name admits
  | apply name pass =>
    exact lawful_rewrite lawful name fun f member =>
      (lawful.functions f member).2.apply lawful.apart pass
  | optimize name mode =>
    exact lawful_rewrite lawful name fun f member =>
      (lawful.functions f member).2.optimize lawful.apart mode

theorem Reachable.lawful (reached : w.Reachable) : w.module.Lawful w.store := by
  induction reached with
  | start id σ =>
    refine ⟨fun i p found => ?_, fun p member => (nomatch member), fun f member => nomatch member⟩
    simp [Module.empty] at found
  | tensors reached evolves ih => exact ih.evolve evolves
  | act reached admits ih => exact lawful_perform ih admits

/-- What holds of every function of a module after any history: operands come first and fit
the operation, types follow the typing rules, saves have distinct targets, placeholders are
the module's own, shapes have at most six dimensions. So the function verifies, no pass and not the
optimizer returns an error, though folding stops the program at a value that cannot be counted, and
a builder call that fails leaves the function as it was. -/
theorem graph_invariant (reached : w.Reachable) {f : Function}
    (member : f ∈ w.module.functions) :
    (∀ (i : Nat) (n : Node), f.nodes[i]? = some n →
      (∀ x : Nat, x ∈ n.op.operands → x < i) ∧
      n.op.operands.length = n.kind.arity ∧
      n.op.HasType (f.types.take i) n.ty ∧
      (∀ p, n.op.placeholder? = some p →
        p.id.owner = w.module.id ∧ p ∈ w.module.placeholders) ∧
      n.ty.shape.rank ≤ 6) ∧
    (f.outputs.map (·.id)).Nodup ∧
    f.verify = .ok () ∧
    (∀ pass : Pass, (∃ g count σ, pass.apply f w.store = .ok (g, count) σ) ∨
      f.Overflows (pass.apply f) w.store) ∧
    (∀ mode, (∃ g counts σ, f.optimize mode w.store = .ok (g, counts) σ) ∨
      f.Overflows (f.optimize mode) w.store) ∧
    ∀ (call : BuilderCall) (e : Error) (g : Function), call.run f = .error e g → g = f := by
  have module := reached.lawful
  obtain ⟨-, lawful⟩ := module.functions f member
  refine ⟨fun i n found => ?_, lawful.distinct, lawful.verify,
    fun pass => (lawful.apply module.apart pass).imp_left ?_,
    fun mode => (lawful.optimize module.apart mode).imp_left ?_,
    fun call e g failed => call.run_error failed⟩
  · have node := lawful.nodes i n found
    refine ⟨fun x read => lawful.operand_lt found read, n.op.length_operands, node.typed,
      fun p named => ?_, node.rank_le⟩
    have declared := node.declared p named
    obtain ⟨k, atIndex⟩ := List.mem_iff_getElem?.1 declared
    exact ⟨by rw [module.numbered k p atIndex], declared⟩
  · rintro ⟨g, count, σ, made, -⟩
    exact ⟨g, count, σ, made⟩
  · rintro ⟨g, counts, σ, made, -⟩
    exact ⟨g, counts, σ, made⟩

-- A small module: its function adds a doubled constant to what it reads, cuts off below zero and
-- saves the result.

namespace Shift

def pair (a b : Int) : Value := ⟨⟨.float, .vector 2⟩, #[.ofInt a, .ofInt b]⟩

def handle : Tensor := ⟨0, ⟨.float, .vector 2⟩⟩

def source : Placeholder := ⟨⟨⟨0⟩, 0⟩, "x", ⟨.float, .vector 2⟩, false⟩

def target : Placeholder := ⟨⟨⟨0⟩, 1⟩, "y", ⟨.float, .vector 2⟩, false⟩

/-- Both placeholders bound to the cell of the constant. -/
def bindings : Context := ⟨[(source.id, handle), (target.id, handle)]⟩

def workspace : Workspace :=
  [Action.declare .float (.vector 2) "x" false, .declare .float (.vector 2) "y" false,
    .create "shift", .build "shift" (.input source), .build "shift" (.constant "c" handle),
    .build "shift" (.binary "doubled" .add 1 1), .build "shift" (.binary "sum" .add 0 2),
    .build "shift" (.unary "cut" .relu 3), .build "shift" (.save "saved" 4 target)].foldl perform
    ⟨⟨#[pair 1 (-3)]⟩, .empty ⟨0⟩⟩

def function : Function := workspace.module.functions.headD (.empty "" ⟨0⟩)

theorem held : workspace.store.Holds handle :=
  ⟨pair 1 (-3), rfl, rfl, ⟨by decide, by decide, by decide, by decide +kernel⟩⟩

theorem reachable : workspace.Reachable :=
  (Reachable.start _ _).run ⟨trivial, trivial, trivial, fun _ => by decide, held, trivial, trivial,
    trivial, fun _ => by decide, trivial⟩

theorem member : function ∈ workspace.module.functions := by decide

end Shift

theorem graph_invariant_shift :
    Shift.function.size = 6 ∧ Shift.function.verify = .ok () ∧
      ∃ g counts σ, Shift.function.optimize .infer Shift.workspace.store = .ok (g, counts) σ := by
  obtain ⟨-, -, verified, -, optimizes, -⟩ := graph_invariant Shift.reachable Shift.member
  have fits : Shift.function.Fits := by decide
  exact ⟨by decide, verified, (optimizes .infer).resolve_right fun past => past.1 fits⟩

end Workspace
end TensorGraph
