import TensorGraph.Proofs.History
import TensorGraph.Proofs.Run.Progress

/-!
The optimizer keeps the meaning of a function. `Rewritten` is any sequence of passes, and
tensors may change between them and before the run, except for those the function and its
rewriting hold as constants. Whenever the original runs, no pass stops, and the rewriting runs and
leaves the same memory.
-/

namespace TensorGraph

open Workspace

def Function.constants (f : Function) : List Tensor := f.nodes.filterMap Node.constant?

inductive Rewritten (f : Function) (σ : Store) : Function → Store → Prop where
  | start : Rewritten f σ f σ
  | pass {g h : Function} {τ υ : Store} {count : Nat} (pass : Pass) (before : Rewritten f σ g τ)
      (applied : pass.apply g τ = .ok (h, count) υ) : Rewritten f σ h υ
  | tensors {g : Function} {τ υ : Store} (before : Rewritten f σ g τ) (evolves : τ.Evolves υ)
      (constants : ∀ t ∈ f.constants ++ g.constants, υ.read t = τ.read t) : Rewritten f σ g υ

/-- What a rewriting has in common with the function it comes from, in a store `τ`. -/
structure Agrees (declared : List Placeholder) (f : Function) (τ : Store) (g : Function) :
    Prop where
  lawful : g.Lawful declared τ
  original : f.Lawful declared τ
  outputs : g.outputs = f.outputs
  types : ∀ n ∈ g.nodes, n.ty ∈ f.types
  sources : ∀ p ∈ g.sources, p ∈ f.sources
  values : ∀ load val, Evaluates load τ.read f.nodes val →
    ∃ val', Evaluates load τ.read g.nodes val' ∧ g.saved val' = f.saved val

variable {declared : List Placeholder} {σ τ υ : Store} {f g h : Function}

theorem Function.Lawful.constant_held (lawful : f.Lawful declared σ) {t : Tensor}
    (member : t ∈ f.constants) : σ.Holds t := by
  obtain ⟨n, present, constant⟩ := List.mem_filterMap.1 member
  obtain ⟨i, found⟩ := List.mem_iff_getElem?.1 present
  exact (lawful.nodes i n found).held t constant

theorem Evaluates.const_congr {load : Placeholder → Except Error Value}
    {const const' : Tensor → Value} {val : NodeId → Option Value}
    (evaluates : Evaluates load const f.nodes val)
    (same : ∀ t ∈ f.constants, const' t = const t) : Evaluates load const' f.nodes val := by
  intro i n found
  refine (evaluates i n found).const_congr fun t constant => same t ?_
  exact List.mem_filterMap.2 ⟨n, List.mem_of_getElem? found, Node.constant?_eq_some.2 constant⟩

theorem Agrees.refl (lawful : f.Lawful declared σ) : Agrees declared f σ f :=
  ⟨lawful, lawful, rfl, fun _ member => List.mem_map_of_mem member, fun _ member => member,
    fun _ val evaluates => ⟨val, evaluates, rfl⟩⟩

theorem Agrees.pass (agrees : Agrees declared f τ g) (rewrites : Rewrites declared τ g υ h) :
    Agrees declared f υ h := by
  refine ⟨rewrites.lawful, agrees.original.mono (fun _ named => named) rewrites.grows.evolves,
    rewrites.outputs.trans agrees.outputs, fun n member => ?_,
    fun p member => agrees.sources p (rewrites.sources p member), fun load val evaluates => ?_⟩
  · obtain ⟨m, between, same⟩ := List.mem_map.1 (rewrites.types n member)
    exact same ▸ agrees.types m between
  have before : Evaluates load τ.read f.nodes val :=
    evaluates.const_congr fun t member =>
      (rewrites.grows.read (agrees.original.constant_held member)).symm
  obtain ⟨val', evaluates', same'⟩ := agrees.values load val before
  obtain ⟨val'', evaluates'', same''⟩ := rewrites.values load val' evaluates'
  exact ⟨val'', evaluates'', same''.trans same'⟩

theorem Agrees.tensors (agrees : Agrees declared f τ g) (evolves : τ.Evolves υ)
    (constants : ∀ t ∈ f.constants ++ g.constants, υ.read t = τ.read t) :
    Agrees declared f υ g := by
  refine ⟨agrees.lawful.mono (fun _ named => named) evolves,
    agrees.original.mono (fun _ named => named) evolves, agrees.outputs, agrees.types,
    agrees.sources, fun load val evaluates => ?_⟩
  have before : Evaluates load τ.read f.nodes val := evaluates.const_congr fun t member =>
    (constants t (List.mem_append_left _ member)).symm
  obtain ⟨val', evaluates', same⟩ := agrees.values load val before
  exact ⟨val', evaluates'.const_congr fun t member =>
    constants t (List.mem_append_right _ member), same⟩

/-- What stops a rewriting's pass stops nothing that fits. -/
theorem Agrees.overflows (agrees : Agrees declared f τ g) {α : Type} {x : StoreM α}
    (past : g.Overflows x τ) : f.Overflows x τ := by
  refine past.imp_left fun unfit fits => unfit fun n member => ?_
  obtain ⟨m, old, same⟩ := List.mem_map.1 (agrees.types n member)
  exact same ▸ fits m old

theorem Rewritten.agrees (rewritten : Rewritten f σ g τ) (lawful : f.Lawful declared σ)
    (apart : Placeholder.Apart declared) : Agrees declared f τ g := by
  induction rewritten with
  | start => exact .refl lawful
  | @pass g h τ υ count pass before applied ih =>
    obtain ⟨h', count', υ', made, rewrites⟩ | past := ih.lawful.apply apart pass
    · cases made.symm.trans applied
      exact ih.pass rewrites
    · exact (past.not_ok applied).elim
  | tensors before evolves constants ih => exact ih.tensors evolves constants

theorem Rewritten.optimize (before : Rewritten f σ g τ) {mode : Mode} {counts : PassCounts}
    (optimized : g.optimize mode τ = .ok (h, counts) υ) : Rewritten f σ h υ := by
  obtain ⟨_, τ₁, verified, rest⟩ := state_bind_eq_ok.1 optimized
  obtain ⟨⟨folded, count⟩, τ₂, made, rest⟩ := state_bind_eq_ok.1 rest
  have same : τ₁ = τ := by
    rw [state_check] at verified
    split at verified <;> cases verified
    rfl
  rw [same] at made
  have folding : Rewritten f σ folded τ₂ := .pass .fold before made
  have merging : Rewritten f σ folded.mergeCommon.1 τ₂ := .pass .merge folding rfl
  cases mode with
  | infer =>
    cases rest
    exact .pass .prune (.pass .fuse merging rfl) rfl
  | train =>
    cases rest
    exact .pass .prune merging rfl

namespace Placeholder

theorem distinct_concat (ps : List Placeholder) (p : Placeholder) :
    distinct (ps ++ [p]) =
      if (distinct ps).any (·.id = p.id) then distinct ps else distinct ps ++ [p] := by
  rw [distinct, List.foldl_append]
  rfl

theorem mem_of_mem_distinct {ps : List Placeholder} {p : Placeholder} (member : p ∈ distinct ps) :
    p ∈ ps := by
  induction ps using List.reverseRecOn with
  | nil => exact member
  | append_singleton ps q ih =>
    rw [distinct_concat] at member
    split at member
    · exact List.mem_append_left _ (ih member)
    · rcases List.mem_append.1 member with old | new
      · exact List.mem_append_left _ (ih old)
      · exact List.mem_append_right _ new

theorem exists_mem_distinct {ps : List Placeholder} {p : Placeholder} (member : p ∈ ps) :
    ∃ q ∈ distinct ps, q.id = p.id := by
  induction ps using List.reverseRecOn with
  | nil => cases member
  | append_singleton ps r ih =>
    rw [distinct_concat]
    by_cases present : (distinct ps).any (·.id = r.id)
    · rw [if_pos present]
      rcases List.mem_append.1 member with old | new
      · exact ih old
      · obtain ⟨q, found, same⟩ := List.any_eq_true.1 present
        rw [List.mem_singleton.1 new]
        exact ⟨q, found, by simpa using same⟩
    · rw [if_neg present]
      rcases List.mem_append.1 member with old | new
      · obtain ⟨q, found, same⟩ := ih old
        exact ⟨q, List.mem_append_left _ found, same⟩
      · exact ⟨p, List.mem_append_right _ new, rfl⟩

end Placeholder

/-- The sources of a lawful function are declared, so its inputs are exactly its sources. -/
theorem Function.Lawful.mem_inputs (lawful : f.Lawful declared σ)
    (apart : Placeholder.Apart declared) {p : Placeholder} : p ∈ f.inputs ↔ p ∈ f.sources := by
  have declaredSource {q : Placeholder} (member : q ∈ f.sources) : q ∈ declared := by
    obtain ⟨n, present, source⟩ := List.mem_filterMap.1 member
    obtain ⟨i, found⟩ := List.mem_iff_getElem?.1 present
    refine (lawful.nodes i n found).declared q ?_
    cases op : n.op <;> rw [op] at source <;> cases source
    rfl
  refine ⟨Placeholder.mem_of_mem_distinct, fun member => ?_⟩
  obtain ⟨q, found, same⟩ := Placeholder.exists_mem_distinct member
  have source := Placeholder.mem_of_mem_distinct found
  rw [← apart q (declaredSource source) p (declaredSource member) same]
  exact found

/-- After any passes on any function of a module, any pass and the optimizer go on, or stop because
the function has more elements than can be counted; the outputs are the original's, in order, and no
new input is read; and whenever the original runs, nothing stops and the rewriting runs and leaves
exactly the same memory. -/
theorem optimizer_preserves_meaning {w : Workspace} (reached : w.Reachable) {f : Function}
    (member : f ∈ w.module.functions) {g : Function} {τ : Store}
    (rewritten : Rewritten f w.store g τ) :
    (∀ pass : Pass, (∃ h count υ, pass.apply g τ = .ok (h, count) υ ∧
      Rewritten f w.store h υ) ∨ f.Overflows (pass.apply g) τ) ∧
    (∀ mode, (∃ h counts υ, g.optimize mode τ = .ok (h, counts) υ ∧
      Rewritten f w.store h υ) ∨ f.Overflows (g.optimize mode) τ) ∧
    g.outputs = f.outputs ∧
    (∀ p ∈ g.inputs, p ∈ f.inputs) ∧
    (∀ (c : Context) (μ : Memory), Memory.Lawful ⟨τ, c⟩ → Interpreter.run f ⟨τ, c⟩ = .ok () μ →
      f.Fits) ∧
    ∀ (c : Context) (μ : Memory), Interpreter.run f ⟨τ, c⟩ = .ok () μ →
      Interpreter.run g ⟨τ, c⟩ = .ok () μ := by
  obtain ⟨-, lawful⟩ := reached.lawful.functions f member
  have apart := reached.lawful.apart
  have agrees := rewritten.agrees lawful apart
  refine ⟨fun pass => ?_, fun mode => ?_, agrees.outputs, fun p read => ?_, fun c μ good ran => ?_,
    fun c μ ran => ?_⟩
  · obtain ⟨h, count, υ, made, -⟩ | past := agrees.lawful.apply apart pass
    · exact .inl ⟨h, count, υ, made, .pass pass rewritten made⟩
    · exact .inr (agrees.overflows past)
  · obtain ⟨h, counts, υ, made, -⟩ | past := agrees.lawful.optimize apart mode
    · exact .inl ⟨h, counts, υ, made, rewritten.optimize made⟩
    · exact .inr (agrees.overflows past)
  · rw [lawful.mem_inputs apart]
    rw [agrees.lawful.mem_inputs apart] at read
    exact agrees.sources p read
  · obtain ⟨val, evaluates, -⟩ := (Interpreter.run_eq_ok lawful.topological).1 ran
    exact evaluates.fits agrees.original good
  · obtain ⟨val, evaluates, delivered⟩ := (Interpreter.run_eq_ok lawful.topological).1 ran
    obtain ⟨val', evaluates', same⟩ := agrees.values _ val evaluates
    refine (Interpreter.run_eq_ok agrees.lawful.topological).2 ⟨val', evaluates', ?_⟩
    rw [same]
    exact delivered

/-- Optimized, the function has two nodes fewer and leaves what it left. -/
theorem optimizer_preserves_meaning_shift :
    ∃ g τ μ, Rewritten Shift.function Shift.workspace.store g τ ∧ g.size = 4 ∧
      Interpreter.run Shift.function ⟨τ, Shift.bindings⟩ = .ok () μ ∧
      Interpreter.run g ⟨τ, Shift.bindings⟩ = .ok () μ ∧
      μ.store.read Shift.handle = Shift.pair 3 0 := by
  obtain ⟨-, optimizes, -⟩ := optimizer_preserves_meaning Shift.reachable Shift.member .start
  have fits : Shift.function.Fits := by decide
  obtain ⟨g, counts, τ, made, rewritten⟩ := (optimizes .infer).resolve_right fun past => past.1 fits
  have concrete :
      (match Shift.function.optimize .infer Shift.workspace.store with
      | .ok (g, _) τ =>
        match Interpreter.run Shift.function ⟨τ, Shift.bindings⟩ with
        | .ok _ μ => decide (g.size = 4 ∧ μ.store.read Shift.handle = Shift.pair 3 0)
        | .error .. => false
      | .error .. => false) = true := by decide +kernel
  simp only [made] at concrete
  cases ran : Interpreter.run Shift.function ⟨τ, Shift.bindings⟩ with
  | error e μ =>
    rw [ran] at concrete
    cases concrete
  | ok u μ =>
    rw [ran] at concrete
    replace concrete := of_decide_eq_true concrete
    have meaning := optimizer_preserves_meaning Shift.reachable Shift.member rewritten
    exact ⟨g, τ, μ, rewritten, concrete.1, ran, meaning.2.2.2.2.2 Shift.bindings μ ran, concrete.2⟩

end TensorGraph
