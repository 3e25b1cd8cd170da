import TensorGraph.Engine.Binding
import TensorGraph.Proofs.Engine.Feeding
import TensorGraph.Proofs.Graph.Naming

/-!
Binding lists of tensors, as their caller sees it. The context is changed in place, a binding at a
time, but only once every name is found and there are as many tensors as names. So a refused call
leaves the context alone, and what a call binds depends on the last tensor given for a placeholder.
-/

namespace TensorGraph

namespace Module

variable {m : Module} {name : String} {p : Placeholder}

theorem placeholderNamed_eq_ok (found : m.placeholderNamed name = .ok p) :
    p ∈ m.placeholders ∧ p.name = name := by
  unfold placeholderNamed at found
  split at found
  next q here =>
    cases found
    exact ⟨List.mem_of_find?_eq_some here, by simpa using List.find?_some here⟩
  next => cases found

theorem exists_placeholderNamed (declared : ∃ p ∈ m.placeholders, p.name = name) :
    ∃ p, m.placeholderNamed name = .ok p := by
  unfold placeholderNamed
  split
  next p _ => exact ⟨p, rfl⟩
  next missing =>
    obtain ⟨p, member, named⟩ := declared
    have other := List.find?_eq_none.1 missing p member
    simp [named] at other

theorem placeholderNamed_unknown (unknown : ∀ p ∈ m.placeholders, p.name ≠ name) :
    m.placeholderNamed name = .error (.unknownPlaceholder name) := by
  have missing : m.placeholders.find? (·.name = name) = none :=
    List.find?_eq_none.2 fun p member => by simpa using unknown p member
  rw [placeholderNamed, missing]

end Module

namespace Context

variable {c d : Context} {placeholders : List Placeholder} {tensors : List Tensor}

/-- Binds tensors one after another, in place. -/
def bindEach (pairs : List (Placeholder × Tensor)) : EStateM Error Context Unit :=
  pairs.forM fun (p, t) => modify (·.insert p.id t)

def bindAllInPlace (placeholders : List Placeholder) (tensors : List Tensor) :
    EStateM Error Context Unit := do
  if placeholders.length ≠ tensors.length then
    throw (.arityMismatch "bind_placeholders" placeholders.length tensors.length)
  bindEach (placeholders.zip tensors)

def bindNamedInPlace (m : Module) (names : List String) (tensors : List Tensor) :
    EStateM Error Context Unit := do
  bindAllInPlace (← names.mapM fun name => liftM (m.placeholderNamed name)) tensors

/-- A change that is worked out aside and put in place only if it succeeds. -/
def commit (x : Except Error Context) (c : Context) : EStateM.Result Error Context Unit :=
  match x with
  | .ok d => .ok () d
  | .error e => .error e c

theorem bindEach_eq (pairs : List (Placeholder × Tensor)) (c : Context) :
    bindEach pairs c = .ok () (pairs.foldl (fun c (p, t) => c.insert p.id t) c) := by
  induction pairs generalizing c with
  | nil => rfl
  | cons pair rest ih => exact ih (c.insert pair.1.id pair.2)

theorem bindAllInPlace_eq (placeholders : List Placeholder) (tensors : List Tensor) (c : Context) :
    bindAllInPlace placeholders tensors c = commit (c.bindAll placeholders tensors) c := by
  unfold bindAllInPlace bindAll
  by_cases same : placeholders.length = tensors.length
  · rw [if_pos same, if_neg (not_not_intro same)]
    exact bindEach_eq _ c
  · rw [if_neg same, if_pos same]
    rfl

theorem lookUp_eq (m : Module) (names : List String) (c : Context) :
    (names.mapM fun name => liftM (m.placeholderNamed name) : EStateM Error Context _) c =
      match names.mapM m.placeholderNamed with
      | .ok placeholders => .ok placeholders c
      | .error e => .error e c := by
  induction names with
  | nil => rfl
  | cons name rest ih =>
    rw [List.mapM_cons, List.mapM_cons, state_bind, state_check]
    cases m.placeholderNamed name with
    | error e => rfl
    | ok p =>
      dsimp only
      rw [state_bind, ih, ok_bind]
      cases rest.mapM m.placeholderNamed <;> rfl

theorem bindNamedInPlace_eq (m : Module) (names : List String) (tensors : List Tensor)
    (c : Context) :
    bindNamedInPlace m names tensors c = commit (c.bindNamed m names tensors) c := by
  rw [bindNamedInPlace, bindNamed, state_bind, lookUp_eq]
  cases names.mapM m.placeholderNamed with
  | error e => rfl
  | ok placeholders => exact bindAllInPlace_eq placeholders tensors c

/-- `d` is `c` with each placeholder bound to the last tensor that is given for it, and otherwise
the same. -/
structure Rebound (placeholders : List Placeholder) (tensors : List Tensor) (c d : Context) :
    Prop where
  each : ∀ p ∈ placeholders, ∃ t ∈ tensors, d.get? p.id = some t
  last : ∀ p t, Batch.Counts (placeholders.zip tensors) p t → d.get? p.id = some t
  others : ∀ id, (∀ p ∈ placeholders, p.id ≠ id) → d.get? id = c.get? id

section

variable {pairs : List (Placeholder × Tensor)} {p : Placeholder} {t : Tensor} {id : PlaceholderId}

theorem get?_foldl_other (other : ∀ e ∈ pairs, e.1.id ≠ id) (c : Context) :
    (pairs.foldl (fun c (p, t) => c.insert p.id t) c).get? id = c.get? id := by
  induction pairs generalizing c with
  | nil => rfl
  | cons pair rest ih =>
    obtain ⟨first, later⟩ := List.forall_mem_cons.1 other
    rw [List.foldl_cons, ih later, Table.get?_insert_ne _ first.symm]

theorem get?_foldl_counts (counts : Batch.Counts pairs p t) (c : Context) :
    (pairs.foldl (fun c (p, t) => c.insert p.id t) c).get? p.id = some t := by
  obtain ⟨before, after, rfl, last⟩ := counts
  rw [List.foldl_append, List.foldl_cons, get?_foldl_other last, Table.get?_insert_self]

theorem exists_counts (given : ∃ e ∈ pairs, e.1.id = id) :
    ∃ p t, p.id = id ∧ Batch.Counts pairs p t := by
  induction pairs with
  | nil => simp at given
  | cons pair rest ih =>
    by_cases again : ∃ e ∈ rest, e.1.id = id
    · obtain ⟨p, t, same, before, after, split, last⟩ := ih again
      exact ⟨p, t, same, pair :: before, after, by rw [split, List.cons_append], last⟩
    · have once : ∀ e ∈ rest, e.1.id ≠ id := fun e member same => again ⟨e, member, same⟩
      obtain ⟨e, member, same⟩ := given
      obtain rfl | later := List.mem_cons.1 member
      · exact ⟨e.1, e.2, same, [], rest, rfl, fun other present => same ▸ once other present⟩
      · exact absurd same (once e later)

end

theorem bindAll_rebound (same : placeholders.length = tensors.length) (c : Context) :
    ∃ d, c.bindAll placeholders tensors = .ok d ∧ Rebound placeholders tensors c d := by
  refine ⟨_, if_pos same, ⟨fun p member => ?_, fun p t counts => get?_foldl_counts counts c,
    fun id other => get?_foldl_other (fun e present => ?_) c⟩⟩
  · rw [← List.map_fst_zip (Nat.le_of_eq same)] at member
    obtain ⟨e, given, rfl⟩ := List.mem_map.1 member
    obtain ⟨q, t, own, counts⟩ := exists_counts ⟨e, given, rfl⟩
    exact ⟨t, (List.of_mem_zip counts.mem).2, own ▸ get?_foldl_counts counts c⟩
  · exact other e.1 (List.of_mem_zip present).1

theorem bindNamed_declared {m : Module} {names : List String}
    (declared : ∀ name ∈ names, ∃ p ∈ m.placeholders, p.name = name) (c : Context) :
    ∃ placeholders, names.mapM m.placeholderNamed = .ok placeholders ∧
      List.Forall₂ (fun name p => p ∈ m.placeholders ∧ p.name = name) names placeholders ∧
      ∀ tensors, c.bindNamed m names tensors = c.bindAll placeholders tensors := by
  obtain ⟨placeholders, found⟩ :=
    exists_mapM_eq_ok fun name member => Module.exists_placeholderNamed (declared name member)
  have results : List.Forall₂ (· = ·) (names.map m.placeholderNamed) (placeholders.map .ok) := by
    rw [List.forall₂_eq_eq_eq]
    exact mapM_eq_ok.1 found
  rw [List.forall₂_map_left_iff, List.forall₂_map_right_iff] at results
  exact ⟨placeholders, found, results.imp fun _ _ here => Module.placeholderNamed_eq_ok here,
    fun tensors => by rw [bindNamed, found, ok_bind]⟩

end Context

open Context Workspace

/-- Binding by name is binding the placeholders of these names, and it is all or nothing. In a module
ids and names tell the same placeholders apart. If all names are declared, the outcome is that of
binding their placeholders: lists of unequal length are refused, and else each placeholder is bound
to the last tensor given for it, with nothing else changed. If some name is not, the first such name
is reported, whatever the lengths. Worked out in place, one binding at a time, each of the two
changes the context only if it succeeds. -/
theorem named_binding {w : Workspace} (reached : w.Reachable) (names : List String)
    (tensors : List Tensor) (c : Context) :
    (∀ p ∈ w.module.placeholders, ∀ q ∈ w.module.placeholders, p.id = q.id ↔ p.name = q.name) ∧
    (∀ placeholders : List Placeholder,
      bindAllInPlace placeholders tensors c = commit (c.bindAll placeholders tensors) c ∧
      (placeholders.length = tensors.length →
        ∃ d, c.bindAll placeholders tensors = .ok d ∧ Rebound placeholders tensors c d) ∧
      (placeholders.length ≠ tensors.length → c.bindAll placeholders tensors =
        .error (.arityMismatch "bind_placeholders" placeholders.length tensors.length))) ∧
    bindNamedInPlace w.module names tensors c = commit (c.bindNamed w.module names tensors) c ∧
    ((∀ name ∈ names, ∃ p ∈ w.module.placeholders, p.name = name) →
      ∃ placeholders, names.mapM w.module.placeholderNamed = .ok placeholders ∧
        List.Forall₂ (fun name p => p ∈ w.module.placeholders ∧ p.name = name) names placeholders ∧
        c.bindNamed w.module names tensors = c.bindAll placeholders tensors ∧
        bindNamedInPlace w.module names tensors c = bindAllInPlace placeholders tensors c) ∧
    ∀ before name after, names = before ++ name :: after →
      (∀ earlier ∈ before, ∃ p ∈ w.module.placeholders, p.name = earlier) →
      (∀ p ∈ w.module.placeholders, p.name ≠ name) →
      c.bindNamed w.module names tensors = .error (.unknownPlaceholder name) := by
  refine ⟨?ids, fun placeholders => ⟨bindAllInPlace_eq placeholders tensors c,
    fun same => bindAll_rebound same c, fun unequal => if_neg unequal⟩,
    bindNamedInPlace_eq w.module names tensors c, ?declared, ?unknown⟩
  case ids =>
    intro p left q right
    constructor
    · intro same
      rw [reached.lawful.apart p left q right same]
    · intro same
      rw [List.inj_on_of_nodup_map reached.names_distinct left right same]
  case declared =>
    intro declared
    obtain ⟨placeholders, found, named, same⟩ := bindNamed_declared declared c
    refine ⟨placeholders, found, named, same tensors, ?_⟩
    rw [bindNamedInPlace_eq, bindAllInPlace_eq, same]
  case unknown =>
    rintro before name after rfl declared unknown
    have missing : (before ++ name :: after).mapM w.module.placeholderNamed =
        .error (.unknownPlaceholder name) :=
      mapM_eq_error (fun earlier member => Module.exists_placeholderNamed (declared earlier member))
        (Module.placeholderNamed_unknown unknown)
    rw [bindNamed, missing, error_bind]

/-- A name given twice, and a name that no placeholder has. -/
theorem named_binding_shift :
    let bound (address : Nat) : Tensor := ⟨address, ⟨.float, .vector 2⟩⟩
    let m := Shift.workspace.module
    Shift.workspace.Reachable ∧
      (∃ d, Shift.bindings.bindNamed m ["x", "y", "x"] [bound 1, bound 2, bound 3] = .ok d ∧
        d.get? Shift.source.id = some (bound 3) ∧ d.get? Shift.target.id = some (bound 2)) ∧
      bindNamedInPlace m ["y", "z", "x"] [bound 1] Shift.bindings =
        .error (.unknownPlaceholder "z") Shift.bindings := by
  intro bound m
  refine ⟨Shift.reachable, ?_, ?_⟩
  · obtain ⟨-, lists, -, declared, -⟩ := named_binding Shift.reachable ["x", "y", "x"]
      [bound 1, bound 2, bound 3] Shift.bindings
    obtain ⟨placeholders, found, -, same, -⟩ := declared (by decide)
    obtain rfl : [Shift.source, Shift.target, Shift.source] = placeholders := by
      injection found
    obtain ⟨d, made, rebound⟩ := (lists [Shift.source, Shift.target, Shift.source]).2.1 rfl
    refine ⟨d, same.trans made, rebound.last _ _ ?_, rebound.last _ _ ?_⟩
    · exact ⟨[(Shift.source, bound 1), (Shift.target, bound 2)], [], rfl, by simp⟩
    · exact ⟨[(Shift.source, bound 1)], [(Shift.source, bound 3)], rfl, by decide⟩
  · obtain ⟨-, -, inPlace, -, unknown⟩ := named_binding Shift.reachable ["y", "z", "x"] [bound 1]
      Shift.bindings
    rw [inPlace, unknown ["y"] "z" ["x"] rfl (by decide) (by decide)]
    rfl

end TensorGraph
