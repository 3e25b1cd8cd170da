import Mathlib.Data.Nat.ModEq
import TensorGraph.Proofs.Engine.Resuming
import TensorGraph.Proofs.Run.Keeping
import TensorGraph.Proofs.Tensor.Rows

/-!
What a batch run feeds. Before the run of an iteration every placeholder is bound to a new tensor
whose rows are the next rows of its input, and the cursor moves only after the run, so that a
failure anywhere leaves it at the number of samples completed. As the width divides an input's
leading dimension, going once through the rows feeds each exactly once from any cursor.
-/

namespace TensorGraph

namespace Batch

variable {inputs rest : List (Placeholder × Tensor)} {p : Placeholder} {t u : Tensor}
  {width cursor : Nat} {μ ν bound : Memory}

/-- The placeholder and its input pass the checks with this width. -/
def Fits (width : Nat) (p : Placeholder) (t : Tensor) : Prop :=
  ∃ batch sample, p.ty.shape.dims = width :: sample ∧ t.ty.shape.dims = batch :: sample ∧
    0 < batch ∧ 0 < width ∧ width ∣ batch

theorem fits_of_checkInput {chosen found : Option Nat} (checked : checkInput chosen p t = .ok found) :
    ∃ width, found = some width ∧ (∀ w, chosen = some w → w = width) ∧ Fits width p t := by
  unfold checkInput at checked
  split at checked
  · cases checked
  next leading sample dims =>
    dsimp only at checked
    split at checked
    · cases checked
    next agrees =>
      split at checked
      · cases checked
      next batch others inputDims =>
        split at checked
        · cases checked
        next same =>
          split at checked
          · cases checked
          next divides =>
            simp only [not_or, ne_eq, Decidable.not_not] at agrees same divides
            obtain ⟨batchPositive, widthPositive, divides⟩ := divides
            cases checked
            refine ⟨_, rfl, ?_, batch, sample, ?_, ?_, ?_, ?_, ?_⟩
            · intro w isChosen
              simp [isChosen]
            · rw [← agrees, dims]
            · rw [inputDims, same]
            · omega
            · omega
            · exact Nat.dvd_of_mod_eq_zero divides

theorem fits_of_checkInputs {chosen last : Option Nat}
    (checked : inputs.foldlM (fun width (p, t) =>
      (checkInput width p t).mapError (Error.batchShapeMismatch p.name ·)) chosen = .ok last) :
    (∀ w, chosen = some w → last = some w) ∧
      ∀ entry ∈ inputs, Fits (last.getD 0) entry.1 entry.2 := by
  induction inputs generalizing chosen with
  | nil =>
    cases checked
    simp
  | cons entry rest ih =>
    rw [List.foldlM_cons] at checked
    obtain ⟨found, here, later⟩ := bind_eq_ok.1 checked
    obtain ⟨settled, fits⟩ := ih later
    obtain ⟨width, rfl, agrees, passes⟩ := fits_of_checkInput (mapError_eq_ok.1 here)
    have final : last = some width := settled width rfl
    refine ⟨fun w isChosen => by rw [agrees w isChosen, final], fun other member => ?_⟩
    rcases List.mem_cons.1 member with rfl | member
    · simpa [final] using passes
    · exact fits other member

theorem fits_of_sharedWidth (checked : sharedWidth inputs = .ok width) :
    ∀ entry ∈ inputs, Fits width entry.1 entry.2 := by
  obtain ⟨last, passed, same⟩ := bind_eq_ok.1 checked
  cases same
  exact (fits_of_checkInputs passed).2

theorem fits_of_validate {placeholders : List Placeholder} {tensors : List Tensor}
    (passed : validate placeholders tensors = .ok width) :
    ∀ entry ∈ placeholders.zip tensors, Fits width entry.1 entry.2 := by
  unfold validate at passed
  split at passed
  · cases passed
  · exact fits_of_sharedWidth passed

/-- How many rows an input has. -/
def rows (t : Tensor) : Nat := t.ty.shape.dims.headD 0

/-- The row of an input with `batch` rows that becomes row `r` from `cursor` on. -/
def sourceRow (batch cursor r : Nat) : Nat := (cursor + r) % batch

/-- The entry of `p` that counts: the last. -/
def Counts (inputs : List (Placeholder × Tensor)) (p : Placeholder) (t : Tensor) : Prop :=
  ∃ before after, inputs = before ++ (p, t) :: after ∧ ∀ entry ∈ after, entry.1.id ≠ p.id

/-- `u` is a new tensor of `width` rows, those of `t` from `cursor` on. -/
structure Slice (width cursor : Nat) (t : Tensor) (μ bound : Memory) (u : Tensor) : Prop where
  new : μ.store.cells.size ≤ u.address
  held : bound.store.Holds u
  type : u.ty = ⟨t.ty.kind, ⟨width :: t.ty.shape.trailing⟩⟩
  rows : ∀ r < width, (bound.store.read u).row r =
    (μ.store.read t).row (sourceRow (rows t) cursor r)

/-- `bound` is `μ` with every placeholder bound to the rows of its input from `cursor` on, and
otherwise unchanged. -/
structure Fed (inputs : List (Placeholder × Tensor)) (width cursor : Nat) (μ bound : Memory) :
    Prop where
  grows : μ.store.Grows bound.store
  others : ∀ id, (∀ entry ∈ inputs, entry.1.id ≠ id) →
    bound.context.get? id = μ.context.get? id
  slices : ∀ p t, Counts inputs p t → ∃ u, bound.context.get? p.id = some u ∧
    Slice width cursor t μ bound u
  apart : ∀ p t q s, Counts inputs p t → Counts inputs q s → p.id ≠ q.id →
    ∀ u v, bound.context.get? p.id = some u → bound.context.get? q.id = some v →
      u.address ≠ v.address

theorem bindRows_cons
    (made : (liftM (t.compute (·.rowsWrapping (cursor % rows t) width)) : Run Tensor) μ = .ok u ν) :
    bindRows ((p, t) :: rest) width cursor μ =
      bindRows rest width cursor ⟨ν.store, ν.context.insert p.id u⟩ := by
  change ((do
    Run.bindTo p.id (← t.compute (·.rowsWrapping (cursor % rows t) width))) >>=
      fun _ => bindRows rest width cursor : Run Unit) μ = _
  rw [state_bind, state_bind, made]
  rfl

theorem Counts.cons {entry : Placeholder × Tensor} (counts : Counts (entry :: rest) p t) :
    entry = (p, t) ∧ (∀ other ∈ rest, other.1.id ≠ p.id) ∨ Counts rest p t := by
  obtain ⟨before, after, split, last⟩ := counts
  cases before with
  | nil =>
    obtain ⟨rfl, rfl⟩ := List.cons.inj split
    exact .inl ⟨rfl, last⟩
  | cons first before =>
    obtain ⟨rfl, rfl⟩ := List.cons.inj split
    exact .inr ⟨before, after, rfl, last⟩

theorem Counts.mem (counts : Counts inputs p t) : (p, t) ∈ inputs := by
  obtain ⟨before, after, rfl, -⟩ := counts
  simp

/-- A new tensor with the next rows of a good input. -/
theorem compute_rows (held : μ.store.Holds t) (fits : Fits width p t)
    (small : cursor + width < Word.bound) :
    ∃ v, (liftM (t.compute (·.rowsWrapping (cursor % rows t) width)) : Run Tensor) μ =
        .ok (μ.store.allocate v).1 { μ with store := (μ.store.allocate v).2 } ∧
      v.WellFormed ∧ v.ty = ⟨t.ty.kind, ⟨width :: t.ty.shape.trailing⟩⟩ ∧
      ∀ r < width, v.row r = (μ.store.read t).row (sourceRow (rows t) cursor r) := by
  obtain ⟨batch, sample, -, dims, positive, -, divides⟩ := fits
  obtain ⟨wellFormed, type⟩ := held.read
  have count : rows t = batch := by simp [rows, dims]
  have dims' : (μ.store.read t).ty.shape.dims = batch :: sample := by rw [type, dims]
  -- There are no more rows in the slice than in the input, which has been counted.
  have counted : Shape.Fits ⟨width :: sample⟩ := by
    have whole := wellFormed.fits
    rw [show (μ.store.read t).ty.shape = ⟨batch :: sample⟩ from congrArg Shape.mk dims'] at whole
    exact whole.fewer (Nat.le_of_dvd positive divides)
  have back := Nat.mod_le cursor batch
  have small : cursor % batch + width ≤ Word.bound := by omega
  obtain ⟨v, made, good, sliced, row⟩ :=
    Value.rowsWrapping_ok wellFormed dims' positive small counted
  refine ⟨v, ?_, good, ?_, fun r inside => ?_⟩
  · rw [Run.store_eq, Tensor.compute_eq, count, made]
  · rw [sliced, type, Shape.trailing, dims, List.tail_cons]
  · rw [row r inside, sourceRow, count, Nat.mod_add_mod]

/-- The memory with a new tensor bound to `p`. -/
def bindNew (p : Placeholder) (v : Value) (μ : Memory) : Memory :=
  ⟨(μ.store.allocate v).2, μ.context.insert p.id (μ.store.allocate v).1⟩

/-- The first input's slice, once later placeholders are bound too. -/
theorem Fed.first {v : Value} (fed : Fed rest width cursor (bindNew p v μ) bound)
    (good : v.WellFormed) (type : v.ty = ⟨t.ty.kind, ⟨width :: t.ty.shape.trailing⟩⟩)
    (row : ∀ r < width, v.row r = (μ.store.read t).row (sourceRow (rows t) cursor r))
    (last : ∀ other ∈ rest, other.1.id ≠ p.id) :
    bound.context.get? p.id = some (μ.store.allocate v).1 ∧
      Slice width cursor t μ bound (μ.store.allocate v).1 := by
  have stored : (μ.store.allocate v).2.Holds (μ.store.allocate v).1 :=
    μ.store.holds_allocate good
  refine ⟨?_, Nat.le_refl _, fed.grows.evolves _ stored, type, fun r inside => ?_⟩
  · rw [fed.others p.id last]
    simp [bindNew]
  · rw [fed.grows.read stored]
    simpa [bindNew] using row r inside

/-- A later input's slice is new to the memory before the first placeholder was bound too. -/
theorem Slice.of_bindNew {v : Value} (slice : Slice width cursor t (bindNew p v μ) bound u)
    (held : μ.store.Holds t) : μ.store.cells.size < u.address ∧ Slice width cursor t μ bound u := by
  have later : μ.store.cells.size < u.address := by
    have new := slice.new
    simp only [bindNew, Store.allocate, Array.size_push] at new
    omega
  refine ⟨later, Nat.le_of_lt later, slice.held, slice.type, fun r inside => ?_⟩
  rw [slice.rows r inside, bindNew, (μ.store.grows_allocate v).read held]

theorem Fed.nil (width cursor : Nat) (μ : Memory) : Fed [] width cursor μ μ where
  grows := .refl μ.store
  others _ _ := rfl
  slices _ _ counts := nomatch counts.mem
  apart _ _ _ _ counts := nomatch counts.mem

theorem Fed.cons {v : Value} (fed : Fed rest width cursor (bindNew p v μ) bound)
    (held : ∀ entry ∈ rest, μ.store.Holds entry.2) (good : v.WellFormed)
    (type : v.ty = ⟨t.ty.kind, ⟨width :: t.ty.shape.trailing⟩⟩)
    (row : ∀ r < width, v.row r = (μ.store.read t).row (sourceRow (rows t) cursor r)) :
    Fed ((p, t) :: rest) width cursor μ bound := by
  have later {q : Placeholder} {s : Tensor} (counts : Counts rest q s) :
      ∃ u, bound.context.get? q.id = some u ∧ μ.store.cells.size < u.address ∧
        Slice width cursor s μ bound u := by
    obtain ⟨u, found, slice⟩ := fed.slices q s counts
    exact ⟨u, found, slice.of_bindNew (held _ counts.mem)⟩
  constructor
  case grows => exact (μ.store.grows_allocate v).trans fed.grows
  case others =>
    intro id none
    rw [fed.others id fun entry member => none entry (List.mem_cons_of_mem _ member)]
    exact Table.get?_insert_ne _ (none (p, t) List.mem_cons_self).symm _
  case slices =>
    intro q s counts
    rcases counts.cons with ⟨same, last⟩ | counts
    · cases same
      exact ⟨_, fed.first good type row last⟩
    · obtain ⟨u, found, -, slice⟩ := later counts
      exact ⟨u, found, slice⟩
  case apart =>
    have atEnd (last : ∀ other ∈ rest, other.1.id ≠ p.id) (w : Tensor)
        (found : bound.context.get? p.id = some w) : w.address = μ.store.cells.size := by
      obtain ⟨own, -⟩ := fed.first good type row last
      rw [← Option.some.inj (own.symm.trans found)]
      rfl
    have beyond {q : Placeholder} {s : Tensor} (counts : Counts rest q s) (w : Tensor)
        (found : bound.context.get? q.id = some w) : μ.store.cells.size < w.address := by
      obtain ⟨u, own, far, -⟩ := later counts
      rwa [← Option.some.inj (own.symm.trans found)]
    intro q s q' s' counts counts' different u u' found found'
    rcases counts.cons with ⟨same, last⟩ | inner <;>
      rcases counts'.cons with ⟨same', last'⟩ | inner'
    · cases same
      cases same'
      exact (different rfl).elim
    · cases same
      have := atEnd last u found
      have := beyond inner' u' found'
      omega
    · cases same'
      have := atEnd last' u' found'
      have := beyond inner u found
      omega
    · exact fed.apart q s q' s' inner inner' different u u' found found'

theorem bindRows_ok (held : ∀ entry ∈ inputs, μ.store.Holds entry.2)
    (fits : ∀ entry ∈ inputs, Fits width entry.1 entry.2) (small : cursor + width < Word.bound) :
    ∃ bound, bindRows inputs width cursor μ = .ok () bound ∧ Fed inputs width cursor μ bound := by
  induction inputs generalizing μ with
  | nil => exact ⟨μ, rfl, .nil width cursor μ⟩
  | cons entry rest ih =>
    obtain ⟨p, t⟩ := entry
    simp only [List.mem_cons, forall_eq_or_imp] at held fits
    obtain ⟨v, made, good, type, row⟩ := compute_rows held.1 fits.1 small
    have grows : μ.store.Grows (bindNew p v μ).store := μ.store.grows_allocate v
    obtain ⟨bound, bindsRest, fed⟩ := ih (μ := bindNew p v μ)
      (fun other member => grows.evolves _ (held.2 other member)) fits.2
    refine ⟨bound, ?_, fed.cons held.2 good type row⟩
    rw [bindRows_cons made]
    exact bindsRest

/-- Among `n` numbers in a row exactly one has a given remainder. -/
theorem existsUnique_mod_eq {n q : Nat} (a : Nat) (inside : q < n) :
    ∃! x, x < n ∧ (a + x) % n = q := by
  have positive : 0 < n := Nat.zero_lt_of_lt inside
  have bound : a % n < n := Nat.mod_lt a positive
  refine existsUnique_of_exists_of_unique ?_ ?_
  · refine ⟨(q + (n - a % n)) % n, Nat.mod_lt _ positive, ?_⟩
    calc (a + (q + (n - a % n)) % n) % n = (a % n + (q + (n - a % n))) % n := by simp
      _ = (q + n) % n := by
        congr 1
        omega
      _ = q := by rw [Nat.add_mod_right, Nat.mod_eq_of_lt inside]
  · rintro x y ⟨smallx, samex⟩ ⟨smally, samey⟩
    have congruent : x ≡ y [MOD n] := Nat.ModEq.add_left_cancel' a (samex.trans samey.symm)
    exact congruent.eq_of_lt_of_lt smallx smally

/-- Going once through the rows of an input feeds each of them exactly once, wherever the cursor
stands at first. -/
theorem existsUnique_sourceRow {batch q : Nat} (divides : width ∣ batch) (positive : 0 < width)
    (start first : Nat) (inside : q < batch) :
    ∃! fed : Nat × Nat, (first ≤ fed.1 ∧ fed.1 < first + batch / width ∧ fed.2 < width) ∧
      sourceRow batch (start + fed.1 * width) fed.2 = q := by
  obtain ⟨times, rfl⟩ := divides
  rw [Nat.mul_div_cancel_left _ positive]
  obtain ⟨x, ⟨small, same⟩, only⟩ := existsUnique_mod_eq (start + first * width) inside
  -- the `x`-th row from the first iteration on is row `x % width` of the `x / width`-th
  have place (j r : Nat) : start + (first + j) * width + r =
      start + first * width + (j * width + r) := by
    rw [Nat.add_mul]
    omega
  refine ⟨(first + x / width, x % width), ⟨⟨Nat.le_add_right _ _, ?_, Nat.mod_lt x positive⟩, ?_⟩, ?_⟩
  · simpa using Nat.div_lt_of_lt_mul small
  · rw [sourceRow, place, Nat.div_add_mod', same]
  · rintro ⟨i, r⟩ ⟨⟨after, before, short⟩, fed⟩
    obtain ⟨j, rfl⟩ := Nat.exists_eq_add_of_le after
    rw [sourceRow, place] at fed
    have own : j * width + r = x := by
      refine only _ ⟨?_, fed⟩
      rw [Nat.mul_comm width]
      exact Value.place_lt (by omega) short
    have quotient : x / width = j := by
      rw [← own, Nat.add_comm, Nat.add_mul_div_right _ _ positive, Nat.div_eq_of_lt short,
        Nat.zero_add]
    have remainder : x % width = r := by
      rw [← own, Nat.mul_add_mod_self_right, Nat.mod_eq_of_lt short]
    rw [quotient, remainder]

variable {e : Engine} {s : BatchState}

/-- All inputs are good tensors that pass the checks. -/
structure Ready (inputs : List (Placeholder × Tensor)) (width : Nat) (μ : Memory) : Prop where
  held : ∀ entry ∈ inputs, μ.store.Holds entry.2
  fits : ∀ entry ∈ inputs, Fits width entry.1 entry.2

theorem Ready.evolve (ready : Ready inputs width μ) (evolves : μ.store.Evolves ν.store) :
    Ready inputs width ν :=
  ⟨fun entry member => evolves _ (ready.held entry member), ready.fits⟩

/-- One iteration: the cursor moves last. -/
theorem iterate_one (ready : Ready inputs width s.memory) :
    if cursorBound ≤ s.cursor + width then
      iterate e inputs width 1 s = .error (.cursorOverflow s.cursor width) s
    else ∃ bound, Fed inputs width s.cursor s.memory bound ∧
      iterate e inputs width 1 s =
        match e.run bound with
        | .ok () μ => .ok () ⟨μ, s.cursor + width⟩
        | .error err μ => .error err ⟨μ, s.cursor⟩ := by
  rw [iterate_succ]
  split
  next => rfl
  next inside =>
    -- The cursor moves on to a word, so the rows up to there can be counted.
    obtain ⟨bound, binds, fed⟩ :=
      bindRows_ok ready.held ready.fits (Nat.lt_of_not_le inside : s.cursor + width < Word.bound)
    refine ⟨bound, fed, ?_⟩
    rw [binds]
    dsimp only
    cases e.run bound <;> rfl

/-- After some iterations the cursor has moved on by the width for each, and the inputs are
still good, whatever the runs did. -/
theorem iterate_ok (keeps : e.Keeps) {iterations : Nat} {s' : BatchState}
    (ready : Ready inputs width s.memory)
    (ran : iterate e inputs width iterations s = .ok () s') :
    s'.cursor = s.cursor + iterations * width ∧ Ready inputs width s'.memory := by
  induction iterations generalizing s with
  | zero =>
    cases ran
    simpa using ready
  | succ iterations ih =>
    rw [Nat.add_comm, iterate_add] at ran
    obtain ⟨u, t, here, rest⟩ := state_bind_eq_ok.1 ran
    have step := iterate_one (e := e) ready
    split at step
    next => cases step.symm.trans here
    next =>
      obtain ⟨bound, fed, step⟩ := step
      rw [here] at step
      split at step
      next μ done =>
        cases step
        obtain ⟨cursor, ready'⟩ := ih
          (ready.evolve (fed.grows.evolves.trans ((Engine.keeps_run keeps).of_ok done))) rest
        refine ⟨?_, ready'⟩
        rw [cursor, Nat.succ_mul]
        dsimp only
        omega
      next => cases step

theorem iterate_one_error {err : Error} {s' : BatchState} (ready : Ready inputs width s.memory)
    (failed : iterate e inputs width 1 s = .error err s') : s'.cursor = s.cursor := by
  have step := iterate_one (e := e) ready
  split at step
  next =>
    cases step.symm.trans failed
    rfl
  next =>
    obtain ⟨bound, -, step⟩ := step
    rw [failed] at step
    split at step
    next => cases step
    next =>
      cases step
      rfl

/-- When some iteration fails, those before it are complete. -/
theorem iterate_error {iterations : Nat} {err : Error} {s' : BatchState}
    (failed : iterate e inputs width iterations s = .error err s') :
    ∃ j t, j < iterations ∧ iterate e inputs width j s = .ok () t ∧
      iterate e inputs width 1 t = .error err s' := by
  induction iterations with
  | zero => cases failed
  | succ iterations ih =>
    rw [iterate_add, state_bind] at failed
    cases earlier : iterate e inputs width iterations s with
    | ok u t =>
      rw [earlier] at failed
      exact ⟨iterations, t, Nat.lt_succ_self _, earlier, failed⟩
    | error err' t =>
      rw [earlier] at failed
      cases failed
      obtain ⟨j, t, before, ran, failed⟩ := ih earlier
      exact ⟨j, t, Nat.lt_succ_of_lt before, ran, failed⟩

end Batch

open Batch in
/-- A batch run that does not pass the checks changes nothing. Otherwise iteration `i` starts from
the cursor moved on by `i` widths. If it would move the cursor past a word, it fails as it is;
else every placeholder is bound to a new tensor whose row `r` is row `cursor + r` of its input,
counted around, the function is run on that, and the cursor moves on only if the run succeeds.
The first failure ends the batch run, with the cursor at the start of that iteration. Over as
many iterations as the width goes into an input's rows, each row is fed exactly once. -/
theorem Engine.runBatch_feeds (e : Engine) (placeholders : List Placeholder) (tensors : List Tensor)
    (s : BatchState) (keeps : e.Keeps) (held : ∀ t ∈ tensors, s.memory.store.Holds t) :
    (∀ err, validate placeholders tensors = .error err →
      ∀ k, e.runBatch k placeholders tensors s = .error err s) ∧
    ∀ width, validate placeholders tensors = .ok width →
      (∀ i s', e.runBatch i placeholders tensors s = .ok () s' →
        s'.cursor = s.cursor + i * width ∧
        if cursorBound ≤ s.cursor + (i + 1) * width then
          e.runBatch (i + 1) placeholders tensors s = .error (.cursorOverflow s'.cursor width) s'
        else ∃ bound, Fed (placeholders.zip tensors) width s'.cursor s'.memory bound ∧
          e.runBatch (i + 1) placeholders tensors s =
            match e.run bound with
            | .ok () μ => .ok () ⟨μ, s.cursor + (i + 1) * width⟩
            | .error err μ => .error err ⟨μ, s.cursor + i * width⟩) ∧
      (∀ k err s', e.runBatch k placeholders tensors s = .error err s' →
        ∃ j t, j < k ∧ e.runBatch j placeholders tensors s = .ok () t ∧
          e.runBatch (j + 1) placeholders tensors s = .error err s' ∧
          s'.cursor = s.cursor + j * width) ∧
      ∀ p t, Counts (placeholders.zip tensors) p t → ∀ first q, q < rows t →
        ∃! fed : Nat × Nat, (first ≤ fed.1 ∧ fed.1 < first + rows t / width ∧ fed.2 < width) ∧
          sourceRow (rows t) (s.cursor + fed.1 * width) fed.2 = q := by
  refine ⟨fun err refused k => ?_, fun width passed => ?_⟩
  · rw [runBatch_eq, refused]
  · have ready : Ready (placeholders.zip tensors) width s.memory :=
      ⟨fun entry member => held _ (List.of_mem_zip member).2, fits_of_validate passed⟩
    simp only [runBatch_eq, passed]
    refine ⟨fun i s' ran => ?_, fun k err s' failed => ?_, fun p t counts first q inside => ?_⟩
    · obtain ⟨cursor, ready'⟩ := iterate_ok keeps ready ran
      have next : s.cursor + (i + 1) * width = s'.cursor + width := by
        rw [cursor, Nat.succ_mul, Nat.add_assoc]
      rw [iterate_add, state_bind_of_ok ran, next, ← cursor]
      exact ⟨rfl, iterate_one ready'⟩
    · obtain ⟨j, t, before, ran, failed⟩ := iterate_error failed
      obtain ⟨cursor, ready'⟩ := iterate_ok keeps ready ran
      refine ⟨j, t, before, ran, ?_, ?_⟩
      · rw [iterate_add, state_bind_of_ok ran, failed]
      · rw [iterate_one_error ready' failed, cursor]
    · obtain ⟨batch, sample, -, dims, -, positive, divides⟩ := ready.fits _ counts.mem
      have count : rows t = batch := congrArg (·.headD 0) dims
      rw [count] at inside ⊢
      exact existsUnique_sourceRow divides positive s.cursor first inside

namespace Workspace.Shift

/-- Six numbers, of which a batch run takes two at a time. -/
def samples : Value :=
  ⟨⟨.float, .vector 6⟩, #[.ofInt 1, .ofInt 2, .ofInt 3, .ofInt 4, .ofInt 5, .ofInt 6]⟩

def input : Tensor := ⟨1, ⟨.float, .vector 6⟩⟩

/-- The cursor stands at the last sample. -/
def halfway : BatchState := ⟨⟨⟨#[pair 1 (-3), samples]⟩, bindings⟩, 5⟩

/-- Only this function is compiled. -/
def engine : Engine :=
  { Engine.new .interpreter ⟨0⟩ with registry := Table.empty.insert "shift" (.interpreted function) }

theorem samples_held : halfway.memory.store.Holds input :=
  ⟨samples, rfl, rfl, ⟨by decide, by decide, by decide, by decide +kernel⟩⟩

theorem keeps : engine.Keeps := by
  intro name exe registered
  rw [engine, Table.get?_insert] at registered
  split at registered
  · cases registered
    exact Executable.keeps_interpreted function
  · cases registered

end Workspace.Shift

open Batch Workspace in
theorem Engine.runBatch_feeds_shift :
    ∃ bound, Fed [(Shift.source, Shift.input)] 2 5 Shift.halfway.memory bound ∧
      Shift.engine.runBatch 1 [Shift.source] [Shift.input] Shift.halfway =
        match Shift.engine.run bound with
        | .ok () μ => .ok () ⟨μ, 7⟩
        | .error err μ => .error err ⟨μ, 5⟩ := by
  obtain ⟨-, feeds⟩ := runBatch_feeds Shift.engine [Shift.source] [Shift.input] Shift.halfway
    Shift.keeps (fun t member => List.mem_singleton.1 member ▸ Shift.samples_held)
  obtain ⟨-, step⟩ := (feeds 2 rfl).1 0 Shift.halfway rfl
  exact step

end TensorGraph
