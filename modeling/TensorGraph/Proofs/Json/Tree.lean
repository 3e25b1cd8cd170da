import TensorGraph.Proofs.Json.Text
import TensorGraph.Proofs.Lists

/-!
Documents that are parsed as they were printed. `Written` are the trees that writers make:
strings are escaped texts and numbers are spelled by their digits. Such a tree is read back from
the front of any text that does not go on like a number, and the parser never runs out of fuel on
its own printing.
-/

namespace TensorGraph.Json

inductive Written : Json → Prop where
  | null : Written .null
  | bool (b : Bool) : Written (.bool b)
  | number (n : Nat) : Written (.ofNat n)
  | string (text : Bytes) : Written (.string (escape text))
  | array {es : List Json} (elements : ∀ e ∈ es, Written e) : Written (.array es)
  | object {ms : List (Bytes × Json)} (keys : ∀ m ∈ ms, ∃ text, m.1 = escape text)
      (values : ∀ m ∈ ms, Written m.2) : Written (.object ms)

/-- The text ends a number that stands before it. -/
def Ends (rest : Bytes) : Prop := ∀ c more, rest = c :: more → isNumberByte c = false

/-- The text starts a document: neither a blank nor a closing bracket stands at its front. -/
def Opens (s : Bytes) : Prop :=
  ∃ c more, s = c :: more ∧ isBlank c = false ∧ c ≠ byte ']' ∧ c ≠ byte '\x7d'

variable {s rest : Bytes} {fuel : Nat}

theorem ends_nil : Ends [] := fun _ _ same => nomatch same

theorem ends_cons {c : UInt8} (other : isNumberByte c = false) : Ends (c :: rest) := by
  intro d more same
  cases same
  exact other

theorem opens_cons {c : UInt8} (clear : isBlank c = false) (bracket : c ≠ byte ']')
    (brace : c ≠ byte '\x7d') : Opens (c :: rest) :=
  ⟨c, rest, rfl, clear, bracket, brace⟩

theorem Opens.append (opens : Opens s) : Opens (s ++ rest) := by
  obtain ⟨c, more, rfl, clear⟩ := opens
  exact ⟨c, more ++ rest, rfl, clear⟩

theorem skipBlank_cons {c : UInt8} (clear : isBlank c = false) :
    skipBlank (c :: rest) = c :: rest := by
  rw [skipBlank, List.dropWhile_cons_of_neg (by rw [clear]; decide)]

theorem Opens.unblanked (opens : Opens s) : skipBlank s = s := by
  obtain ⟨c, more, rfl, clear, -⟩ := opens
  exact skipBlank_cons clear

theorem after?_word (word : List Char) (rest : Bytes) :
    after? word (word.map byte ++ rest) = some rest := by
  simp [after?]

theorem after?_same (c : Char) : after? [c] (byte c :: rest) = some rest := after?_word [c] rest

theorem after?_other {c : Char} {d : UInt8} (other : d ≠ byte c) :
    after? [c] (d :: rest) = none := by
  simp [after?, Ne.symm other]

theorem renderElements_eq (es : List Json) : renderElements es = es.map render := by
  induction es with
  | nil => rfl
  | cons e es ih => rw [renderElements, ih, List.map_cons]

/-- A member as it is printed. -/
def printedMember (m : Bytes × Json) : Bytes := quoted m.1 ++ byte ':' :: m.2.render

theorem renderMembers_eq (ms : List (Bytes × Json)) : renderMembers ms = ms.map printedMember := by
  induction ms with
  | nil => rfl
  | cons m ms ih => rw [renderMembers, ih, List.map_cons, printedMember]

theorem opens_digits (n : Nat) : Opens (digits n) := by
  obtain ⟨filled, digit, -⟩ := digits_spec n
  obtain ⟨d, ds, spelled⟩ := List.exists_cons_of_ne_nil filled
  have first : isDigit d = true := digit d (by rw [spelled]; exact List.mem_cons_self)
  refine ⟨d, ds, spelled, Bool.eq_false_iff.2 fun blank => ?_, ?_, ?_⟩
  · rw [isBlank] at blank
    simp only [Bool.or_eq_true, decide_eq_true_eq] at blank
    rcases blank with ((rfl | rfl) | rfl) | rfl <;> exact absurd first (by decide)
  · rintro rfl
    exact absurd first (by decide)
  · rintro rfl
    exact absurd first (by decide)

theorem numberToken_digits (n : Nat) (ends : Ends rest) :
    numberToken (digits n ++ rest) = some (.ofNat n, rest) := by
  obtain ⟨-, digit, -⟩ := digits_spec n
  have all : ∀ d ∈ digits n, isNumberByte d = true := fun d member =>
    isNumberByte_of_isDigit (digit d member)
  have front : (digits n ++ rest).takeWhile isNumberByte = digits n ∧
      (digits n ++ rest).dropWhile isNumberByte = rest := by
    rw [List.takeWhile_append_of_pos all, List.dropWhile_append_of_pos all]
    cases rest with
    | nil => exact ⟨List.append_nil _, rfl⟩
    | cons c more =>
      have other := ends c more rfl
      rw [List.takeWhile_cons_of_neg (by rw [other]; decide),
        List.dropWhile_cons_of_neg (by rw [other]; decide)]
      exact ⟨List.append_nil _, rfl⟩
  rw [numberToken, front.1, front.2, if_pos (isNumber_digits n)]
  rfl

theorem value_digits (n : Nat) (ends : Ends rest) :
    value (fuel + 1) (digits n ++ rest) = some (.ofNat n, rest) := by
  have token := numberToken_digits n ends
  obtain ⟨-, digit, -⟩ := digits_spec n
  have opens : Opens (digits n ++ rest) := (opens_digits n).append
  obtain ⟨d, ds, spelled⟩ := List.exists_cons_of_ne_nil (digits_spec n).1
  have first : isDigit d = true := digit d (by rw [spelled]; exact List.mem_cons_self)
  have other {c : UInt8} (letter : isDigit c = false) : d ≠ c := by
    rintro rfl
    rw [letter] at first
    cases first
  rw [value, opens.unblanked]
  rw [spelled, List.cons_append] at token ⊢
  simp only [if_neg (other (c := byte '"') (by decide)),
    if_neg (other (c := byte '\x7b') (by decide)), if_neg (other (c := byte '[') (by decide)),
    if_neg (other (c := byte 'n') (by decide)), if_neg (other (c := byte 't') (by decide)),
    if_neg (other (c := byte 'f') (by decide)), token]

theorem value_quoted (text : Bytes) :
    value (fuel + 1) (quoted (escape text) ++ rest) = some (.string (escape text), rest) := by
  have front : quoted (escape text) ++ rest = byte '"' :: (escape text ++ byte '"' :: rest) := by
    simp [quoted]
  rw [value, front, skipBlank_cons (by decide)]
  simp only [if_true, stringBody_escape, Option.map_some]

/-- The document is read from the front of any text that may follow it. -/
structure Reads (j : Json) : Prop where
  opens : Opens j.render
  read : ∀ (fuel : Nat) (rest : Bytes), Ends rest → 2 * j.render.length ≤ fuel →
    value (fuel + 1) (j.render ++ rest) = some (j, rest)

theorem reads_null : Reads .null := by
  refine ⟨opens_cons (by decide) (by decide) (by decide), fun fuel rest _ _ => ?_⟩
  rw [value, render, List.map_cons, List.cons_append, skipBlank_cons (by decide)]
  simpa [byte] using after?_word ['u', 'l', 'l'] rest

theorem reads_bool (b : Bool) : Reads (.bool b) := by
  cases b with
  | false =>
    refine ⟨opens_cons (by decide) (by decide) (by decide), fun fuel rest _ _ => ?_⟩
    rw [value, render, List.map_cons, List.cons_append, skipBlank_cons (by decide)]
    simpa [byte] using after?_word ['a', 'l', 's', 'e'] rest
  | true =>
    refine ⟨opens_cons (by decide) (by decide) (by decide), fun fuel rest _ _ => ?_⟩
    rw [value, render, List.map_cons, List.cons_append, skipBlank_cons (by decide)]
    simpa [byte] using after?_word ['r', 'u', 'e'] rest

section Lists

variable {α : Type} {print : α → Bytes} {read : Nat → Bytes → Option (List α × Bytes)}
  {closing : Char}

/-- Reads one entry of a list, then its closing bracket or the entries after a comma. -/
def Steps (read : Nat → Bytes → Option (List α × Bytes)) (closing : Char) (print : α → Bytes)
    (x : α) : Prop :=
  ∀ (fuel : Nat) (rest : Bytes), Ends rest → 2 * (print x).length ≤ fuel →
    read (fuel + 2) (print x ++ rest) =
      match after? [','] (skipBlank rest) with
      | some rest => (read (fuel + 1) rest).map fun (more, rest) => (x :: more, rest)
      | none => (after? [closing] (skipBlank rest)).map fun rest => ([x], rest)

theorem read_joined {xs : List α} (steps : ∀ x ∈ xs, Steps read closing print x)
    (bracket : closing = ']' ∨ closing = '\x7d') (filled : xs ≠ [])
    (enough : 2 * (joined (xs.map print)).length ≤ fuel) :
    read (fuel + 2) (joined (xs.map print) ++ byte closing :: rest) = some (xs, rest) := by
  induction xs generalizing fuel with
  | nil => exact absurd rfl filled
  | cons x xs ih =>
    have first := steps x List.mem_cons_self
    cases xs with
    | nil =>
      simp only [List.map_cons, List.map_nil, joined] at enough ⊢
      rcases bracket with rfl | rfl
      all_goals
        rw [first _ _ (ends_cons (by decide)) (by omega), skipBlank_cons (by decide),
          after?_other (by decide), after?_same]
        rfl
    | cons y ys =>
      simp only [List.map_cons, joined, List.length_append, List.length_cons] at enough
      obtain ⟨fuel, rfl⟩ := Nat.exists_eq_add_one.2 (show 0 < fuel by omega)
      have more := @ih fuel (fun z member => steps z (List.mem_cons_of_mem _ member))
        (List.cons_ne_nil _ _)
      simp only [List.map_cons, joined] at more ⊢
      rw [List.append_assoc, List.cons_append, first _ _ (ends_cons (by decide)) (by omega),
        skipBlank_cons (by decide), after?_same]
      simp only [more (by omega), Option.map_some]

theorem steps_element {e : Json} (reads : Reads e) : Steps elements ']' render e := by
  intro fuel rest ends enough
  rw [elements, reads.read fuel rest ends enough]
  simp only [Option.bind_eq_bind, Option.bind_some]
  cases after? [','] (skipBlank rest) with
  | none => cases after? [']'] (skipBlank rest) <;> rfl
  | some rest =>
    dsimp only
    cases elements (fuel + 1) rest <;> rfl

theorem steps_member {m : Bytes × Json} (key : ∃ text, m.1 = escape text) (reads : Reads m.2) :
    Steps members '\x7d' printedMember m := by
  obtain ⟨key', v⟩ := m
  obtain ⟨text, rfl⟩ := key
  intro fuel rest ends enough
  dsimp only at reads
  have front : printedMember (escape text, v) ++ rest =
      byte '"' :: (escape text ++ byte '"' :: byte ':' :: (v.render ++ rest)) := by
    simp [printedMember, quoted]
  have part : v.render.length ≤ (printedMember (escape text, v)).length := by
    simp only [printedMember, List.length_append, List.length_cons]
    omega
  rw [members, front, skipBlank_cons (by decide), after?_same]
  simp only [Option.bind_eq_bind, Option.bind_some, stringBody_escape]
  rw [skipBlank_cons (by decide), after?_same]
  simp only [reads.read fuel rest ends (by omega), Option.bind_some]
  cases after? [','] (skipBlank rest) with
  | none => cases after? ['\x7d'] (skipBlank rest) <;> rfl
  | some rest =>
    dsimp only
    cases members (fuel + 1) rest <;> rfl

theorem opens_joined {xs : List α} (each : ∀ x ∈ xs, Opens (print x)) (filled : xs ≠ []) :
    Opens (joined (xs.map print)) := by
  cases xs with
  | nil => exact absurd rfl filled
  | cons x xs =>
    have first := each x List.mem_cons_self
    cases xs with
    | nil => exact first
    | cons y ys => exact first.append

/-- What opens a document does not close the list that it is in. -/
theorem Opens.after?_none (opens : Opens s) (bracket : closing = ']' ∨ closing = '\x7d') :
    after? [closing] (skipBlank (s ++ rest)) = none := by
  rw [opens.append.unblanked]
  obtain ⟨d, more, rfl, -, square, curly⟩ := opens
  rcases bracket with rfl | rfl
  · exact after?_other square
  · exact after?_other curly

end Lists

theorem reads_array {es : List Json} (each : ∀ e ∈ es, Reads e) : Reads (.array es) := by
  refine ⟨opens_cons (by decide) (by decide) (by decide), fun fuel rest _ enough => ?_⟩
  have front : (Json.array es).render ++ rest =
      byte '[' :: (joined (es.map render) ++ byte ']' :: rest) := by
    simp [render, renderElements_eq]
  have size : (Json.array es).render.length = (joined (es.map render)).length + 2 := by
    simp [render, renderElements_eq]
  have other : byte '[' ≠ byte '"' ∧ byte '[' ≠ byte '\x7b' := by decide
  rw [value, front, skipBlank_cons (by decide)]
  simp only [if_neg other.1, if_neg other.2, if_true]
  by_cases empty : es = []
  · subst empty
    rw [List.map_nil, joined, List.nil_append, skipBlank_cons (by decide), after?_same]
  · obtain ⟨fuel, rfl⟩ := Nat.exists_eq_add_of_le (show 2 ≤ fuel by omega)
    have opens := opens_joined (fun e member => (each e member).opens) empty
    rw [opens.after?_none (.inl rfl), Nat.add_comm, read_joined
      (fun e member => steps_element (each e member)) (.inl rfl) empty (by omega)]
    rfl

theorem reads_object {ms : List (Bytes × Json)} (keys : ∀ m ∈ ms, ∃ text, m.1 = escape text)
    (each : ∀ m ∈ ms, Reads m.2) : Reads (.object ms) := by
  refine ⟨opens_cons (by decide) (by decide) (by decide), fun fuel rest _ enough => ?_⟩
  have front : (Json.object ms).render ++ rest =
      byte '\x7b' :: (joined (ms.map printedMember) ++ byte '\x7d' :: rest) := by
    simp [render, renderMembers_eq]
  have size : (Json.object ms).render.length = (joined (ms.map printedMember)).length + 2 := by
    simp [render, renderMembers_eq]
  have other : byte '\x7b' ≠ byte '"' := by decide
  rw [value, front, skipBlank_cons (by decide)]
  simp only [if_neg other, if_true]
  by_cases empty : ms = []
  · subst empty
    rw [List.map_nil, joined, List.nil_append, skipBlank_cons (by decide), after?_same]
  · obtain ⟨fuel, rfl⟩ := Nat.exists_eq_add_of_le (show 2 ≤ fuel by omega)
    have quoted (m : Bytes × Json) : Opens (printedMember m) :=
      opens_cons (by decide) (by decide) (by decide)
    have opens := opens_joined (fun m (_ : m ∈ ms) => quoted m) empty
    rw [opens.after?_none (.inr rfl), Nat.add_comm, read_joined
      (fun m member => steps_member (keys m member) (each m member)) (.inr rfl) empty (by omega)]
    rfl

/-- Every tree that writers make is read from the front of what follows it. -/
theorem Written.reads {j : Json} (written : j.Written) : Reads j := by
  induction written with
  | null => exact reads_null
  | bool b => exact reads_bool b
  | number n => exact ⟨opens_digits n, fun fuel rest ends _ => value_digits n ends⟩
  | string text =>
    exact ⟨opens_cons (by decide) (by decide) (by decide), fun fuel rest _ _ => value_quoted text⟩
  | array elements each => exact reads_array each
  | object keys values each => exact reads_object keys each

theorem Written.parse?_render {j : Json} (written : j.Written) : parse? j.render = some j := by
  have whole := written.reads.read (2 * j.render.length + 1) [] ends_nil (by omega)
  rw [List.append_nil] at whole
  simp only [parse?, whole, Option.bind_eq_bind, Option.bind_some]
  rfl

@[simp] theorem toText?_ofText (text : String) : (ofText text).toText? = some text :=
  text?_escape text

theorem toWord64?_ofNat {n : Nat} (bound : n < UInt64.size) : (ofNat n).toWord64? = some n :=
  word64?_digits bound

theorem mapM_toWord64? {ns : List Nat} (bounds : ∀ n ∈ ns, n < UInt64.size) :
    (ns.map ofNat).mapM toWord64? = some ns :=
  mapM_option_inverse fun n member => toWord64?_ofNat (bounds n member)

theorem filter_of_nodup {α : Type} {fields : List (String × α)}
    (distinct : (fields.map (·.1)).Nodup) {field : String × α} (member : field ∈ fields) :
    fields.filter (·.1 = field.1) = [field] := by
  induction fields with
  | nil => cases member
  | cons first rest ih =>
    obtain ⟨fresh, distinct⟩ := List.nodup_cons.1 distinct
    rcases List.mem_cons.1 member with rfl | later
    · rw [List.filter_cons_of_pos (by simp), List.filter_eq_nil_iff.2]
      intro other present same
      exact fresh (List.mem_map.2 ⟨other, present, of_decide_eq_true same⟩)
    · rw [List.filter_cons_of_neg, ih distinct later]
      intro same
      exact fresh (List.mem_map.2 ⟨field, later, (of_decide_eq_true same).symm⟩)

theorem toRecord?_ofRecord {fields : List (String × Json)}
    (distinct : (fields.map (·.1)).Nodup) :
    (ofRecord fields).toRecord? (fields.map (·.1)) = some (fields.map (·.2)) := by
  rw [ofRecord, toRecord?]
  refine Option.bind_eq_some_iff.2 ⟨fields, mapM_option_inverse fun field _ => ?_,
    mapM_option_map fun field member => ?_⟩
  · exact congrArg (Option.map (·, field.2)) (text?_escape field.1)
  · rw [filter_of_nodup distinct member]
    rfl

theorem written_ofText (text : String) : (ofText text).Written := .string _

theorem written_ofRecord {fields : List (String × Json)}
    (values : ∀ field ∈ fields, field.2.Written) : (ofRecord fields).Written := by
  refine .object (fun m member => ?_) fun m member => ?_
  · obtain ⟨field, -, rfl⟩ := List.mem_map.1 member
    exact ⟨_, rfl⟩
  · obtain ⟨field, present, rfl⟩ := List.mem_map.1 member
    exact values field present

end TensorGraph.Json
