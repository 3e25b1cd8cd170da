import Mathlib.Data.List.TakeWhile
import Mathlib.Data.Option.Basic
import TensorGraph.Json.Tree

/-!
Strings and numbers that are read as they were written. A byte of a text is escaped to one of
three forms: itself, a short escape or a four-digit one. Both readers of a string, the one that
looks for its end and the one that resolves its escapes, get past each form in one step.
-/

namespace TensorGraph.Json

/-- How a byte is written inside a string. -/
inductive EscapeForm (c : UInt8) : Bytes → Prop where
  | plain (quote : c ≠ byte '"') (slash : c ≠ byte '\\') (printable : ¬ c < 0x20) :
      EscapeForm c [c]
  | short {letter : UInt8} (notWord : letter ≠ byte 'u') (reads : unescapeLetter? letter = some c) :
      EscapeForm c [byte '\\', letter]
  | word {a b d e : UInt8} (control : c < 0x20) (reads : hexWord? a b d e = some c.toNat) :
      EscapeForm c [byte '\\', byte 'u', a, b, d, e]

theorem hexWord?_control (c : UInt8) (control : c < 0x20) :
    hexWord? (byte '0') (byte '0') (hexDigit (c / 16)) (hexDigit (c % 16)) = some c.toNat := by
  have all : ∀ n < 0x20, hexWord? (byte '0') (byte '0') (hexDigit (UInt8.ofNat n / 16))
      (hexDigit (UInt8.ofNat n % 16)) = some n := by decide
  have here := all c.toNat control
  rwa [UInt8.ofNat_toNat] at here

theorem escapeForm (c : UInt8) : EscapeForm c (escapeByte c) := by
  unfold escapeByte
  split
  next original letter found =>
    have member := List.mem_of_find?_eq_some found
    have same := List.find?_some found
    have all : shortEscapes.all (fun e => e.2 ≠ byte 'u' ∧ unescapeLetter? e.2 = some e.1) := by
      decide
    obtain ⟨notWord, reads⟩ := of_decide_eq_true (List.all_eq_true.1 all _ member)
    exact .short notWord (reads.trans (congrArg some (of_decide_eq_true same)))
  next missing =>
    have absent := List.find?_eq_none.1 missing
    split
    next control => exact .word control (hexWord?_control c control)
    next printable =>
      refine .plain (fun same => ?_) (fun same => ?_) printable
      · exact absent (byte '"', byte '"') (by decide) (decide_eq_true same.symm)
      · exact absent (byte '\\', byte '\\') (by decide) (decide_eq_true same.symm)

theorem EscapeForm.passed {c : UInt8} {form : Bytes} (written : EscapeForm c form)
    (rest : Bytes) :
    stringBody (form ++ rest) = (stringBody rest).map fun (raw, rest) => (form ++ raw, rest) := by
  have slash : byte '\\' ≠ byte '"' ∧ ¬ byte '\\' < 0x20 := by decide
  cases written with
  | plain quote slash printable =>
    rw [List.singleton_append, stringBody.eq_def]
    simp only [if_neg quote, if_neg printable, ne_eq, if_pos slash]
    rfl
  | short notWord reads =>
    rw [List.cons_append, List.singleton_append, stringBody.eq_def]
    simp only [if_neg slash.1, if_neg slash.2, ne_eq, not_true_eq_false, if_false, notWord,
      not_false_eq_true, if_true, reads, Option.isSome_some]
    rfl
  | word control reads =>
    simp only [List.cons_append, List.nil_append]
    rw [stringBody.eq_def]
    simp only [if_neg slash.1, if_neg slash.2, ne_eq, not_true_eq_false, if_false,
      reads, Option.isSome_some, if_true]

theorem stringBody_escape (text rest : Bytes) :
    stringBody (escape text ++ byte '"' :: rest) = some (escape text, rest) := by
  induction text with
  | nil =>
    rw [escape, List.flatMap_nil, List.nil_append, stringBody.eq_def]
    simp only [if_true]
  | cons c text ih =>
    rw [escape, List.flatMap_cons, ← escape, List.append_assoc,
      (escapeForm c).passed, ih]
    rfl

theorem toList_data (bytes : ByteArray) : bytes.toList = bytes.data.toList := by
  have loop : ∀ (i : Nat) (read : List UInt8),
      ByteArray.toList.loop bytes i read = read.reverse ++ bytes.data.toList.drop i := by
    intro i read
    fun_induction ByteArray.toList.loop bytes i read with
    | case1 i read inside ih =>
      have entry : bytes.data.toList.drop i = bytes.get! i :: bytes.data.toList.drop (i + 1) := by
        have bound : i < bytes.data.toList.length := inside
        rw [List.drop_eq_getElem_cons bound]
        congr 1
        exact (getElem!_pos bytes.data i inside).symm
      rw [ih, entry, List.reverse_cons, List.append_assoc, List.singleton_append]
    | case2 i read outside =>
      have bound : bytes.data.toList.length ≤ i := Nat.le_of_not_lt outside
      rw [List.drop_of_length_le bound, List.append_nil]
  exact loop 0 []

theorem encodeScalar_control (c : UInt8) (control : c < 0x20) : encodeScalar c.toNat = [c] := by
  have all : ∀ n < 0x20, (String.singleton (Char.ofNat n)).toUTF8.data.toList =
      [UInt8.ofNat n] := by decide
  rw [encodeScalar, toList_data, all c.toNat control, UInt8.ofNat_toNat]

theorem EscapeForm.resolved {c : UInt8} {form : Bytes} (written : EscapeForm c form)
    (rest : Bytes) : unescape? (form ++ rest) = (unescape? rest).map (c :: ·) := by
  cases written with
  | plain quote slash printable =>
    rw [List.singleton_append, unescape?.eq_def]
    simp only [ne_eq, if_pos slash]
  | short notWord reads =>
    rw [List.cons_append, List.singleton_append, unescape?.eq_def]
    simp only [ne_eq, not_true_eq_false, if_false, notWord, not_false_eq_true, if_true, reads]
    cases unescape? rest <;> rfl
  | word control reads =>
    have small : c.toNat < 0x20 := control
    have notHigh : isHighSurrogate c.toNat = false := by
      simp only [isHighSurrogate, Bool.and_eq_false_imp, decide_eq_true_eq]
      omega
    have notLow : isLowSurrogate c.toNat = false := by
      simp only [isLowSurrogate, Bool.and_eq_false_imp, decide_eq_true_eq]
      omega
    simp only [List.cons_append, List.nil_append]
    rw [unescape?.eq_def]
    simp only [ne_eq, not_true_eq_false, if_false, reads, Option.bind_eq_bind, Option.bind_some,
      notHigh, notLow, encodeScalar_control c control, Bool.false_eq_true]
    cases unescape? rest <;> rfl

theorem unescape?_escape (text : Bytes) : unescape? (escape text) = some text := by
  induction text with
  | nil => rfl
  | cons c text ih =>
    rw [escape, List.flatMap_cons, ← escape, (escapeForm c).resolved, ih]
    rfl

theorem text?_escape (text : String) : text? (escape text.toUTF8.toList) = some text := by
  have valid : text.toUTF8.IsValidUTF8 := text.isValidUTF8
  simp only [text?, unescape?_escape, Option.bind_eq_bind, Option.bind_some, toList_data,
    Array.toArray_toList]
  rw [String.fromUTF8?, dif_pos valid]
  rfl

theorem digits_of_lt {n : Nat} (small : n < 10) : digits n = [byte n.digitChar] := by
  rw [digits, Nat.toDigits_of_lt_base small, List.map_singleton]

theorem digits_of_le {n : Nat} (large : 10 ≤ n) :
    digits n = digits (n / 10) ++ [byte (n % 10).digitChar] := by
  rw [digits, Nat.toDigits_of_base_le (by decide) large, List.map_append, List.map_singleton,
    digits]

theorem digitChar_value {d : Nat} (small : d < 10) :
    isDigit (byte d.digitChar) = true ∧ (byte d.digitChar - byte '0').toNat = d ∧
      (d ≠ 0 → byte d.digitChar ≠ byte '0') := by
  have all : ∀ d < 10, isDigit (byte d.digitChar) = true ∧
      (byte d.digitChar - byte '0').toNat = d ∧ (d ≠ 0 → byte d.digitChar ≠ byte '0') := by decide
  exact all d small

/-- What is written for a number: digits, at least one, of the number's value and without a
leading zero. -/
theorem digits_spec (n : Nat) :
    digits n ≠ [] ∧ (∀ d ∈ digits n, isDigit d = true) ∧ digitsValue (digits n) = n ∧
      (n ≠ 0 → (digits n).head? ≠ some (byte '0')) := by
  induction n using Nat.strongRecOn with
  | ind n ih =>
    by_cases small : n < 10
    · obtain ⟨digit, value, nonzero⟩ := digitChar_value small
      rw [digits_of_lt small]
      refine ⟨List.cons_ne_nil _ _, fun d member => ?_, ?_, fun positive same => ?_⟩
      · rw [List.mem_singleton.1 member]
        exact digit
      · simpa [digitsValue] using value
      · exact nonzero positive (Option.some.inj same)
    · have large := Nat.le_of_not_lt small
      obtain ⟨filled, digit, value, nonzero⟩ := ih (n / 10) (by omega)
      obtain ⟨digit', value', -⟩ := digitChar_value (Nat.mod_lt n (by decide : 0 < 10))
      rw [digits_of_le large]
      refine ⟨fun empty => ?_, fun d member => ?_, ?_, fun _ => ?_⟩
      · exact List.cons_ne_nil _ _ (List.append_eq_nil_iff.1 empty).2
      · rcases List.mem_append.1 member with front | last
        · exact digit d front
        · rw [List.mem_singleton.1 last]
          exact digit'
      · rw [digitsValue] at value ⊢
        rw [List.foldl_append, value, List.foldl_cons, List.foldl_nil, value']
        omega
      · obtain ⟨d, ds, spelled⟩ := List.exists_cons_of_ne_nil filled
        rw [spelled] at nonzero ⊢
        exact nonzero (by omega)

theorem isNumberByte_of_isDigit {c : UInt8} (digit : isDigit c = true) : isNumberByte c = true := by
  rw [isNumberByte, digit, Bool.true_or]

theorem isNumber_digits (n : Nat) : isNumber (digits n) = true := by
  obtain ⟨filled, digit, -, nonzero⟩ := digits_spec n
  have leading : (digits n).length = 1 ∨ (digits n).head? ≠ some (byte '0') := by
    by_cases zero : n = 0
    · subst zero
      exact .inl rfl
    · exact .inr (nonzero zero)
  obtain ⟨d, ds, spelled⟩ := List.exists_cons_of_ne_nil filled
  rw [spelled] at digit leading ⊢
  have unsigned : d ≠ byte '-' := by
    rintro rfl
    exact absurd (digit _ List.mem_cons_self) (by decide)
  unfold isNumber
  simp only [if_neg unsigned, List.takeWhile_eq_self_iff.2 digit,
    List.dropWhile_eq_nil_iff.2 digit, isFraction]
  simpa using leading

theorem word64?_digits {n : Nat} (bound : n < UInt64.size) : word64? (digits n) = some n := by
  obtain ⟨filled, digit, value, -⟩ := digits_spec n
  rw [word64?, value, if_pos]
  simpa [filled, bound] using digit

end TensorGraph.Json
