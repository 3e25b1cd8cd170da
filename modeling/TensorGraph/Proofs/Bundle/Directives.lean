import Mathlib.Data.List.Basic
import Mathlib.Data.List.TakeWhile
import TensorGraph.Bundle.Contents

/-!
The macros that a text defines to a compiler. It is read line by line, and a line that starts with
`#define` gives a name to what follows. Each line is read on its own: a comment over several lines,
a line that is continued and a condition that fails are not looked for.
-/

namespace TensorGraph

namespace Bundle

def isBreak (c : Char) : Bool := c = '\n' || c = '\r'

def isBlank (c : Char) : Bool := c = ' ' || c = '\t'

/-- What names of macros are made of. -/
def isWord (c : Char) : Bool := c.isAlphanum || c = '_'

/-- A text on one line. -/
def Unbroken (text : List Char) : Prop := ∀ c ∈ text, isBreak c = false

def Words (text : List Char) : Prop := ∀ c ∈ text, isWord c = true

instance (text : List Char) : Decidable (Unbroken text) := List.decidableBAll _ text

instance (text : List Char) : Decidable (Words text) := List.decidableBAll _ text

/-- The macro that a line defines, and the text it stands for. -/
def definition? (line : List Char) : Option (String × String) := do
  let directive ← (line.dropWhile isBlank).dropPrefix? ['#']
  let text ← (directive.dropWhile isBlank).dropPrefix? "define".toList
  let body := text.dropWhile isBlank
  let name := body.takeWhile isWord
  if text.head?.any isBlank && name.head?.any (!·.isDigit) then
    some (.ofList name, .ofList ((body.dropWhile isWord).dropWhile isBlank))
  else none

/-- The macros that a text defines, in order. -/
def definitions (text : String) : List (String × String) :=
  (text.toList.splitOnP isBreak).filterMap definition?

/-- The number that a text stands for. -/
def numeral? (text : String) : Option Nat :=
  if text.toList ≠ [] ∧ text.toList.all Char.isDigit then some (Nat.ofDigitChars 10 text.toList 0)
  else none

/-- The number that a macro stands for, if it is defined once. -/
def number? (text name : String) : Option Nat :=
  match (definitions text).filter (·.1 = name) with
  | [(_, value)] => numeral? value
  | _ => none

theorem words_append {s t : List Char} : Words (s ++ t) ↔ Words s ∧ Words t :=
  List.forall_mem_append

theorem unbroken_append {s t : List Char} : Unbroken (s ++ t) ↔ Unbroken s ∧ Unbroken t :=
  List.forall_mem_append

theorem definitions_append (s t : String) :
    definitions (s ++ "\n" ++ t) = definitions s ++ definitions t := by
  have joined : (s ++ "\n" ++ t).toList = s.toList ++ '\n' :: t.toList := by simp
  rw [definitions, joined, List.splitOnP_append_cons _ _ rfl, List.filterMap_append]
  rfl

theorem definitions_line {line : String} (unbroken : Unbroken line.toList) :
    definitions line = (definition? line.toList).toList := by
  rw [definitions, List.splitOnP_eq_singleton unbroken, List.filterMap_cons]
  cases definition? line.toList <;> rfl

theorem definitions_lines (text : List String) :
    definitions (lines text) = text.flatMap definitions := by
  induction text with
  | nil => rfl
  | cons line rest ih =>
    rw [lines, List.map_cons, String.join_cons, ← lines, definitions_append, ih,
      List.flatMap_cons]

theorem splitOnP_append {first : List Char} (unbroken : Unbroken first)
    (text : List Char) :
    (first ++ text).splitOnP isBreak = (text.splitOnP isBreak).modifyHead (first ++ ·) := by
  induction first with
  | nil => exact (congrFun List.modifyHead_id _).symm
  | cons c rest ih =>
    obtain ⟨here, unbroken⟩ := List.forall_mem_cons.1 unbroken
    rw [List.cons_append, List.splitOnP_cons_eq_if_modifyHead, if_neg (by simp [here]),
      ih unbroken, List.modifyHead_modifyHead]
    rfl

structure IsMacroName (name : String) : Prop where
  words : Words name.toList
  start : name.toList.head?.any (!·.isDigit) = true

theorem IsMacroName.append {name rest : String} (good : IsMacroName name)
    (words : Words rest.toList) : IsMacroName (name ++ rest) := by
  refine ⟨?_, ?_⟩
  · rw [String.toList_append]
    exact words_append.2 ⟨good.words, words⟩
  · have start := good.start
    rw [String.toList_append]
    cases text : name.toList with
    | nil => simp [text] at start
    | cons c rest => simpa [text] using start

theorem not_blank_of_word {c : Char} (word : isWord c = true) : isBlank c = false := by
  refine Bool.eq_false_iff.2 fun blank => ?_
  obtain rfl | rfl : c = ' ' ∨ c = '\t' := by simpa [isBlank] using blank
  all_goals cases word

theorem unbroken_of_words {text : List Char} (words : Words text) : Unbroken text := by
  intro c member
  refine Bool.eq_false_iff.2 fun breaks => ?_
  have word := words c member
  obtain rfl | rfl : c = '\n' ∨ c = '\r' := by simpa [isBreak] using breaks
  all_goals cases word

theorem span_word {name value : List Char} (words : Words name)
    (apart : value.head?.all (!isWord ·) = true) :
    (name ++ value).takeWhile isWord = name ∧ (name ++ value).dropWhile isWord = value := by
  rw [List.takeWhile_append_of_pos words, List.dropWhile_append_of_pos words]
  cases value with
  | nil => simp
  | cons c rest =>
    have other : isWord c = false := by simpa using apart
    simp [other]

theorem definition?_define {name : String} (good : IsMacroName name) {value : List Char}
    (apart : value.head?.all (!isWord ·) = true) :
    definition? ("#define ".toList ++ (name.toList ++ value)) =
      some (name, .ofList (value.dropWhile isBlank)) := by
  have start : definition? ("#define ".toList ++ (name.toList ++ value)) =
      let body := (name.toList ++ value).dropWhile isBlank
      let name := body.takeWhile isWord
      if name.head?.any (!·.isDigit) then
        some (.ofList name, .ofList ((body.dropWhile isWord).dropWhile isBlank))
      else none := rfl
  have body : (name.toList ++ value).dropWhile isBlank = name.toList ++ value := by
    cases text : name.toList with
    | nil => simpa [text] using good.start
    | cons c rest =>
      have first := not_blank_of_word (good.words c (by simp [text]))
      simp [first]
  obtain ⟨taken, left⟩ := span_word good.words apart
  rw [start]
  dsimp only
  rw [body, taken, left, if_pos good.start, String.ofList_toList]

/-- A line that starts with anything but blanks and `#` defines nothing. -/
theorem definition?_text {c : Char} (blank : isBlank c = false) (other : c ≠ '#')
    (text : List Char) : definition? (c :: text) = none := by
  simp [definition?, blank, List.dropPrefix?, other]

theorem definition?_directive {c : Char} (blank : isBlank c = false) (other : c ≠ 'd')
    (text : List Char) : definition? ('#' :: c :: text) = none := by
  have hash : isBlank '#' = false := rfl
  simp [definition?, hash, blank, List.dropPrefix?, other]

theorem words_repr {n : Nat} : Words n.repr.toList := by
  intro c member
  rw [Nat.toList_repr] at member
  have digit := Nat.isDigit_of_mem_toDigits (by decide) (by decide) member
  simp [isWord, Char.isAlphanum, digit]

theorem numeral?_repr (n : Nat) : numeral? n.repr = some n := by
  have digits : n.repr.toList.all Char.isDigit = true := by
    rw [List.all_eq_true, Nat.toList_repr]
    exact fun c member => Nat.isDigit_of_mem_toDigits (by decide) (by decide) member
  have filled : n.repr.toList ≠ [] := by
    rw [Nat.toList_repr]
    exact Nat.toDigits_ne_nil
  rw [numeral?, if_pos ⟨filled, digits⟩, Nat.toList_repr, Nat.ofDigitChars_toDigits] <;> decide

theorem definitions_define {name : String} (good : IsMacroName name) (n : Nat) :
    definitions (define name n) = [(name, n.repr)] := by
  have text : (define name n).toList =
      "#define ".toList ++ (name.toList ++ ' ' :: n.repr.toList) := by
    change ("#define " ++ name ++ " " ++ n.repr).toList = _
    simp
  have value : (' ' :: n.repr.toList).dropWhile isBlank = n.repr.toList := by
    refine (List.dropWhile_cons_of_pos rfl).trans ?_
    refine List.dropWhile_eq_self_iff.2 fun inside => ?_
    rw [not_blank_of_word (words_repr _ (List.getElem_mem inside))]
    exact Bool.false_ne_true
  rw [definitions_line, text, definition?_define good rfl, value, String.ofList_toList]
  · rfl
  · rw [text]
    exact unbroken_append.2 ⟨by decide, unbroken_append.2 ⟨unbroken_of_words good.words,
      List.forall_mem_cons.2 ⟨rfl, unbroken_of_words words_repr⟩⟩⟩

theorem definitions_guard {name : String} (good : IsMacroName name) :
    definitions ("#define " ++ name) = [(name, "")] := by
  have text : ("#define " ++ name).toList = "#define ".toList ++ (name.toList ++ []) := by simp
  rw [definitions_line, text, definition?_define good rfl]
  · rfl
  · rw [text]
    exact unbroken_append.2 ⟨by decide, unbroken_append.2 ⟨unbroken_of_words good.words,
      by decide⟩⟩

/-- Of a comment, only what stands after a line break in it defines anything. -/
theorem definitions_comment {opening text : String}
    (unbroken : Unbroken opening.toList)
    (other : ∀ rest, definition? (opening.toList ++ rest) = none) :
    definitions (opening ++ text) = (text.toList.splitOnP isBreak).tail.filterMap definition? := by
  rw [definitions, String.toList_append, splitOnP_append unbroken]
  cases split : text.toList.splitOnP isBreak with
  | nil => exact (List.splitOnP_ne_nil _ _ split).elim
  | cons first later => rw [List.modifyHead_cons, List.filterMap_cons, other]; rfl

theorem definitions_other {line : String} (unbroken : Unbroken line.toList)
    (other : definition? line.toList = none) : definitions line = [] := by
  rw [definitions_line unbroken, other]
  rfl

end Bundle
end TensorGraph
