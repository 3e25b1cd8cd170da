import TensorGraph.Json.Text

/-!
JSON documents. A tree keeps the inside of its strings and the spelling of its numbers as
they were written, so what a reader makes of them is decided where they are used.
-/

namespace TensorGraph

inductive Json where
  | null
  | bool (b : Bool)
  | number (spelling : Bytes)
  | string (raw : Bytes)
  | array (elements : List Json)
  | object (members : List (Bytes × Json))
  deriving Repr

namespace Json

def isBlank (c : UInt8) : Bool := c = 0x20 || c = 0x0a || c = 0x09 || c = 0x0d

def skipBlank (s : Bytes) : Bytes := s.dropWhile isBlank

/-- What is left of `s` after `word`. -/
def after? (word : List Char) (s : Bytes) : Option Bytes :=
  let word := word.map byte
  if word.isPrefixOf s then some (s.drop word.length) else none

/-- The inside of a string, up to the quote that ends it, and what follows. -/
def stringBody : Bytes → Option (Bytes × Bytes)
  | [] => none
  | c :: rest =>
    if c = byte '"' then some ([], rest)
    else if c < 0x20 then none
    else if c ≠ byte '\\' then (stringBody rest).map fun (raw, rest) => (c :: raw, rest)
    else
      match rest with
      | [] => none
      | letter :: rest =>
        if letter ≠ byte 'u' then
          if (unescapeLetter? letter).isSome then
            (stringBody rest).map fun (raw, rest) => (c :: letter :: raw, rest)
          else none
        else
          match rest with
          | h₁ :: h₂ :: h₃ :: h₄ :: rest =>
            if (hexWord? h₁ h₂ h₃ h₄).isSome then
              (stringBody rest).map fun (raw, rest) =>
                (c :: letter :: h₁ :: h₂ :: h₃ :: h₄ :: raw, rest)
            else none
          | _ => none

def isNumberByte (c : UInt8) : Bool :=
  isDigit c || [byte '+', byte '-', byte '.', byte 'e', byte 'E'].contains c

def numberToken (s : Bytes) : Option (Json × Bytes) :=
  let spelling := s.takeWhile isNumberByte
  if isNumber spelling then some (number spelling, s.dropWhile isNumberByte) else none

mutual

/-- A document at the front of `s` and what follows it. -/
def value : (fuel : Nat) → (s : Bytes) → Option (Json × Bytes)
  | 0, _ => none
  | fuel + 1, s =>
    match skipBlank s with
    | [] => none
    | c :: rest =>
      if c = byte '"' then (stringBody rest).map fun (raw, rest) => (string raw, rest)
      else if c = byte '\x7b' then
        match after? ['\x7d'] (skipBlank rest) with
        | some rest => some (object [], rest)
        | none => (members fuel rest).map fun (ms, rest) => (object ms, rest)
      else if c = byte '[' then
        match after? [']'] (skipBlank rest) with
        | some rest => some (array [], rest)
        | none => (elements fuel rest).map fun (es, rest) => (array es, rest)
      else if c = byte 'n' then (after? ['u', 'l', 'l'] rest).map (null, ·)
      else if c = byte 't' then (after? ['r', 'u', 'e'] rest).map (bool true, ·)
      else if c = byte 'f' then (after? ['a', 'l', 's', 'e'] rest).map (bool false, ·)
      else numberToken (c :: rest)

/-- The elements of an array from one of them to the closing bracket. -/
def elements : (fuel : Nat) → (s : Bytes) → Option (List Json × Bytes)
  | 0, _ => none
  | fuel + 1, s => do
    let (first, rest) ← value fuel s
    let rest := skipBlank rest
    match after? [','] rest with
    | some rest => do
      let (more, rest) ← elements fuel rest
      return (first :: more, rest)
    | none => do
      let rest ← after? [']'] rest
      return ([first], rest)

/-- The members of an object from one of them to the closing brace. -/
def members : (fuel : Nat) → (s : Bytes) → Option (List (Bytes × Json) × Bytes)
  | 0, _ => none
  | fuel + 1, s => do
    let (key, rest) ← stringBody (← after? ['"'] (skipBlank s))
    let (first, rest) ← value fuel (← after? [':'] (skipBlank rest))
    let rest := skipBlank rest
    match after? [','] rest with
    | some rest => do
      let (more, rest) ← members fuel rest
      return ((key, first) :: more, rest)
    | none => do
      let rest ← after? ['\x7d'] rest
      return ([(key, first)], rest)

end

/-- Reads a document that has only blanks around it. Nesting costs two steps a level. -/
def parse? (s : Bytes) : Option Json := do
  let (json, rest) ← value (2 * s.length + 2) s
  guard (skipBlank rest).isEmpty
  return json

def joined : List Bytes → Bytes
  | [] => []
  | [s] => s
  | s :: rest => s ++ byte ',' :: joined rest

def quoted (raw : Bytes) : Bytes := byte '"' :: raw ++ [byte '"']

mutual

def render : Json → Bytes
  | null => ['n', 'u', 'l', 'l'].map byte
  | bool true => ['t', 'r', 'u', 'e'].map byte
  | bool false => ['f', 'a', 'l', 's', 'e'].map byte
  | number spelling => spelling
  | string raw => quoted raw
  | array es => byte '[' :: joined (renderElements es) ++ [byte ']']
  | object ms => byte '\x7b' :: joined (renderMembers ms) ++ [byte '\x7d']

def renderElements : List Json → List Bytes
  | [] => []
  | e :: rest => render e :: renderElements rest

def renderMembers : List (Bytes × Json) → List Bytes
  | [] => []
  | (key, e) :: rest => (quoted key ++ byte ':' :: render e) :: renderMembers rest

end

def ofText (text : String) : Json := string (escape text.toUTF8.toList)
def ofNat (n : Nat) : Json := number (digits n)
def ofRecord (fields : List (String × Json)) : Json :=
  object (fields.map fun (name, value) => (escape name.toUTF8.toList, value))

def toText? : Json → Option String
  | string raw => text? raw
  | _ => none

def toWord64? : Json → Option Nat
  | number spelling => word64? spelling
  | _ => none

def toList? : Json → Option (List Json)
  | array es => some es
  | _ => none

/-- The only element of a list. -/
def sole? {α : Type} : List α → Option α
  | [a] => some a
  | _ => none

/-- The fields of a record in order. It is an object that has each of them once and may have
others, or an array of exactly the fields. -/
def toRecord? (names : List String) : Json → Option (List Json)
  | array es => if es.length = names.length then some es else none
  | object ms => do
    let ms ← ms.mapM fun (key, value) => (text? key).map (·, value)
    names.mapM fun name => sole? ((ms.filter (·.1 = name)).map (·.2))
  | _ => none

end Json
end TensorGraph
