import TensorGraph.FileSystem

/-!
JSON strings and numbers as bytes. `escape` writes the inside of a string, with short
escapes where JSON has them; `unescape?` reads it back. Both leave bytes beyond ASCII alone.
-/

namespace TensorGraph.Json

def byte (c : Char) : UInt8 := c.val.toUInt8

/-- Control characters with a short escape, by the letter after the backslash. -/
def shortEscapes : List (UInt8 × UInt8) :=
  [(byte '"', byte '"'), (byte '\\', byte '\\'), (0x08, byte 'b'), (0x09, byte 't'),
    (0x0a, byte 'n'), (0x0c, byte 'f'), (0x0d, byte 'r')]

def hexDigit (n : UInt8) : UInt8 := if n < 10 then byte '0' + n else byte 'a' + (n - 10)

def hexValue? (c : UInt8) : Option Nat :=
  if byte '0' ≤ c ∧ c ≤ byte '9' then some (c - byte '0').toNat
  else if byte 'a' ≤ c ∧ c ≤ byte 'f' then some ((c - byte 'a').toNat + 10)
  else if byte 'A' ≤ c ∧ c ≤ byte 'F' then some ((c - byte 'A').toNat + 10)
  else none

def escapeByte (c : UInt8) : Bytes :=
  match shortEscapes.find? (·.1 = c) with
  | some (_, letter) => [byte '\\', letter]
  | none =>
    if c < 0x20 then
      [byte '\\', byte 'u', byte '0', byte '0', hexDigit (c / 16), hexDigit (c % 16)]
    else [c]

def escape (text : Bytes) : Bytes := text.flatMap escapeByte

/-- The byte a short escape stands for. A slash may be escaped too. -/
def unescapeLetter? (letter : UInt8) : Option UInt8 :=
  if letter = byte '/' then some letter
  else (shortEscapes.find? (·.2 = letter)).map (·.1)

def hexWord? (a b c d : UInt8) : Option Nat := do
  return (((← hexValue? a) * 16 + (← hexValue? b)) * 16 + (← hexValue? c)) * 16 + (← hexValue? d)

def encodeScalar (n : Nat) : Bytes := (String.singleton (Char.ofNat n)).toUTF8.toList

def isHighSurrogate (n : Nat) : Bool := 0xD800 ≤ n && n < 0xDC00
def isLowSurrogate (n : Nat) : Bool := 0xDC00 ≤ n && n < 0xE000

/-- The scalar value of a surrogate pair. -/
def pairValue? (high low : Nat) : Option Nat :=
  if isHighSurrogate high && isLowSurrogate low then
    some (0x10000 + (high - 0xD800) * 0x400 + (low - 0xDC00))
  else none

/-- Reads the inside of a string. A surrogate has to come in a pair, high half first. -/
def unescape? : Bytes → Option Bytes
  | [] => some []
  | c :: rest =>
    if c ≠ byte '\\' then (unescape? rest).map (c :: ·)
    else
      match rest with
      | [] => none
      | letter :: rest =>
        if letter ≠ byte 'u' then do
          let d ← unescapeLetter? letter
          return d :: (← unescape? rest)
        else
          match rest with
          | a :: b :: c :: d :: rest => do
            let n ← hexWord? a b c d
            if isHighSurrogate n then
              match rest with
              | slash :: letter :: a :: b :: c :: d :: rest => do
                guard (slash = byte '\\' ∧ letter = byte 'u')
                let scalar ← pairValue? n (← hexWord? a b c d)
                return encodeScalar scalar ++ (← unescape? rest)
              | _ => none
            else if isLowSurrogate n then none
            else return encodeScalar n ++ (← unescape? rest)
          | _ => none

/-- The text of a string's inside, which has to be UTF-8 once its escapes are resolved. -/
def text? (raw : Bytes) : Option String := do
  String.fromUTF8? (ByteArray.mk (← unescape? raw).toArray)

def isDigit (c : UInt8) : Bool := byte '0' ≤ c && c ≤ byte '9'

def digits (n : Nat) : Bytes := (Nat.toDigits 10 n).map byte

def digitsValue (ds : Bytes) : Nat := ds.foldl (fun n d => n * 10 + (d - byte '0').toNat) 0

/-- An integer without sign, leading zeros, fraction or exponent that fits 64 bits. -/
def word64? (number : Bytes) : Option Nat :=
  if !number.isEmpty && number.all isDigit && digitsValue number < UInt64.size then
    some (digitsValue number)
  else none

/-- Whether bytes are an exponent or nothing. -/
def isExponent (s : Bytes) : Bool :=
  match s with
  | [] => true
  | e :: rest =>
    (e = byte 'e' || e = byte 'E') &&
      match rest with
      | sign :: ds =>
        if sign = byte '+' || sign = byte '-' then !ds.isEmpty && ds.all isDigit
        else rest.all isDigit
      | [] => false

/-- Whether bytes are what may follow the whole part of a number. -/
def isFraction (s : Bytes) : Bool :=
  match s with
  | point :: rest =>
    if point = byte '.' then
      !(rest.takeWhile isDigit).isEmpty && isExponent (rest.dropWhile isDigit)
    else isExponent s
  | [] => true

/-- Whether bytes spell a JSON number. -/
def isNumber (s : Bytes) : Bool :=
  let unsigned :=
    match s with
    | sign :: rest => if sign = byte '-' then rest else s
    | [] => []
  let whole := unsigned.takeWhile isDigit
  !whole.isEmpty && (whole.length = 1 || whole.head? ≠ some (byte '0')) &&
    isFraction (unsigned.dropWhile isDigit)

end TensorGraph.Json
