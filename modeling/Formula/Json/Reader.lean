import Formula.Json.Number

/-!
# `Formula.Json.Reader`: JSON documents from text

A reader goes over the text once and stops at the first fault, which it
reports with line and column. Documents may nest to a fixed depth.

Positions count bytes. A fault is noticed either at the place reached or
just after the next byte, which the reader has looked at.
-/

set_option autoImplicit false

namespace Formula.Json

/-- A place in a JSON text, and the characters after it. -/
structure Cursor where
  position : Position
  rest : List Char
deriving Inhabited

namespace Cursor

/-- The place before the first character. -/
def start (text : String) : Cursor := ⟨⟨1, 0⟩, text.toList⟩

/-- The position after some characters. -/
def advance (p : Position) : List Char → Position
  | [] => p
  | c :: cs =>
    advance (if c = '\n' then ⟨p.line + 1, 0⟩ else ⟨p.line, p.column + c.utf8Size⟩) cs

/-- The place after the next `n` characters. -/
def drop (c : Cursor) (n : Nat) : Cursor :=
  ⟨advance c.position (c.rest.take n), c.rest.drop n⟩

/-- The position just after the next byte. -/
def peekPosition (c : Cursor) : Position :=
  match c.rest with
  | [] => c.position
  | d :: _ =>
    if d = '\n' then ⟨c.position.line + 1, 0⟩ else ⟨c.position.line, c.position.column + 1⟩

/-- Whether a character may stand between tokens. -/
def isSpace (c : Char) : Bool := c == ' ' || c == '\n' || c == '\t' || c == '\r'

/-- The place after the spaces. -/
def skipSpace (c : Cursor) : Cursor :=
  ⟨advance c.position (c.rest.takeWhile isSpace), c.rest.dropWhile isSpace⟩

/-- The next character. -/
def peek (c : Cursor) : Option Char := c.rest.head?

end Cursor

/-- A reader of values of a type. -/
abbrev Reader (α : Type) := Cursor → Except Fault (α × Cursor)

/-- The fault with a cause at the place reached. -/
def faultAt {α : Type} (c : Cursor) (cause : Cause) : Except Fault α :=
  .error ⟨cause, some c.position⟩

/-- The fault with a cause at the next byte. -/
def faultPast {α : Type} (c : Cursor) (cause : Cause) : Except Fault α :=
  .error ⟨cause, some c.peekPosition⟩

/-! ### Scalars -/

/-- Reads the rest of a word whose first letter has been read. -/
def readWord : List Char → Reader Unit
  | [], c => .ok ((), c)
  | w :: ws, c =>
    match c.rest with
    | [] => faultAt c .endInValue
    | d :: _ => if d = w then readWord ws (c.drop 1) else faultPast c .expectedWord

/-- The digits at a place. -/
def digitsAt (c : Cursor) : List Char := c.rest.takeWhile Char.isDigit

/-- Ends a number with a power of ten. -/
def endFloat (negative : Bool) (significand : Nat) (e : Int) : Reader Json := fun c =>
  match floatOfParts negative significand e with
  | some j => .ok (j, c)
  | none => faultAt c .numberOutOfRange

/-- Reads the sign of an exponent. -/
def readSign (c : Cursor) : Bool × Cursor :=
  match c.peek with
  | some '+' => (false, c.drop 1)
  | some '-' => (true, c.drop 1)
  | _ => (false, c)

/-- Reads an exponent, from its letter on, and ends the number. -/
def readExponent (negative : Bool) (significand : Nat) (before : Int) : Reader Json := fun c =>
  let (negativeExponent, c) := readSign (c.drop 1)
  match c.rest with
  | [] => faultAt c .endInValue
  | d :: _ =>
    if d.isDigit then
      let digits := digitsAt c
      match takeExponent 0 0 digits with
      | .ok e =>
        endFloat negative significand (if negativeExponent then before - e else before + e)
          (c.drop digits.length)
      | .error taken =>
        if significand ≠ 0 ∧ !negativeExponent then faultAt (c.drop taken) .numberOutOfRange
        else .ok (.float (.zeroOf negative), c.drop digits.length)
    else
      faultPast c .invalidNumber

/-- Ends a number that has a point or too many digits. -/
def endDecimal (negative : Bool) (significand : Nat) (e : Int) : Reader Json := fun c =>
  match c.peek with
  | some 'e' | some 'E' => readExponent negative significand e c
  | _ => endFloat negative significand e c

/-- Reads a fraction, from its point on, and ends the number. -/
def readFraction (negative : Bool) (significand : Nat) (before : Nat) : Reader Json := fun c =>
  let c := c.drop 1
  match digitsAt c with
  | [] => if c.rest.isEmpty then faultPast c .endInValue else faultPast c .invalidNumber
  | digits =>
    let (significand, left) := takeDigits significand digits
    endDecimal negative significand ((before : Int) - (digits.length - left : Nat))
      (c.drop digits.length)

/-- Reads a number whose sign has been read. -/
def readNumber (negative : Bool) : Reader Json := fun c =>
  match digitsAt c with
  | [] => if c.rest.isEmpty then faultAt c .endInValue else faultPast c .invalidNumber
  | '0' :: _ :: _ => faultPast (c.drop 1) .invalidNumber
  | digits =>
    let (significand, left) := takeDigits 0 digits
    let c := c.drop digits.length
    match c.peek with
    | some '.' => readFraction negative significand left c
    | some 'e' | some 'E' => readExponent negative significand left c
    | _ =>
      if left = 0 then .ok (ofInteger negative significand, c)
      else endFloat negative significand left c

/-- The value of a hexadecimal digit. -/
def hexValue? (c : Char) : Option Nat := Number.digitOf? 16 c

/-- The code of four hexadecimal digits. -/
def hexCode? : List Char → Option Nat
  | [] => some 0
  | c :: cs => do
    let high ← hexValue? c
    let low ← hexCode? cs
    return high * Nat.pow 16 cs.length + low

/-- The place after the next `n` bytes, when no line ends among them;
nothing when there are fewer. -/
def skipBytes? (c : Cursor) (n : Nat) : Option Position :=
  go c.position n c.rest
where
  /-- Goes over bytes, stopping inside a character if need be. -/
  go (p : Position) (n : Nat) : List Char → Option Position
    | [] => if n = 0 then some p else none
    | d :: ds =>
      if n = 0 then some p
      else if d = '\n' then go ⟨p.line + 1, 0⟩ (n - 1) ds
      else if n ≤ d.utf8Size then some ⟨p.line, p.column + n⟩
      else go ⟨p.line, p.column + d.utf8Size⟩ (n - d.utf8Size) ds

/-- The place after the last character. -/
def endOf (c : Cursor) : Cursor := c.drop c.rest.length

/-- Reads four hexadecimal digits. -/
def readHex : Reader Nat := fun c =>
  match skipBytes? c 4 with
  | none => faultAt (endOf c) .endInString
  | some p =>
    match hexCode? (c.rest.take 4) with
    | some code => .ok (code, c.drop 4)
    | none => .error ⟨.invalidEscape, some p⟩

/-- Reads one character that must be there to go on with a surrogate. -/
def readSurrogateMark (mark : Char) : Reader Unit := fun c =>
  match c.rest with
  | [] => faultAt c .endInString
  | d :: _ => if d = mark then .ok ((), c.drop 1) else faultPast c .unfinishedSurrogate

/-- Reads an escaped code, from its digits on; a code outside the basic
plane is written as two surrogates. -/
def readCode : Reader Char := fun c => do
  let (first, c) ← readHex c
  if 0xDC00 ≤ first ∧ first ≤ 0xDFFF then faultAt c .loneSurrogate
  else if first < 0xD800 ∨ 0xDBFF < first then .ok (Char.ofNat first, c)
  else
    let (_, c) ← readSurrogateMark '\\' c
    let (_, c) ← readSurrogateMark 'u' c
    let (second, c) ← readHex c
    if second < 0xDC00 ∨ 0xDFFF < second then faultAt c .loneSurrogate
    else .ok (Char.ofNat ((first - 0xD800) * 0x400 + (second - 0xDC00) + 0x10000), c)

/-- The character of an escape that is a single letter. -/
def escapedChar? : Char → Option Char
  | '"' => some '"'
  | '\\' => some '\\'
  | '/' => some '/'
  | 'b' => some '\x08'
  | 'f' => some '\x0c'
  | 'n' => some '\n'
  | 'r' => some '\r'
  | 't' => some '\t'
  | _ => none

/-- Reads an escape, from the character after its backslash on. -/
def readEscape : Reader Char := fun c =>
  match c.rest with
  | [] => faultAt c .endInString
  | d :: _ =>
    if d = 'u' then readCode (c.drop 1)
    else
      match escapedChar? d with
      | some e => .ok (e, c.drop 1)
      | none => faultPast c .invalidEscape

/-- Reads the characters of a string up to its closing quote. `fuel`
bounds their number. -/
def readChars : Nat → Reader (List Char)
  | 0, c => faultAt c .endInString
  | fuel + 1, c =>
    match c.rest with
    | [] => faultAt c .endInString
    | d :: _ =>
      if d = '"' then .ok ([], c.drop 1)
      else if d = '\\' then do
        let (e, c) ← readEscape (c.drop 1)
        let (es, c) ← readChars fuel c
        return (e :: es, c)
      else if d.toNat < 0x20 then faultPast c .controlCharacter
      else do
        let (es, c) ← readChars fuel (c.drop 1)
        return (d :: es, c)

/-- Reads a string, from its opening quote on. -/
def readString : Reader String := fun c => do
  let c := c.drop 1
  let (cs, c) ← readChars (c.rest.length + 1) c
  return (String.ofList cs, c)

/-- Reads a document that is neither an array nor an object. -/
def readScalar : Reader Json := fun c =>
  match c.peek with
  | some 'n' => do
    let (_, c) ← readWord ['u', 'l', 'l'] (c.drop 1)
    return (.null, c)
  | some 't' => do
    let (_, c) ← readWord ['r', 'u', 'e'] (c.drop 1)
    return (.bool true, c)
  | some 'f' => do
    let (_, c) ← readWord ['a', 'l', 's', 'e'] (c.drop 1)
    return (.bool false, c)
  | some '-' => readNumber true (c.drop 1)
  | some '"' => do
    let (s, c) ← readString c
    return (.string s, c)
  | some d => if d.isDigit then readNumber false c else faultPast c .expectedValue
  | none => faultPast c .endInValue

/-! ### Arrays and objects -/

/-- Goes to the next element of an array, if there is one; `first` tells
that none has been read. -/
def nextElement (first : Bool) : Reader Bool := fun c =>
  let c := c.skipSpace
  match c.peek with
  | none => faultPast c .endInList
  | some ']' => .ok (false, c)
  | some d =>
    if first then .ok (true, c)
    else if d = ',' then
      let c := (c.drop 1).skipSpace
      match c.peek with
      | none => faultPast c .endInValue
      | some ']' => faultPast c .trailingComma
      | some _ => .ok (true, c)
    else faultPast c .expectedListEnd

/-- Goes to the name of the next member of an object, if there is one. -/
def nextMember (first : Bool) : Reader Bool := fun c =>
  let c := c.skipSpace
  match c.peek with
  | none => faultPast c .endInObject
  | some '\x7d' => .ok (false, c)
  | some d =>
    if first then if d = '"' then .ok (true, c) else faultPast c .keyNotString
    else if d = ',' then
      let c := (c.drop 1).skipSpace
      match c.peek with
      | none => faultPast c .endInValue
      | some '"' => .ok (true, c)
      | some '\x7d' => faultPast c .trailingComma
      | some _ => faultPast c .keyNotString
    else faultPast c .expectedObjectEnd

/-- Reads the colon after the name of a member. -/
def readColon : Reader Unit := fun c =>
  let c := c.skipSpace
  match c.peek with
  | none => faultPast c .endInObject
  | some ':' => .ok ((), c.drop 1)
  | some _ => faultPast c .expectedColon

/-- Reads the elements of an array, up to its closing bracket. `fuel`
bounds their number. -/
def readElements (element : Reader Json) : Nat → Bool → Reader (List Json)
  | 0, _, c => faultPast c .endInList
  | fuel + 1, first, c => do
    let (more, c) ← nextElement first c
    if more then
      let (j, c) ← element c
      let (tail, c) ← readElements element fuel false c
      return (j :: tail, c)
    else
      return ([], c)

/-- Reads the members of an object, up to its closing bracket. `fuel`
bounds their number. -/
def readMembers (element : Reader Json) : Nat → Bool → Reader (List (String × Json))
  | 0, _, c => faultPast c .endInObject
  | fuel + 1, first, c => do
    let (more, c) ← nextMember first c
    if more then
      let (name, c) ← readString c
      let (_, c) ← readColon c
      let (j, c) ← element c
      let (ms, c) ← readMembers element fuel false c
      return ((name, j) :: ms, c)
    else
      return ([], c)

/-- Reads any document, given the reader for nested ones, if any may
be nested. -/
def readOver (nested : Option (Reader Json)) : Reader Json := fun c =>
  let c := c.skipSpace
  match c.peek with
  | some '[' =>
    match nested with
    | none => faultPast c .nestingLimit
    | some element => do
      let c := c.drop 1
      let (elements, c) ← readElements element (c.rest.length + 1) true c
      return (.array elements, c.drop 1)
  | some '\x7b' =>
    match nested with
    | none => faultPast c .nestingLimit
    | some element => do
      let c := c.drop 1
      let (ms, c) ← readMembers element (c.rest.length + 1) true c
      return (.object ms, c.drop 1)
  | _ => readScalar c

/-- Reads a document in which at most `depth` arrays and objects are
nested in one another. -/
def read : Nat → Reader Json
  | 0 => readOver none
  | depth + 1 => readOver (some (read depth))

/-- How many arrays and objects may be nested in one another. -/
def maxNesting : Nat := 127

/-- Checks that only spaces are left. -/
def readEnd : Reader Unit := fun c =>
  let c := c.skipSpace
  if c.rest.isEmpty then .ok ((), c) else faultPast c .trailingCharacters

end Formula.Json
