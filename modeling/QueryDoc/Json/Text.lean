import QueryDoc.Json.Basic
import QueryDoc.Lexical.Quoted

/-! JSON texts: values written without blanks, and texts read. -/
namespace QueryDoc.Json

/-- A hexadecimal digit in lower case. -/
def hexDigit (n : Nat) : Char :=
  if n < 10 then Char.ofNat ('0'.toNat + n) else Char.ofNat ('a'.toNat + (n - 10))

/-- How a character is written in a JSON string. -/
def encodeChar (c : Char) : List Char :=
  if c = '"' then ['\\', '"']
  else if c = '\\' then ['\\', '\\']
  else if c = '\x08' then ['\\', 'b']
  else if c = '\x0c' then ['\\', 'f']
  else if c = '\n' then ['\\', 'n']
  else if c = '\r' then ['\\', 'r']
  else if c = '\t' then ['\\', 't']
  else if c.toNat < 0x20 then
    ['\\', 'u', '0', '0', hexDigit (c.toNat / 16), hexDigit (c.toNat % 16)]
  else [c]

/-- A JSON string. -/
def quoted (s : String) : List Char := '"' :: s.toList.flatMap encodeChar ++ ['"']

/-- Texts with commas between them. -/
def joined (parts : List (List Char)) : List Char := [','].intercalate parts

mutual

/-- The text of a value. -/
def chars : Json → List Char
  | .null => "null".toList
  | .bool true => "true".toList
  | .bool false => "false".toList
  | .number n => n.toText.toList
  | .string s => quoted s
  | .array items => '[' :: joined (charsList items) ++ [']']
  | .object members => '\x7b' :: joined (charsMembers members) ++ ['\x7d']

def charsList : List Json → List (List Char)
  | [] => []
  | v :: vs => v.chars :: charsList vs

def charsMembers : List JsonMember → List (List Char)
  | [] => []
  | ⟨key, v⟩ :: ms => (quoted key ++ ':' :: v.chars) :: charsMembers ms

end

def toText (j : Json) : String := String.ofList j.chars

/-! ### Reading -/

/-- The largest integer that digits are collected up to. -/
def maxCollected : Nat := Nat.pow 2 64 - 1

/-- The largest exponent that is counted exactly. -/
def maxExponent : Nat := Nat.pow 2 31 - 1

/-- The power of ten that a floating-point number is scaled by at most at once. -/
def maxScale : Nat := 308

/-- Scales a number by a power of ten: the power is rounded to a number of its own
and so is the result. Too large a result is none. -/
def scaleBy (x : Binary64) (exponent : Int) : Option Binary64 :=
  if x.isZero then some x
  else if exponent.natAbs ≤ maxScale then do
    let power ← Binary64.ofNat false (Nat.pow 10 exponent.natAbs)
    if 0 ≤ exponent then x.mul power else x.div power
  else if 0 ≤ exponent then none
  else do
    let power ← Binary64.ofNat false (Nat.pow 10 maxScale)
    scaleBy (← x.div power) (exponent + maxScale)
termination_by exponent.natAbs
decreasing_by
  simp only [maxScale] at *
  omega

/-- The number of collected digits and a power of ten. -/
def float? (negative : Bool) (significand : Nat) (exponent : Int) : Option JsonNumber := do
  let x ← Binary64.ofNat negative significand
  return .float (← scaleBy x exponent)

/-- Collects digits as long as they fit; gives the digits collected, how many of
them there are, and how many had no room. -/
def collect : Nat → List Char → Nat × Nat × Nat
  | acc, [] => (acc, 0, 0)
  | acc, c :: cs =>
    if 10 * acc + digitValue c ≤ maxCollected then
      let (value, taken, left) := collect (10 * acc + digitValue c) cs
      (value, taken + 1, left)
    else (acc, 0, cs.length + 1)

/-- The exponent of a number, which may be missing, and the rest; `none` where a
mark has no digits after it. -/
def readExponent (cs : List Char) : Option (Option (Bool × Nat) × List Char) :=
  match cs with
  | c :: rest =>
    if c = 'e' ∨ c = 'E' then
      let (negative, digits) := Binary64.readSign rest
      let run := digits.takeWhile isDigit
      if run.isEmpty then none
      else some (some (negative, digitsValue run), digits.dropWhile isDigit)
    else some (none, cs)
  | [] => some (none, [])

/-- A number with a fraction or an exponent, or with too many digits. -/
def assemble (negative : Bool) (significand : Nat) (shift : Int) :
    Option (Bool × Nat) → Option JsonNumber
  | none => float? negative significand shift
  | some (down, power) =>
    if maxExponent < power then
      if significand ≠ 0 ∧ !down then none else some (.float (.zero negative))
    else float? negative significand (if down then shift - power else shift + power)

/-- An integer, or zero with a minus sign, or an integer out of range. -/
def integer (negative : Bool) (n : Nat) : Option JsonNumber :=
  if !negative then some (.int n)
  else if n = 0 ∨ Nat.pow 2 63 < n then (Binary64.ofNat true n).map .float
  else some (.int (-n))

/-- A number at the start of a text, and the rest. -/
def readNumber (cs : List Char) : Option (JsonNumber × List Char) := do
  let (negative, body) := match cs with
    | '-' :: rest => (true, rest)
    | cs => (false, cs)
  let whole := body.takeWhile isDigit
  let afterWhole := body.dropWhile isDigit
  if whole.isEmpty || (1 < whole.length && whole.head? = some '0') then none
  else
    let (significand, _, dropped) := collect 0 whole
    match afterWhole with
    | '.' :: rest =>
      let frac := rest.takeWhile isDigit
      if frac.isEmpty then none
      else
        let (significand, taken, _) := collect significand frac
        let (exponent, rest) ← readExponent (rest.dropWhile isDigit)
        let n ← assemble negative significand ((dropped : Int) - taken) exponent
        return (n, rest)
    | _ =>
      let (exponent, rest) ← readExponent afterWhole
      match exponent with
      | some _ => return (← assemble negative significand dropped exponent, rest)
      | none =>
        if dropped = 0 then return (← integer negative significand, rest)
        else return (← float? negative significand dropped, rest)

def isBlank (c : Char) : Bool := c = ' ' || c = '\t' || c = '\n' || c = '\r'

def skipBlanks (cs : List Char) : List Char := cs.dropWhile isBlank

/-- The inside of a string, after its opening quote, and the rest. -/
def readString : Nat → List Char → Option (List Char × List Char)
  | 0, _ => none
  | fuel + 1, cs =>
    match cs with
    | [] => none
    | '"' :: rest => some ([], rest)
    | '\\' :: _ => do
      let (c, rest) ← Quoted.escape? cs
      let (inside, rest) ← readString fuel rest
      return (c :: inside, rest)
    | c :: rest =>
      if c.toNat < 0x20 then none
      else do
        let (inside, rest) ← readString fuel rest
        return (c :: inside, rest)

/-- Reads a string with its quotes. -/
def readQuoted (cs : List Char) : Option (String × List Char) :=
  match cs with
  | '"' :: rest => do
    let (inside, rest) ← readString (rest.length + 1) rest
    return (String.ofList inside, rest)
  | _ => none

/-- Reads a given word. -/
def readWord (word : List Char) (cs : List Char) : Option (List Char) :=
  if word.isPrefixOf cs then some (cs.drop word.length) else none

mutual

/-- Reads a value, nested no deeper than the fuel. -/
def readValue : Nat → List Char → Option (Json × List Char)
  | 0, _ => none
  | fuel + 1, cs =>
    match skipBlanks cs with
    | 'n' :: rest => (readWord "ull".toList rest).map (.null, ·)
    | 't' :: rest => (readWord "rue".toList rest).map (.bool true, ·)
    | 'f' :: rest => (readWord "alse".toList rest).map (.bool false, ·)
    | '"' :: rest => (readQuoted ('"' :: rest)).map fun (s, rest) => (.string s, rest)
    | '[' :: rest =>
      match skipBlanks rest with
      | ']' :: rest => some (.array [], rest)
      | rest => (readItems fuel rest).map fun (items, rest) => (.array items, rest)
    | '\x7b' :: rest =>
      match skipBlanks rest with
      | '\x7d' :: rest => some (.object [], rest)
      | rest => (readMembers fuel rest).map fun (members, rest) => (ofMembers members, rest)
    | cs => (readNumber cs).map fun (n, rest) => (.number n, rest)

/-- Reads the items of an array up to its closing bracket. -/
def readItems : Nat → List Char → Option (List Json × List Char)
  | 0, _ => none
  | fuel + 1, cs => do
    let (item, rest) ← readValue fuel cs
    match skipBlanks rest with
    | ',' :: rest =>
      let (items, rest) ← readItems fuel rest
      return (item :: items, rest)
    | ']' :: rest => return ([item], rest)
    | _ => none

/-- Reads the members of an object up to its closing brace. -/
def readMembers : Nat → List Char → Option (List (String × Json) × List Char)
  | 0, _ => none
  | fuel + 1, cs => do
    let (key, rest) ← readQuoted (skipBlanks cs)
    match skipBlanks rest with
    | ':' :: rest =>
      let (value, rest) ← readValue fuel rest
      match skipBlanks rest with
      | ',' :: rest =>
        let (members, rest) ← readMembers fuel rest
        return ((key, value) :: members, rest)
      | '\x7d' :: rest => return ([(key, value)], rest)
      | _ => none
    | _ => none

end

/-- Reads a whole JSON text. -/
def parse (source : String) : Option Json := do
  let cs := source.toList
  let (value, rest) ← readValue (cs.length + 1) cs
  if (skipBlanks rest).isEmpty then some value else none

end QueryDoc.Json
