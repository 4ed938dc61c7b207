/-! Quoted strings. A string on one line stands between quotes and spells some
characters as escapes; an escape that stands for nothing is kept as it is. A
block stands between three quotes and spells only three quotes differently. -/
namespace QueryDoc.Quoted

/-- What a hexadecimal digit of either case stands for. -/
def hexValue? (c : Char) : Option Nat :=
  if '0' ≤ c && c ≤ '9' then some (c.toNat - '0'.toNat)
  else if 'a' ≤ c && c ≤ 'f' then some (c.toNat - 'a'.toNat + 10)
  else if 'A' ≤ c && c ≤ 'F' then some (c.toNat - 'A'.toNat + 10)
  else none

/-- The code unit that four hexadecimal digits spell, and what follows them. -/
def codeUnit? : List Char → Option (Nat × List Char)
  | a :: b :: c :: d :: rest => do
    let a ← hexValue? a
    let b ← hexValue? b
    let c ← hexValue? c
    let d ← hexValue? d
    return (a * 4096 + b * 256 + c * 16 + d, rest)
  | _ => none

/-- The character of a code point, unless the code point is a surrogate. -/
def scalar? (code : Nat) : Option Char :=
  if h : code.isValidChar then some (Char.ofNatAux code h) else none

def isHighSurrogate (code : Nat) : Bool := 0xD800 ≤ code && code ≤ 0xDBFF

def isLowSurrogate (code : Nat) : Bool := 0xDC00 ≤ code && code ≤ 0xDFFF

/-- The code point that two surrogates stand for. -/
def joinSurrogates (high low : Nat) : Nat := 0x10000 + (high - 0xD800) * 1024 + (low - 0xDC00)

/-- The character that the digits after an escape mark `\u` stand for, and what
follows. A character outside of the basic plane takes two such escapes. -/
def unicodeEscape? (cs : List Char) : Option (Char × List Char) := do
  let (code, rest) ← codeUnit? cs
  if isHighSurrogate code then
    match rest with
    | '\\' :: 'u' :: more =>
      let (low, rest) ← codeUnit? more
      if isLowSurrogate low then return (← scalar? (joinSurrogates code low), rest) else none
    | _ => none
  else
    return (← scalar? code, rest)

/-- The character that a one-letter escape stands for. -/
def shortEscape? : Char → Option Char
  | '"' => some '"'
  | '\\' => some '\\'
  | '/' => some '/'
  | 'b' => some '\x08'
  | 'f' => some '\x0c'
  | 'n' => some '\n'
  | 'r' => some '\r'
  | 't' => some '\t'
  | _ => none

/-- The character that an escape at the start of a text stands for, and what
follows the escape. -/
def escape? : List Char → Option (Char × List Char)
  | '\\' :: 'u' :: rest => unicodeEscape? rest
  | '\\' :: c :: rest => (shortEscape? c).map (·, rest)
  | _ => none

theorem codeUnit?_length {cs rest : List Char} {code : Nat}
    (h : codeUnit? cs = some (code, rest)) : rest.length < cs.length := by
  unfold codeUnit? at h
  split at h
  · simp only [Option.bind_eq_bind, Option.bind_eq_some_iff, Option.pure_def,
      Option.some.injEq, Prod.mk.injEq] at h
    obtain ⟨_, _, _, _, _, _, _, _, _, rfl⟩ := h
    simp only [List.length_cons]
    omega
  · simp at h

theorem unicodeEscape?_length {cs rest : List Char} {c : Char}
    (h : unicodeEscape? cs = some (c, rest)) : rest.length < cs.length := by
  simp only [unicodeEscape?, Option.bind_eq_bind, Option.bind_eq_some_iff, Prod.exists] at h
  obtain ⟨code, mid, hcode, h⟩ := h
  have hm := codeUnit?_length hcode
  split at h
  · split at h
    · simp only [Option.bind_eq_some_iff, Prod.exists] at h
      obtain ⟨low, tail, hlow, h⟩ := h
      have ht := codeUnit?_length hlow
      split at h
      · simp only [Option.bind_eq_some_iff, Option.pure_def, Option.some.injEq,
          Prod.mk.injEq] at h
        obtain ⟨_, _, _, rfl⟩ := h
        simp only [List.length_cons] at hm
        omega
      · simp at h
    · simp at h
  · simp only [Option.bind_eq_some_iff, Option.pure_def, Option.some.injEq,
      Prod.mk.injEq] at h
    obtain ⟨_, _, _, rfl⟩ := h
    exact hm

theorem escape?_length {cs rest : List Char} {c : Char}
    (h : escape? cs = some (c, rest)) : rest.length < cs.length := by
  unfold escape? at h
  split at h
  · have := unicodeEscape?_length h
    simp only [List.length_cons]
    omega
  · simp only [Option.map_eq_some_iff, Prod.mk.injEq] at h
    obtain ⟨_, _, _, rfl⟩ := h
    simp only [List.length_cons]
    omega
  · simp at h

/-- Reads the inside of a string on one line. -/
def decode (cs : List Char) : List Char :=
  match _h : escape? cs with
  | some (c, rest) => c :: decode rest
  | none =>
    match cs with
    | [] => []
    | c :: rest => c :: decode rest
termination_by cs.length
decreasing_by
  · exact escape?_length ‹_›
  · simp

/-- A hexadecimal digit in upper case. -/
def hexDigit (n : Nat) : Char :=
  if n < 10 then Char.ofNat ('0'.toNat + n) else Char.ofNat ('A'.toNat + (n - 10))

/-- The characters that are spelled as escapes because they cannot be seen. -/
def isControl (c : Char) : Bool :=
  c.toNat ≤ 0x1F || (0x7F ≤ c.toNat && c.toNat ≤ 0x9F)

/-- How a character is spelled inside of a string on one line. -/
def encodeChar (c : Char) : List Char :=
  if c = '\r' then ['\\', 'r']
  else if c = '\n' then ['\\', 'n']
  else if c = '\t' then ['\\', 't']
  else if c = '\x08' then ['\\', 'b']
  else if c = '\x0c' then ['\\', 'f']
  else if c = '"' then ['\\', '"']
  else if c = '\\' then ['\\', '\\']
  else if isControl c then
    ['\\', 'u', '0', '0', hexDigit (c.toNat / 16), hexDigit (c.toNat % 16)]
  else [c]

/-- Spells a text as the inside of a string on one line. -/
def encode (cs : List Char) : List Char := cs.flatMap encodeChar

/-- The inside of a string on one line, up to its closing quote, and what
follows the quote. A backslash takes the character after it along, whatever it
is; the line must not end before the quote. -/
def close : List Char → Option (List Char × List Char)
  | '"' :: rest => some ([], rest)
  | '\\' :: c :: rest => (close rest).map fun (inside, rest) => ('\\' :: c :: inside, rest)
  | c :: rest =>
    if c = '\n' ∨ c = '\r' then none
    else (close rest).map fun (inside, rest) => (c :: inside, rest)
  | [] => none

/-- The inside of a block, up to the next three quotes that no backslash
precedes, and what follows them. -/
def closeBlock (afterBackslash : Bool) : List Char → Option (List Char × List Char)
  | '"' :: '"' :: '"' :: rest =>
    if afterBackslash then
      (closeBlock false rest).map fun (inside, rest) => ('"' :: '"' :: '"' :: inside, rest)
    else some ([], rest)
  | c :: rest => (closeBlock (c = '\\') rest).map fun (inside, rest) => (c :: inside, rest)
  | [] => none

/-- Reads the inside of a block. -/
def decodeBlock : List Char → List Char
  | '\\' :: '"' :: '"' :: '"' :: rest => '"' :: '"' :: '"' :: decodeBlock rest
  | c :: rest => c :: decodeBlock rest
  | [] => []

/-- Spells a text as the inside of a block. -/
def encodeBlock : List Char → List Char
  | '"' :: '"' :: '"' :: rest => '\\' :: '"' :: '"' :: '"' :: encodeBlock rest
  | c :: rest => c :: encodeBlock rest
  | [] => []

/-- Whether a text can be spelled as a block: its end must not run into the
closing quotes. -/
def fitsBlock (cs : List Char) : Bool :=
  match cs.getLast? with
  | some c => c ≠ '"' && c ≠ '\\'
  | none => true

theorem close_length {cs inside rest : List Char} (h : close cs = some (inside, rest)) :
    rest.length < cs.length := by
  fun_induction close cs generalizing inside rest with
  | case1 => simp_all
  | case2 c tail ih =>
    simp only [Option.map_eq_some_iff, Prod.mk.injEq, Prod.exists] at h
    obtain ⟨a, b, hab, -, rfl⟩ := h
    have := ih hab
    simp only [List.length_cons]
    omega
  | case3 => simp at h
  | case4 c tail _ _ _ ih =>
    simp only [Option.map_eq_some_iff, Prod.mk.injEq, Prod.exists] at h
    obtain ⟨a, b, hab, -, rfl⟩ := h
    have := ih hab
    simp only [List.length_cons]
    omega
  | case5 => simp at h

theorem closeBlock_length {b : Bool} {cs inside rest : List Char}
    (h : closeBlock b cs = some (inside, rest)) : rest.length < cs.length := by
  fun_induction closeBlock b cs generalizing inside rest with
  | case1 tail ih =>
    simp only [Option.map_eq_some_iff, Prod.mk.injEq, Prod.exists] at h
    obtain ⟨x, y, hxy, -, rfl⟩ := h
    have := ih hxy
    simp only [List.length_cons]
    omega
  | case2 =>
    simp only [Option.some.injEq, Prod.mk.injEq] at h
    obtain ⟨-, rfl⟩ := h
    simp only [List.length_cons]
    omega
  | case3 _ c tail _ ih =>
    simp only [Option.map_eq_some_iff, Prod.mk.injEq, Prod.exists] at h
    obtain ⟨x, y, hxy, -, rfl⟩ := h
    have := ih hxy
    simp only [List.length_cons]
    omega
  | case4 => simp at h

end QueryDoc.Quoted
