import QueryDoc.Lexical.Lexer

/-! How a source text is written, without a word on how it is scanned: what spells a
terminal, which terminal stands at the start of a text, what may stand between
terminals, and which terminals a text has. -/
namespace QueryDoc

/-! ## Numbers -/

namespace Numeral

/-- One or more digits. -/
def Digits (cs : List Char) : Prop := cs ≠ [] ∧ ∀ c ∈ cs, isDigit c = true

/-- An optional minus sign. -/
inductive IsMinus : List Char → Prop where
  | none : IsMinus []
  | minus : IsMinus ['-']

/-- An optional fraction: a point and digits. -/
inductive IsFraction : List Char → Prop where
  | none : IsFraction []
  | point {ds : List Char} : Digits ds → IsFraction ('.' :: ds)

/-- An optional sign of either kind. -/
inductive IsSign : List Char → Prop where
  | none : IsSign []
  | plus : IsSign ['+']
  | minus : IsSign ['-']

/-- An optional exponent: a mark, an optional sign and digits. -/
inductive IsExponent : List Char → Prop where
  | none : IsExponent []
  | mark {c : Char} {sign ds : List Char} :
      c = 'e' ∨ c = 'E' → IsSign sign → Digits ds → IsExponent (c :: (sign ++ ds))

/-- The spelling of a number. -/
inductive IsNumber : List Char → Prop where
  | number {sign whole frac exp : List Char} :
      IsMinus sign → Digits whole → IsFraction frac → IsExponent exp →
      IsNumber (sign ++ (whole ++ (frac ++ exp)))

end Numeral

/-! ## Strings -/

namespace Quoted

/-- What may stand between the quotes of a string on one line: a backslash takes any
character along, and quotes and line ends stand after one only. -/
inductive IsInside : List Char → Prop where
  | nil : IsInside []
  | escape (c : Char) {cs : List Char} : IsInside cs → IsInside ('\\' :: c :: cs)
  | plain {c : Char} {cs : List Char} :
      c ≠ '"' → c ≠ '\\' → c ≠ '\n' → c ≠ '\r' → IsInside cs → IsInside (c :: cs)

/-- A hexadecimal digit of either case. -/
def SpellsDigit (d : Char) (n : Nat) : Prop :=
  n < 16 ∧ (d = n.digitChar ∨ d = n.digitChar.toUpper)

/-- Four hexadecimal digits, for a code unit. -/
inductive SpellsUnit : List Char → Nat → Prop where
  | digits {x y z w : Char} {a b c d : Nat} :
      SpellsDigit x a → SpellsDigit y b → SpellsDigit z c → SpellsDigit w d →
      SpellsUnit [x, y, z, w] (((a * 16 + b) * 16 + c) * 16 + d)

/-- The letters of the short escapes, each with what it stands for. -/
def shortEscapes : List (Char × Char) :=
  [('"', '"'), ('\\', '\\'), ('/', '/'), ('b', '\x08'), ('f', '\x0c'), ('n', '\n'), ('r', '\r'),
    ('t', '\t')]

/-- The spellings of a character inside of a string on one line: the character itself, its
short escape, the escape of its code unit and, outside of the basic plane, the escapes of its
two surrogates. -/
inductive SpellsChar : List Char → Char → Prop where
  | itself {c : Char} : c ≠ '"' → c ≠ '\\' → c ≠ '\n' → c ≠ '\r' → SpellsChar [c] c
  | short {letter c : Char} : (letter, c) ∈ shortEscapes → SpellsChar ['\\', letter] c
  | unit {ds : List Char} {c : Char} : SpellsUnit ds c.toNat → SpellsChar ('\\' :: 'u' :: ds) c
  | pair {hs ls : List Char} {c : Char} :
      0x10000 ≤ c.toNat → SpellsUnit hs (0xD800 + (c.toNat - 0x10000) / 0x400) →
      SpellsUnit ls (0xDC00 + (c.toNat - 0x10000) % 0x400) →
      SpellsChar ('\\' :: 'u' :: (hs ++ '\\' :: 'u' :: ls)) c

/-- A text after three quotes. -/
abbrev quotes (cs : List Char) : List Char := '"' :: '"' :: '"' :: cs

/-- What may stand between the quotes of a block: three quotes stand after a
backslash only, also where the closing ones would complete them. -/
inductive IsBlockInside : List Char → Prop where
  | nil : IsBlockInside []
  | quotes {cs : List Char} : IsBlockInside cs → IsBlockInside ('\\' :: quotes cs)
  | plain {c : Char} {cs : List Char} :
      (∀ more, c :: (cs ++ quotes []) ≠ quotes more) →
      (∀ more, c :: (cs ++ quotes []) ≠ '\\' :: quotes more) →
      IsBlockInside cs → IsBlockInside (c :: cs)

end Quoted

/-! ## Terminals -/

/-- The characters that a terminal can be spelled with. -/
inductive Spells : List Char → Token → Prop where
  | bang : Spells ['!'] .bang
  | dollar : Spells ['$'] .dollar
  | atSign : Spells ['@'] .atSign
  | parenL : Spells ['('] .parenL
  | parenR : Spells [')'] .parenR
  | bracketL : Spells ['['] .bracketL
  | bracketR : Spells [']'] .bracketR
  | braceL : Spells ['\x7b'] .braceL
  | braceR : Spells ['\x7d'] .braceR
  | spread : Spells ['.', '.', '.'] .spread
  | colon : Spells [':'] .colon
  | equals : Spells ['='] .equals
  | name {cs : List Char} : Name.isSpelling cs = true → Spells cs (.name (String.ofList cs))
  | number {cs : List Char} : Numeral.IsNumber cs → Spells cs (.number (String.ofList cs))
  | string {cs : List Char} : Quoted.IsInside cs →
      Spells ('"' :: (cs ++ ['"'])) (.string (String.ofList (Quoted.decode cs)) false)
  | block {cs : List Char} : Quoted.IsBlockInside cs →
      Spells (Quoted.quotes (cs ++ Quoted.quotes []))
        (.string (String.ofList (Quoted.decodeBlock cs)) true)

/-- The terminal at the start of a text, and what follows it. No longer part of the
text spells a terminal, and three quotes open a block whether or not it is closed. -/
structure Stands (cs : List Char) (t : Token) (rest : List Char) : Prop where
  spelled : ∃ word, cs = word ++ rest ∧ Spells word t
  longest : ∀ word more u, cs = word ++ more → Spells word u → rest.length ≤ more.length
  opens : ∀ more, cs = Quoted.quotes more → ∃ content, t = .string content true

/-! ## Texts -/

def endsLine (c : Char) : Bool := c = '\n' || c = '\r'

/-- Input that is ignored: blanks and comments, which go on to the end of a line or
of the text. -/
inductive Ignored : List Char → List Char → Prop where
  | none (cs : List Char) : Ignored cs cs
  | blank {c : Char} {cs rest : List Char} :
      Lexer.isBlank c = true → Ignored cs rest → Ignored (c :: cs) rest
  | comment {cs more rest : List Char} :
      (∀ c ∈ cs, endsLine c = false) → (∀ c ∈ more.head?, endsLine c = true) →
      Ignored more rest → Ignored ('#' :: (cs ++ more)) rest

/-- The terminals of a text that starts with one. Ignored input may follow each
terminal but a dollar or an at sign, which belong to the name after them. -/
inductive Written : List Char → List Token → Prop where
  | nil : Written [] []
  | sigil {cs rest : List Char} {t : Token} {ts : List Token} :
      Stands cs t rest → t = .dollar ∨ t = .atSign → Written rest ts → Written cs (t :: ts)
  | spaced {cs more rest : List Char} {t : Token} {ts : List Token} :
      Stands cs t more → t ≠ .dollar ∧ t ≠ .atSign → Ignored more rest → Written rest ts →
      Written cs (t :: ts)

end QueryDoc
