import QueryDoc.Lexical.Quoted

/-! The terminals of the query language. -/
namespace QueryDoc

/-- A terminal. A string holds its content; `invalid` stands where no terminal
starts, and nothing can be read there. -/
inductive Token where
  | bang
  | dollar
  | atSign
  | parenL
  | parenR
  | bracketL
  | bracketR
  | braceL
  | braceR
  | spread
  | colon
  | equals
  | name (text : String)
  | number (text : String)
  | string (content : String) (block : Bool)
  | invalid
deriving DecidableEq, Repr

namespace Token

/-- Whether the next terminal follows without any ignored input: a sigil belongs
to its name. -/
def isSigil : Token → Bool
  | .dollar | .atSign => true
  | _ => false

theorem isSigil_iff {t : Token} : t.isSigil = true ↔ t = .dollar ∨ t = .atSign := by
  cases t <;> simp [isSigil]

theorem isSigil_eq_false_iff {t : Token} : t.isSigil = false ↔ t ≠ .dollar ∧ t ≠ .atSign := by
  cases t <;> simp [isSigil]

/-- The characters that a terminal is written with. -/
def chars : Token → List Char
  | .bang => ['!']
  | .dollar => ['$']
  | .atSign => ['@']
  | .parenL => ['(']
  | .parenR => [')']
  | .bracketL => ['[']
  | .bracketR => [']']
  | .braceL => ['\x7b']
  | .braceR => ['\x7d']
  | .spread => ['.', '.', '.']
  | .colon => [':']
  | .equals => ['=']
  | .name text => text.toList
  | .number text => text.toList
  | .string content true =>
    ['"', '"', '"'] ++ Quoted.encodeBlock content.toList ++ ['"', '"', '"']
  | .string content false => '"' :: Quoted.encode content.toList ++ ['"']
  | .invalid => []

end Token
end QueryDoc
