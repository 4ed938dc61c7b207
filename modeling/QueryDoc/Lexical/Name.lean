import QueryDoc.Error
import QueryDoc.Lexical.Numeral
import QueryDoc.Tree.Value

/-! The spelling of names: a letter or an underscore, then letters, digits and
underscores, all of them ASCII. -/
namespace QueryDoc

def isLetter (c : Char) : Bool := ('a' ≤ c && c ≤ 'z') || ('A' ≤ c && c ≤ 'Z')

def isNameStart (c : Char) : Bool := isLetter c || c = '_'

def isNameChar (c : Char) : Bool := isNameStart c || isDigit c

namespace Name

/-- Whether characters spell a name. -/
def isSpelling : List Char → Bool
  | [] => false
  | c :: cs => isNameStart c && cs.all isNameChar

/-- The words that are literals of their own and hence no enum values. -/
def reserved : List String := ["true", "false", "null"]

/-- A text as a name, if it is spelled like one. -/
def check (text : String) : Except Error Name :=
  if isSpelling text.toList then .ok ⟨text⟩ else .error (.invalidName text)

/-- A text as the name of an enum value, if it is spelled like a name and is not
a literal of its own. -/
def checkEnum (text : String) : Except Error Name :=
  if text ∈ reserved then .error (.reservedEnumName text) else check text

end Name
end QueryDoc
