import QueryDoc.Decimal.Text

/-! JSON values. A number is an integer or a finite floating-point number; the
members of an object are sorted by their keys, each key once. -/
namespace QueryDoc

/-- A number of a JSON value. -/
inductive JsonNumber where
  | int (n : Int)
  | float (x : Binary64)
deriving DecidableEq, Repr

mutual

/-- A JSON value. -/
inductive Json where
  | null
  | bool (b : Bool)
  | number (n : JsonNumber)
  | string (s : String)
  | array (items : List Json)
  | object (members : List JsonMember)

/-- A member of a JSON object. -/
structure JsonMember where
  key : String
  value : Json

end

instance : Inhabited Json := ⟨.null⟩

namespace JsonNumber

def toText : JsonNumber → String
  | .int n => toString n
  | .float x => x.toText

end JsonNumber

namespace Json

/-- Puts a member into sorted members, in the place of one with its key if there
is one. -/
def insert (key : String) (value : Json) : List JsonMember → List JsonMember
  | [] => [⟨key, value⟩]
  | m :: ms =>
    if key < m.key then ⟨key, value⟩ :: m :: ms
    else if key = m.key then ⟨key, value⟩ :: ms
    else m :: insert key value ms

/-- The object with given members; of several members with one key the last one
counts. -/
def ofMembers (members : List (String × Json)) : Json :=
  .object (members.foldl (fun ms (key, value) => insert key value ms) [])

/-- The value under a key of sorted members. -/
def lookup (key : String) (members : List JsonMember) : Option Json :=
  (members.find? (·.key == key)).map (·.value)

/-- A floating-point number as a value; what is not finite has no number. -/
def ofReading : Binary64.Reading → Json
  | .finite x => .number (.float x)
  | .nonfinite => .null

end Json
end QueryDoc
