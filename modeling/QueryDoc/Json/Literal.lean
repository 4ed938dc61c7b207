import QueryDoc.Error
import QueryDoc.Json.Text
import QueryDoc.Tree.TypeRef

/-! Literal values and JSON values, in both directions. From literals, variables
take their values from a map. To literals, a type may say which literal is meant;
without a type, every JSON value has a literal of its own shape. -/
namespace QueryDoc

/-- The values of variables. -/
abbrev Variables := List JsonMember

namespace Json

/-- An integer that fits into 64 bits with a sign. -/
def fitsInt64 (n : Int) : Bool := -9223372036854775808 ≤ n && n ≤ 9223372036854775807

/-- An integer that fits into 32 bits with a sign. -/
def fitsInt32 (n : Int) : Bool := -2147483648 ≤ n && n ≤ 2147483647

/-- Reads an integer text: a sign and digits. -/
def readInt? (cs : List Char) : Option Int :=
  let (negative, digits) := Binary64.readSign cs
  (natural? digits).map fun n => if negative then -(n : Int) else n

/-- The number of an integer literal; a text that is no integer of 64 bits stays
a text. -/
def ofIntText (text : String) : Json :=
  match (readInt? text.toList).filter fitsInt64 with
  | some n => .number (.int n)
  | none => .string text

/-- The number of a float literal; a text that is no number stays a text. -/
def ofFloatText (text : String) : Json :=
  match Binary64.read? text.toList with
  | some r => ofReading r
  | none => .string text

end Json

mutual

/-- The JSON value of a literal. A variable without a value is null, and of
several fields of one name the last one counts. -/
def Value.toJson (given : Variables) : Value → Json
  | .null => .null
  | .boolean b => .bool b
  | .int text => Json.ofIntText text
  | .float text => Json.ofFloatText text
  | .string content _ => .string content
  | .enum text => .string text
  | .variable v => (Json.lookup v.name.text given).getD .null
  | .list vs => .array (Value.toJsonList given vs)
  | .object fs => Json.ofMembers (Value.toJsonFields given fs)

def Value.toJsonList (given : Variables) : List Value → List Json
  | [] => []
  | v :: vs => v.toJson given :: Value.toJsonList given vs

def Value.toJsonFields (given : Variables) : List ObjectField → List (String × Json)
  | [] => []
  | ⟨n, v⟩ :: fs => (n.text, v.toJson given) :: Value.toJsonFields given fs

end

namespace JsonNumber

/-- The literal of a number. -/
def toValue : JsonNumber → Value
  | .int n => .int (JsonNumber.int n).toText
  | .float x => .float (JsonNumber.float x).toText

end JsonNumber

mutual

/-- The literal of the same shape as a JSON value. -/
def Json.toValue : Json → Value
  | .null => .null
  | .bool b => .boolean b
  | .number n => n.toValue
  | .string s => .string s false
  | .array items => .list (Json.toValueList items)
  | .object members => .object (Json.toValueMembers members)

def Json.toValueList : List Json → List Value
  | [] => []
  | j :: js => j.toValue :: Json.toValueList js

def Json.toValueMembers : List JsonMember → List ObjectField
  | [] => []
  | ⟨key, j⟩ :: ms => ⟨⟨key⟩, j.toValue⟩ :: Json.toValueMembers ms

end

/-- The scalar types that every schema has. -/
inductive Scalar where
  | boolean
  | int
  | float
  | id
  | string
deriving DecidableEq, Repr

namespace Scalar

def name : Scalar → String
  | .boolean => "Boolean"
  | .int => "Int"
  | .float => "Float"
  | .id => "ID"
  | .string => "String"

def all : List Scalar := [.boolean, .int, .float, .id, .string]

/-- The scalar type of a name. -/
def ofName? (s : String) : Option Scalar := all.find? (·.name == s)

/-- The literal of a JSON value other than null that stands for a scalar. -/
def coerce : Scalar → Json → Except Error Value
  | .boolean, .bool b => .ok (.boolean b)
  | .int, .number (.int n) =>
    if Json.fitsInt32 n then .ok (.int (JsonNumber.int n).toText)
    else .error (.notInt32 (JsonNumber.int n).toText)
  | .int, .number (.float x) => .error (.notInt32 (JsonNumber.float x).toText)
  | .float, .number n => .ok (.float n.toText)
  | .id, .string s => .ok (.string s false)
  | .string, .string s => .ok (.string s false)
  | .id, .number (.int n) => .ok (.string (JsonNumber.int n).toText false)
  | s, j => .error (.unrepresentable s.name j.toText)

end Scalar

namespace NamedType

/-- The literal of a JSON value other than null at a named type. A type that is no
scalar of every schema admits any value. -/
def coerce (t : NamedType) (j : Json) : Except Error Value :=
  match Scalar.ofName? t.name.text with
  | some s => s.coerce j
  | none => .ok j.toValue

end NamedType

namespace TypeRef

/-- The literal of a JSON value at a type. At a list type a value that is no array
stands for a list of one item. -/
def coerce : TypeRef → Json → Except Error Value
  | .nonNull _, .null => .error .nullForNonNull
  | .named _, .null => .ok .null
  | .list _, .null => .ok .null
  | .nonNull inner, j => inner.coerce j
  | .list item, .array js => do return .list (← js.mapM item.coerce)
  | .list item, j => do return .list [← item.coerce j]
  | .named t, j => t.coerce j

end TypeRef
end QueryDoc
