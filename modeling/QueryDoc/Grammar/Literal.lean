import QueryDoc.Grammar.Rule
import QueryDoc.Lexical.Name
import QueryDoc.Lexical.Numeral
import QueryDoc.Tree.TypeRef

/-! The rules for names, literal values and types. -/
namespace QueryDoc.Rule

def name : Rule Name :=
  terminal .name fun
    | .name text => some ⟨text⟩
    | _ => none

def variableRef : Rule Variable := do
  token .dollar .variable
  return ⟨← name⟩

def null : Rule Value := do
  keyword "null" .nullValue
  return .null

def boolean : Rule Value :=
  orElse
    (do keyword "true" .booleanValue; return .boolean true)
    (do keyword "false" .booleanValue; return .boolean false)

/-- A number is a float where it has a fraction or an exponent. -/
def number : Rule Value :=
  terminal .intValue fun
    | .number text => some (if Numeral.isFloat text.toList then .float text else .int text)
    | _ => none

def int : Rule Value :=
  attempt do
    match ← number with
    | .int text => return .int text
    | _ => fail .intValue

def float : Rule Value :=
  attempt do
    match ← number with
    | .float text => return .float text
    | _ => fail .floatValue

def string : Rule Value :=
  terminal .stringValue fun
    | .string content block => some (.string content block)
    | _ => none

def enum : Rule Value :=
  terminal .enumValue fun
    | .name text => if text ∈ Name.reserved then none else some (.enum text)
    | _ => none

/-- A list of values, which are read by a rule of their own. -/
def listOf (item : Rule Value) : Rule Value := do
  token .bracketL .listValue
  let values ← many item
  token .bracketR .listValue
  return .list values

/-- A named value, as in an object. -/
def objectFieldOf (item : Rule Value) : Rule ObjectField := do
  let name ← name
  token .colon .objectField
  return ⟨name, ← item⟩

/-- An object of named values. -/
def objectOf (item : Rule Value) : Rule Value := do
  token .braceL .objectValue
  let fields ← many (objectFieldOf item)
  token .braceR .objectValue
  return .object fields

/-- A value whose parts are read by a rule of their own. -/
def valueOf (item : Rule Value) : Rule Value :=
  orElse null <|
  orElse boolean <|
  orElse (attempt do return .variable (← variableRef)) <|
  orElse string <|
  orElse number <|
  orElse enum <|
  orElse (attempt (listOf item)) <|
  expecting .value (attempt (objectOf item))

/-- A value; its parts are values too and start later in the text. -/
def value : Rule Value := fun input =>
  valueOf (within input .value fun rest _ => value rest) input
termination_by input => input.length

def list : Rule Value := listOf value

def object : Rule Value := objectOf value

def objectField : Rule ObjectField := objectFieldOf value

def namedType : Rule NamedType := do
  return ⟨← name⟩

/-- A type whose item type is read by a rule of its own. After an opening bracket
it is a list type and nothing else. -/
def typeRefOf (item : Rule TypeRef) : Rule TypeRef := do
  let core ←
    if ← takes .bracketL .listType then do
      let inner ← item
      token .bracketR .listType
      pure (TypeRef.list inner)
    else do
      pure (TypeRef.named (← namedType))
  if ← takes .bang .nonNullType then return .nonNull core else return core

/-- A type; the items of a list type start later in the text. -/
def typeRef : Rule TypeRef := fun input =>
  typeRefOf (within input .typeRef fun rest _ => typeRef rest) input
termination_by input => input.length

end QueryDoc.Rule
