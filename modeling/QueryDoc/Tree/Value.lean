/-! Names and literal values. Texts are kept as they were given: nothing here
says that a name is spelled like a name or a number like a number. -/
namespace QueryDoc

/-- A name, of a field, an argument, a type, a variable and so on. -/
structure Name where
  text : String
deriving DecidableEq, Repr

/-- A reference to a variable, written with a dollar sign. -/
structure Variable where
  name : Name
deriving DecidableEq, Repr

mutual

/-- A literal value. Numbers keep their spelling. A string holds its content,
without escapes, and whether it was written as a block. -/
inductive Value where
  | null
  | boolean (b : Bool)
  | int (text : String)
  | float (text : String)
  | string (content : String) (block : Bool)
  | enum (text : String)
  | variable (v : Variable)
  | list (values : List Value)
  | object (fields : List ObjectField)

/-- A named member of an object literal. -/
structure ObjectField where
  name : Name
  value : Value

end

instance : Inhabited Value := ⟨.null⟩
instance : Inhabited ObjectField := ⟨⟨⟨""⟩, .null⟩⟩

mutual

/-- Structural equality of literals, as a test. -/
def Value.beq : Value → Value → Bool
  | .null, .null => true
  | .boolean a, .boolean b => a == b
  | .int a, .int b => a == b
  | .float a, .float b => a == b
  | .string a x, .string b y => a == b && x == y
  | .enum a, .enum b => a == b
  | .variable a, .variable b => a == b
  | .list a, .list b => Value.beqList a b
  | .object a, .object b => Value.beqFields a b
  | _, _ => false

def Value.beqList : List Value → List Value → Bool
  | [], [] => true
  | a :: as, b :: bs => Value.beq a b && Value.beqList as bs
  | _, _ => false

def Value.beqFields : List ObjectField → List ObjectField → Bool
  | [], [] => true
  | ⟨m, a⟩ :: as, ⟨n, b⟩ :: bs => m == n && Value.beq a b && Value.beqFields as bs
  | _, _ => false

end

mutual

theorem Value.beq_iff (a b : Value) : Value.beq a b = true ↔ a = b := by
  cases a <;> cases b <;>
    simp [Value.beq, Value.beqList_iff, Value.beqFields_iff]

theorem Value.beqList_iff (as bs : List Value) : Value.beqList as bs = true ↔ as = bs := by
  cases as <;> cases bs <;>
    simp [Value.beqList, Value.beq_iff, Value.beqList_iff]

theorem Value.beqFields_iff (as bs : List ObjectField) :
    Value.beqFields as bs = true ↔ as = bs := by
  match as, bs with
  | [], [] => simp [Value.beqFields]
  | [], _ :: _ => simp [Value.beqFields]
  | _ :: _, [] => simp [Value.beqFields]
  | ⟨m, a⟩ :: as, ⟨n, b⟩ :: bs =>
    simp [Value.beqFields, Value.beq_iff a b, Value.beqFields_iff as bs]

end

instance : DecidableEq Value := fun a b => decidable_of_iff _ (Value.beq_iff a b)

instance : DecidableEq ObjectField := fun ⟨m, a⟩ ⟨n, b⟩ =>
  decidable_of_iff (m = n ∧ a = b) (by simp)

/-- The value of a list of fields under a name: the last field of that name
counts. -/
def lastField? (name : String) (fields : List ObjectField) : Option Value :=
  (fields.reverse.find? (·.name.text == name)).map (·.value)

end QueryDoc
