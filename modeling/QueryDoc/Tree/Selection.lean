import QueryDoc.Tree.TypeRef

/-! What operations and fragments select: fields with their arguments and directives,
spreads of fragments and inline fragments. -/
namespace QueryDoc

/-- A named input of a field or a directive. -/
structure Argument where
  name : Name
  value : Value
deriving DecidableEq

/-- An annotation, written with an at sign. -/
structure Directive where
  name : Name
  arguments : List Argument
deriving DecidableEq

/-- A reference to a fragment definition by its name. -/
structure FragmentSpread where
  name : Name
  directives : List Directive
deriving DecidableEq

mutual

/-- A member of a selection set. -/
inductive Selection where
  | field (f : Field)
  | fragmentSpread (s : FragmentSpread)
  | inlineFragment (f : InlineFragment)

/-- A field that a query asks for. A field with members of its own has a
selection set. -/
structure Field where
  aliasName : Option Name
  name : Name
  arguments : List Argument
  directives : List Directive
  selectionSet : Option SelectionSet

/-- A fragment that stands where it is used, with or without a type condition. -/
structure InlineFragment where
  typeCondition : Option NamedType
  directives : List Directive
  selectionSet : SelectionSet

/-- What is selected from an object, in order. -/
structure SelectionSet where
  selections : List Selection

end

instance : Inhabited SelectionSet := ⟨⟨[]⟩⟩
instance : Inhabited Field := ⟨⟨none, ⟨""⟩, [], [], none⟩⟩

mutual

/-- Structural equality of selections, as a test. -/
def Selection.beq : Selection → Selection → Bool
  | .field f, .field g => Field.beq f g
  | .fragmentSpread s, .fragmentSpread t => s == t
  | .inlineFragment f, .inlineFragment g => InlineFragment.beq f g
  | _, _ => false

def Field.beq : Field → Field → Bool
  | ⟨a, n, as, ds, s⟩, ⟨b, m, bs, es, t⟩ =>
    a == b && n == m && as == bs && ds == es && SelectionSet.beqOption s t

def InlineFragment.beq : InlineFragment → InlineFragment → Bool
  | ⟨c, ds, s⟩, ⟨d, es, t⟩ => c == d && ds == es && SelectionSet.beq s t

def SelectionSet.beq : SelectionSet → SelectionSet → Bool
  | ⟨as⟩, ⟨bs⟩ => Selection.beqList as bs

def SelectionSet.beqOption : Option SelectionSet → Option SelectionSet → Bool
  | none, none => true
  | some s, some t => SelectionSet.beq s t
  | _, _ => false

def Selection.beqList : List Selection → List Selection → Bool
  | [], [] => true
  | a :: as, b :: bs => Selection.beq a b && Selection.beqList as bs
  | _, _ => false

end

mutual

theorem Selection.beq_iff (a b : Selection) : Selection.beq a b = true ↔ a = b := by
  match a, b with
  | .field f, .field g => simp [Selection.beq, Field.beq_iff f g]
  | .fragmentSpread s, .fragmentSpread t => simp [Selection.beq]
  | .inlineFragment f, .inlineFragment g => simp [Selection.beq, InlineFragment.beq_iff f g]
  | .field _, .fragmentSpread _ => simp [Selection.beq]
  | .field _, .inlineFragment _ => simp [Selection.beq]
  | .fragmentSpread _, .field _ => simp [Selection.beq]
  | .fragmentSpread _, .inlineFragment _ => simp [Selection.beq]
  | .inlineFragment _, .field _ => simp [Selection.beq]
  | .inlineFragment _, .fragmentSpread _ => simp [Selection.beq]
termination_by structural a

theorem Field.beq_iff (f g : Field) : Field.beq f g = true ↔ f = g := by
  match f, g with
  | ⟨_, _, _, _, s⟩, ⟨_, _, _, _, t⟩ =>
    simp [Field.beq, SelectionSet.beqOption_iff s t, and_assoc]
termination_by structural f

theorem InlineFragment.beq_iff (f g : InlineFragment) :
    InlineFragment.beq f g = true ↔ f = g := by
  match f, g with
  | ⟨_, _, s⟩, ⟨_, _, t⟩ => simp [InlineFragment.beq, SelectionSet.beq_iff s t, and_assoc]
termination_by structural f

theorem SelectionSet.beq_iff (s t : SelectionSet) : SelectionSet.beq s t = true ↔ s = t := by
  match s, t with
  | ⟨as⟩, ⟨bs⟩ => simp [SelectionSet.beq, Selection.beqList_iff as bs]
termination_by structural s

theorem SelectionSet.beqOption_iff (s t : Option SelectionSet) :
    SelectionSet.beqOption s t = true ↔ s = t := by
  match s, t with
  | none, none => simp [SelectionSet.beqOption]
  | some s, some t => simp [SelectionSet.beqOption, SelectionSet.beq_iff s t]
  | none, some _ => simp [SelectionSet.beqOption]
  | some _, none => simp [SelectionSet.beqOption]
termination_by structural s

theorem Selection.beqList_iff (as bs : List Selection) :
    Selection.beqList as bs = true ↔ as = bs := by
  match as, bs with
  | [], [] => simp [Selection.beqList]
  | a :: as, b :: bs =>
    simp [Selection.beqList, Selection.beq_iff a b, Selection.beqList_iff as bs]
  | [], _ :: _ => simp [Selection.beqList]
  | _ :: _, [] => simp [Selection.beqList]
termination_by structural as

end

instance : DecidableEq Selection := fun a b => decidable_of_iff _ (Selection.beq_iff a b)
instance : DecidableEq Field := fun a b => decidable_of_iff _ (Field.beq_iff a b)
instance : DecidableEq InlineFragment := fun a b =>
  decidable_of_iff _ (InlineFragment.beq_iff a b)
instance : DecidableEq SelectionSet := fun a b => decidable_of_iff _ (SelectionSet.beq_iff a b)

namespace Field

/-- The name under which a field's result is found. -/
def responseName (f : Field) : Name := f.aliasName.getD f.name

/-- A field without alias, arguments, directives and members. -/
def leaf (name : Name) : Field := ⟨none, name, [], [], none⟩

end Field

namespace Selection

def directives : Selection → List Directive
  | .field f => f.directives
  | .fragmentSpread s => s.directives
  | .inlineFragment f => f.directives

end Selection

end QueryDoc
