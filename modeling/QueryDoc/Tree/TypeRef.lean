import QueryDoc.Tree.Value

/-! References to types, as variable definitions state them. -/
namespace QueryDoc

/-- A reference to a type by its name. -/
structure NamedType where
  name : Name
deriving DecidableEq, Repr

/-- A reference to a type. The parser never builds a non-null type directly
inside another one, nor does `TypeRef.required`. -/
inductive TypeRef where
  | named (t : NamedType)
  | list (item : TypeRef)
  | nonNull (inner : TypeRef)
deriving DecidableEq, Repr

namespace TypeRef

/-- The type of lists whose items have this type. -/
def listOf (t : TypeRef) : TypeRef := .list t

/-- This type without null; a type that already excludes null stays as it is. -/
def required : TypeRef → TypeRef
  | .nonNull inner => .nonNull inner
  | t => .nonNull t

/-- The named type inside all lists and non-null marks. -/
def base : TypeRef → NamedType
  | .named t => t
  | .list item => item.base
  | .nonNull inner => inner.base

end TypeRef
end QueryDoc
