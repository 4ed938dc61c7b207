import QueryDoc.Kind
import QueryDoc.Text.Location
import QueryDoc.Tree.Segment

/-! What can go wrong, as causes. The wording of every message is in
`Error.message`; a failed reading also knows where it failed and shows a
snippet of the source. -/
namespace QueryDoc

/-- Whether an error is about the spelling of a source text or about the tree
and the values that it stands for. -/
inductive ErrorClass where
  | spelling
  | meaning
deriving DecidableEq, Repr

namespace ErrorClass

/-- The words that introduce an error's message. -/
def heading : ErrorClass → String
  | .spelling => "Syntax Error"
  | .meaning => "GraphQL Error"

end ErrorClass

/-- The cause of a failure. -/
inductive Error where
  /-- A source text could not be read; a construct was expected at a place. -/
  | unreadable (expected : Kind) (location : Location) (snippet : String)
  /-- A node of another kind does not fit a place in the tree. -/
  | misfit (expected found : Kind)
  /-- A child that its parent cannot do without was deleted. -/
  | missingChild (slot : Segment) (parent : Kind)
  /-- All selections of a selection set were deleted. -/
  | emptiedSelectionSet
  /-- A non-null type was put directly into a non-null type. -/
  | doubledNonNull
  | unknownSegment (text : String)
  | invalidName (text : String)
  | reservedEnumName (text : String)
  | noSuchOperation (name : String)
  | noOperation
  | severalOperations
  | nullForNonNull
  /-- An integer outside of 32 bits, or no integer, met the type `Int`. -/
  | notInt32 (number : String)
  | unrepresentable (scalar value : String)
  /-- An error that a visitor raised. -/
  | raised (origin : ErrorClass) (message : String) (location : Option Location)
      (context : Option String)
deriving DecidableEq, Repr

namespace Error

def origin : Error → ErrorClass
  | .unreadable .. => .spelling
  | .raised origin .. => origin
  | _ => .meaning

/-- What an error says about its cause, on one line. -/
def message : Error → String
  | .unreadable expected _ _ => "Invalid " ++ expected.label
  | .misfit expected found => "Expected " ++ expected.label ++ " but got " ++ found.label
  | .missingChild slot parent =>
    "Cannot delete the " ++ slot.toText ++ " of a " ++ parent.label
  | .emptiedSelectionSet => "Selection Set cannot be empty after its selections were deleted"
  | .doubledNonNull => "Non-null Type cannot wrap another Non-null Type"
  | .unknownSegment text => "Invalid path segment " ++ text
  | .invalidName text =>
    "Expected name to match [_A-Za-z][_0-9A-Za-z]*, got \"" ++ text ++ "\""
  | .reservedEnumName text => "Enum values cannot be named: " ++ text
  | .noSuchOperation name => "Operation with name " ++ name ++ " does not exist"
  | .noOperation => "Document does not contain any operations"
  | .severalOperations =>
    "Document contains more than one operation, missing operation name"
  | .nullForNonNull => "Received null for non-nullable type"
  | .notInt32 number => "Int cannot represent non 32-bit signed integer value " ++ number
  | .unrepresentable scalar value => scalar ++ " cannot represent value " ++ value
  | .raised _ message _ _ => message

def location : Error → Option Location
  | .unreadable _ location _ => some location
  | .raised _ _ location _ => location
  | _ => none

/-- What is shown below the message, such as a snippet. -/
def context : Error → Option String
  | .unreadable _ _ snippet => some snippet
  | .raised _ _ _ context => context
  | _ => none

/-- The first line of a report. -/
def brief (e : Error) : String := e.origin.heading ++ ": " ++ e.message

/-- The whole report: the first line and the context below it, if there is
any. -/
def report (e : Error) : String :=
  match e.context with
  | some context => e.brief ++ "\n" ++ context
  | none => e.brief

end Error
end QueryDoc
