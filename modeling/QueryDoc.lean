import QueryDoc.Grammar.Production
import QueryDoc.Json.Literal
import QueryDoc.Json.Tree
import QueryDoc.Print.Node
import QueryDoc.Proofs.Grammar.Soundness
import QueryDoc.Tree.Operation
import QueryDoc.Visit.Compose
import QueryDoc.Visit.Machine
import QueryDoc.Proofs.Grammar.Unfold
import QueryDoc.Proofs.Grammar.Completeness
import QueryDoc.Proofs.Lexical.Numeral
import QueryDoc.Proofs.Lexical.Munch
import QueryDoc.Proofs.Lexical.Texts
import QueryDoc.Proofs.Grammar.Proper
import QueryDoc.Proofs.Grammar.Acceptance
import QueryDoc.Proofs.Lexical.Escape
import QueryDoc.Proofs.Print.Neat
import QueryDoc.Proofs.Tree.Valid
import QueryDoc.Proofs.Tree.Inside
import QueryDoc.Proofs.Tree.Refill
import QueryDoc.Proofs.Print.Layout
import QueryDoc.Proofs.Print.Derived
import QueryDoc.Proofs.Print.Reparse
import QueryDoc.Proofs.Grammar.Wellformed
import QueryDoc.Proofs.Print.RoundTrip
import QueryDoc.Proofs.Print.Width
import QueryDoc.Proofs.Visit.Walk
import QueryDoc.Proofs.Visit.Record
import QueryDoc.Proofs.Visit.Refinement
import QueryDoc.Proofs.Visit.Ends
import QueryDoc.Proofs.Visit.Rules
import QueryDoc.Proofs.Tree.Smaller
import QueryDoc.Proofs.Visit.Observer
import QueryDoc.Proofs.Visit.Lockstep
import QueryDoc.Proofs.Visit.Nesting
import QueryDoc.Proofs.Visit.Transparent
import QueryDoc.Proofs.Visit.Upkeep
import QueryDoc.Proofs.Visit.Legal
import QueryDoc.Proofs.Visit.Documents
import QueryDoc.Proofs.Json.Faithful
import QueryDoc.Proofs.Json.Inline
import QueryDoc.Proofs.Visit.Silence
import QueryDoc.Proofs.Grammar.Viable
import QueryDoc.Proofs.Grammar.Probing
import QueryDoc.Proofs.Lexical.Cut
import QueryDoc.Proofs.Text.Lines
import QueryDoc.Proofs.Grammar.Continuation
import QueryDoc.Proofs.Lexical.Lines
import QueryDoc.Proofs.Print.Strings
import QueryDoc.Proofs.Print.Stable
import QueryDoc.Proofs.Visit.Quiet
import QueryDoc.Proofs.Tree.Keys
import QueryDoc.Proofs.Visit.Tour
import QueryDoc.Proofs.Tree.Slots
import QueryDoc.Proofs.Tree.Without
import QueryDoc.Proofs.Visit.Dropping
import QueryDoc.Proofs.Visit.Renewal
import QueryDoc.Proofs.Tree.Forms
import QueryDoc.Proofs.Visit.Agreement
import QueryDoc.Proofs.Visit.Forms
import QueryDoc.Proofs.Decimal.Rounding
import QueryDoc.Proofs.Decimal.Range
import QueryDoc.Proofs.Decimal.Shortest
import QueryDoc.Proofs.Lexical.Digits
import QueryDoc.Proofs.Decimal.Text
import QueryDoc.Proofs.Decimal.Canonical
import QueryDoc.Proofs.Json.Validity
import QueryDoc.Proofs.Json.Numbers
import QueryDoc.Proofs.Json.Parts
import QueryDoc.Proofs.Json.RoundTrip
import QueryDoc.Proofs.Json.Typed
import QueryDoc.Proofs.Json.Substitution
import QueryDoc.Proofs.Text.Location
import QueryDoc.Proofs.Text.Snippet
import QueryDoc.Proofs.Text.Gutter
import QueryDoc.Proofs.Grammar.Blame
import QueryDoc.Proofs.Grammar.Places
import QueryDoc.Proofs.Print.Folding
import QueryDoc.Proofs.Grammar.Joined
import QueryDoc.Proofs.Grammar.Cases
import QueryDoc.Proofs.Print.Names
import QueryDoc.Proofs.Tree.Path
import QueryDoc.Proofs.Print.Types
import QueryDoc.Proofs.Print.Indentation
import QueryDoc.Proofs.Grammar.Progress
import QueryDoc.Proofs.Grammar.Calls
import QueryDoc.Proofs.Grammar.Termination
