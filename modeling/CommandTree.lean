import CommandTree.Ambiguity
import CommandTree.ArgumentType
import CommandTree.Binary
import CommandTree.Binary.Shortest
import CommandTree.Blueprint
import CommandTree.Builder
import CommandTree.Completion
import CommandTree.Context
import CommandTree.Decimal
import CommandTree.Draft
import CommandTree.Error
import CommandTree.Execution
import CommandTree.Grammar
import CommandTree.Number
import CommandTree.Numeral
import CommandTree.Place
import CommandTree.Proofs.Abstention
import CommandTree.Proofs.Acceptance
import CommandTree.Proofs.Admission
import CommandTree.Proofs.Alternatives
import CommandTree.Proofs.Ambiguities
import CommandTree.Proofs.Bindings
import CommandTree.Proofs.Bounds
import CommandTree.Proofs.Branching
import CommandTree.Proofs.Calls
import CommandTree.Proofs.Catalogue
import CommandTree.Proofs.CursorCompletion
import CommandTree.Proofs.CursorPlace
import CommandTree.Proofs.Derivation
import CommandTree.Proofs.Descent
import CommandTree.Proofs.Drafting
import CommandTree.Proofs.Effects
import CommandTree.Proofs.Exploration
import CommandTree.Proofs.Failures
import CommandTree.Proofs.Gathering
import CommandTree.Proofs.Identity
import CommandTree.Proofs.Indexing
import CommandTree.Proofs.Layout
import CommandTree.Proofs.Leftovers
import CommandTree.Proofs.Lookahead
import CommandTree.Proofs.Matching
import CommandTree.Proofs.Merging
import CommandTree.Proofs.Overlaps
import CommandTree.Proofs.Paths
import CommandTree.Proofs.Pointers
import CommandTree.Proofs.Priority
import CommandTree.Proofs.Quotation
import CommandTree.Proofs.QuotedLine
import CommandTree.Proofs.ReadBack
import CommandTree.Proofs.Redirects
import CommandTree.Proofs.Refusals
import CommandTree.Proofs.Registration
import CommandTree.Proofs.RegistrationOrder
import CommandTree.Proofs.Relocation
import CommandTree.Proofs.Removal
import CommandTree.Proofs.Renaming
import CommandTree.Proofs.Reordering
import CommandTree.Proofs.Selection
import CommandTree.Proofs.Settling
import CommandTree.Proofs.Shape
import CommandTree.Proofs.Siblings
import CommandTree.Proofs.SplitRegistration
import CommandTree.Proofs.Spoiling
import CommandTree.Proofs.TextOrder
import CommandTree.Proofs.Trail
import CommandTree.Proofs.Translation
import CommandTree.Proofs.Transparency
import CommandTree.Proofs.Traversal
import CommandTree.Proofs.Uniformity
import CommandTree.Proofs.UnknownCommand
import CommandTree.Proofs.UsageLines
import CommandTree.Proofs.Visibility
import CommandTree.Proofs.WholeNumbers
import CommandTree.Proofs.Widening
import CommandTree.Proofs.WordCompletion
import CommandTree.Proofs.Words
import CommandTree.Proofs.Worklist
import CommandTree.Quoting
import CommandTree.Reader
import CommandTree.Scripted.ArgumentTypes
import CommandTree.Scripted.Form
import CommandTree.Scripted.Vocabulary
import CommandTree.Span
import CommandTree.Suggestion
import CommandTree.Text
import CommandTree.Tree
import CommandTree.Tree.Address
import CommandTree.Tree.Assembly
import CommandTree.Tree.Index
import CommandTree.Tree.Worklist
import CommandTree.Usage
import CommandTree.Value
import CommandTree.Workbench
