import ScriptLang.CommandLine
import ScriptLang.Decimal.Binary
import ScriptLang.Decimal.Layout
import ScriptLang.Decimal.Read
import ScriptLang.Decimal.Shortest
import ScriptLang.Diagnostic
import ScriptLang.Frames.Basic
import ScriptLang.Frames.Text
import ScriptLang.Grammar.Cursor
import ScriptLang.Grammar.Expression
import ScriptLang.Grammar.Program
import ScriptLang.Grammar.Statement
import ScriptLang.Machine.Basic
import ScriptLang.Main
import ScriptLang.Program.References
import ScriptLang.Program.Text
import ScriptLang.Program.Tree
import ScriptLang.RunError
import ScriptLang.Scoping.Bindings
import ScriptLang.Scoping.Resolve
import ScriptLang.Scoping.Scope
import ScriptLang.Semantics.Evaluate
import ScriptLang.Semantics.Objects
import ScriptLang.Semantics.Operators
import ScriptLang.Session
import ScriptLang.Slots
import ScriptLang.Sorting
import ScriptLang.Source.Segment
import ScriptLang.Source.Tokens
import ScriptLang.Text.Quoted
import ScriptLang.Token
import ScriptLang.Transcript
import ScriptLang.Value.Basic
import ScriptLang.Value.Text
import ScriptLang.Proofs.Evaluation.Endings
import ScriptLang.Proofs.Evaluation.Moments
import ScriptLang.Proofs.Frames.Store
import ScriptLang.Proofs.Evaluation.Steps
import ScriptLang.Proofs.Evaluation.Growth
import ScriptLang.Proofs.Evaluation.Control
import ScriptLang.Proofs.Evaluation.Runs
import ScriptLang.Proofs.Evaluation.Fuel
import ScriptLang.Proofs.Program.WellFormed
import ScriptLang.Proofs.Scoping.Places
import ScriptLang.Proofs.Scoping.Classes
import ScriptLang.Proofs.Scoping.References
import ScriptLang.Proofs.Agreement.World
import ScriptLang.Proofs.Agreement.Fits
import ScriptLang.Proofs.Agreement.Preservation
import ScriptLang.Proofs.Grammar.Reading
import ScriptLang.Proofs.Grammar.Trees
import ScriptLang.Proofs.Agreement.Running
import ScriptLang.Proofs.Sessions.Launches
import ScriptLang.Proofs.Sessions.History
import ScriptLang.Proofs.Sessions.Lookups
import ScriptLang.Proofs.Agreement.Jumps
import ScriptLang.Proofs.Sessions.Jumps
import ScriptLang.Proofs.Evaluation.Rebinding
import ScriptLang.Proofs.Scoping.Joining
import ScriptLang.Proofs.Sessions.Joining
import ScriptLang.Proofs.Grammar.Rules
import ScriptLang.Proofs.Grammar.Words
import ScriptLang.Proofs.Grammar.Grammatical
import ScriptLang.Proofs.Source.Spelling
import ScriptLang.Proofs.Grammar.Soundness
import ScriptLang.Proofs.Grammar.Acceptance
import ScriptLang.Proofs.Grammar.Following
import ScriptLang.Proofs.Program.Erasure
import ScriptLang.Proofs.Grammar.Yielding
import ScriptLang.Proofs.Grammar.Completeness.Expressions
import ScriptLang.Proofs.Grammar.Completeness.Statements
import ScriptLang.Proofs.Grammar.Completeness
import ScriptLang.Proofs.Grammar.Progress
import ScriptLang.Proofs.Relabelling.Machines
import ScriptLang.Proofs.Relabelling.Evaluation
import ScriptLang.Proofs.Grammar.Renumbering
import ScriptLang.Proofs.Relabelling.Scopes
import ScriptLang.Proofs.Relabelling.Runs
import ScriptLang.Proofs.Sessions.Renumbering
import ScriptLang.Proofs.Sessions.Rejection
import ScriptLang.Proofs.Evaluation.Order
import ScriptLang.Proofs.Evaluation.Depth
import ScriptLang.Proofs.Realms.Closed
import ScriptLang.Proofs.Realms.Preservation
import ScriptLang.Proofs.Realms.Runs
import ScriptLang.Proofs.Sessions.Limits
import ScriptLang.Proofs.Sessions.Tree
import ScriptLang.Proofs.Evaluation.Spending
import ScriptLang.Proofs.Program.Loops
import ScriptLang.Proofs.Realms.Loops
import ScriptLang.Proofs.Scoping.Containment
import ScriptLang.Proofs.Sessions.Attempts
import ScriptLang.Proofs.Sessions.Loops
import ScriptLang.Proofs.Sessions.Numbers
import ScriptLang.Proofs.Scoping.Locals
import ScriptLang.Proofs.Relabelling.Places
import ScriptLang.Proofs.Scoping.Uniqueness
import ScriptLang.Proofs.Sessions.Renaming
import ScriptLang.Proofs.Sessions.Past
import ScriptLang.Proofs.Sessions.Receivers
import ScriptLang.Proofs.Source.Lexical
import ScriptLang.Proofs.Source.Scanning
import ScriptLang.Proofs.Source.Rendering
import ScriptLang.Proofs.Program.Operators
import ScriptLang.Proofs.Grammar.Operators
import ScriptLang.Proofs.Sessions.Dispatch
import ScriptLang.Proofs.Grammar.Wants
import ScriptLang.Proofs.Grammar.Extension
import ScriptLang.Proofs.Grammar.Alike
import ScriptLang.Proofs.Grammar.Interactive
import ScriptLang.Proofs.Source.Lines
import ScriptLang.Proofs.Program.Lines
import ScriptLang.Proofs.Grammar.Lines
import ScriptLang.Proofs.Scoping.Lines
import ScriptLang.Proofs.Evaluation.Blame
import ScriptLang.Proofs.Sessions.Lines
import ScriptLang.Proofs.Scoping.Initializers
import ScriptLang.Proofs.Sessions.Initializers
import ScriptLang.Proofs.Realms.Referring
import ScriptLang.Proofs.Scoping.KnownGlobals
import ScriptLang.Proofs.Sessions.Readiness
import ScriptLang.Proofs.Sessions.KnownGlobals
import ScriptLang.Proofs.Sorting
import ScriptLang.Proofs.Scoping.Events
import ScriptLang.Proofs.Scoping.Contexts
import ScriptLang.Proofs.Scoping.MoreGlobals
import ScriptLang.Proofs.Scoping.EventNames
import ScriptLang.Proofs.Scoping.Positions
import ScriptLang.Proofs.Scoping.Tracking
import ScriptLang.Proofs.Scoping.EventNumbers
import ScriptLang.Proofs.Scoping.Declarations
import ScriptLang.Proofs.Scoping.OrderNumbers
import ScriptLang.Proofs.Grammar.ForLoops
import ScriptLang.Proofs.Evaluation.ForLoops
import ScriptLang.Proofs.Scoping.ForLoops
import ScriptLang.Proofs.Agreement.ForLoops
import ScriptLang.Proofs.Sessions.ForLoops
import ScriptLang.Proofs.Grammar.Replacement
import ScriptLang.Proofs.Grammar.Rounds
import ScriptLang.Proofs.Source.Joining
import ScriptLang.Proofs.Grammar.Prefixes
import ScriptLang.Proofs.Grammar.Order
import ScriptLang.Proofs.Frames.Operations
import ScriptLang.Proofs.Sessions.Calls
import ScriptLang.Proofs.Realms.Holding
import ScriptLang.Proofs.Evaluation.Course
import ScriptLang.Proofs.Realms.Fields
import ScriptLang.Proofs.Realms.Settings
import ScriptLang.Proofs.Realms.Origins
import ScriptLang.Proofs.Realms.Instances
import ScriptLang.Proofs.Sessions.Origins
import ScriptLang.Proofs.Sessions.Instances
import ScriptLang.Proofs.Sessions.Construction
import ScriptLang.Proofs.Sessions.Properties
import ScriptLang.Proofs.Decimal.Rounding
import ScriptLang.Proofs.Decimal.Floats
import ScriptLang.Proofs.Decimal.Shortest
import ScriptLang.Proofs.Decimal.Plain
import ScriptLang.Proofs.Program.Vocabulary
import ScriptLang.Proofs.Program.Outlines
import ScriptLang.Proofs.Grammar.Vocabulary
import ScriptLang.Proofs.Grammar.Readability
