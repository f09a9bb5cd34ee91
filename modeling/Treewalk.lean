import Treewalk.Inspection
import Treewalk.Main
import Treewalk.Proofs.Session.Binding
import Treewalk.Proofs.Session.Rejection
import Treewalk.Proofs.Syntax.Acceptance
import Treewalk.Proofs.Token.Pieces
import Treewalk.Proofs.Syntax.Joining
import Treewalk.Proofs.Token.Joining
import Treewalk.Proofs.Relocation.Provenance
import Treewalk.Proofs.Run.Returning
import Treewalk.Proofs.Session.Joining
import Treewalk.Proofs.Scope.Classes
import Treewalk.Proofs.Session.Receivers
import Treewalk.Proofs.Syntax.Surrounded
import Treewalk.Proofs.Syntax.Recovery
import Treewalk.Proofs.Scope.Rules
import Treewalk.Proofs.Scope.Lawfulness
import Treewalk.Proofs.Syntax.Texts
import Treewalk.Proofs.Syntax.Expecting
import Treewalk.Proofs.Syntax.Prediction.Expression
import Treewalk.Proofs.Syntax.Prediction.Program
import Treewalk.Proofs.Syntax.FirstFault
import Treewalk.Proofs.Run.Sequence
import Treewalk.Proofs.Run.Restoration
import Treewalk.Proofs.Run.Stock
import Treewalk.Proofs.Run.Stocking
import Treewalk.Proofs.Session.Restoration
import Treewalk.Proofs.Run.Activation
import Treewalk.Proofs.Run.Calls
import Treewalk.Proofs.Session.Returning
import Treewalk.Proofs.Scope.Uniqueness
import Treewalk.Proofs.Run.Chaining
import Treewalk.Proofs.Session.Chaining
import Treewalk.Proofs.Renaming.Scoping
import Treewalk.Proofs.Renaming.Machine
import Treewalk.Proofs.Renaming.Operations
import Treewalk.Proofs.Renaming.Running
import Treewalk.Proofs.Session.Renaming
import Treewalk.Proofs.Session.Reporting
import Treewalk.Proofs.Scope.Balance
import Treewalk.Proofs.Session.Independence
import Treewalk.Proofs.Run.Watching
import Treewalk.Proofs.Run.Course
import Treewalk.Proofs.Run.Unfolding
import Treewalk.Proofs.Run.Confinement
import Treewalk.Proofs.Session.Confinement
import Treewalk.Proofs.Text.Utf8
import Treewalk.Proofs.Text.Lines
import Treewalk.Proofs.Session.Input
import Treewalk.Proofs.CommandLine.Conversation
import Treewalk.Proofs.Run.Arguments
import Treewalk.Proofs.Run.Declaring
import Treewalk.Proofs.Run.Founding
import Treewalk.Proofs.Session.Arguments
import Treewalk.Proofs.Run.Founded
import Treewalk.Proofs.Session.Lookup
import Treewalk.Proofs.Run.Construction
import Treewalk.Proofs.Session.Construction
import Treewalk.Proofs.Trimming.Trees
import Treewalk.Proofs.Trimming.Scoping
import Treewalk.Proofs.Trimming.Machine
import Treewalk.Proofs.Trimming.Operations
import Treewalk.Proofs.Trimming.Running
import Treewalk.Proofs.Trimming.Loops
import Treewalk.Proofs.Trimming.Clauses
import Treewalk.Proofs.Trimming.Start
import Treewalk.Proofs.Session.Loops
import Treewalk.Proofs.Frame.Nearest
import Treewalk.Proofs.Run.Commitment
import Treewalk.Proofs.Syntax.Positions.Agreement
import Treewalk.Proofs.Syntax.Positions.Expression
import Treewalk.Proofs.Syntax.Positions.Program
import Treewalk.Proofs.Run.Obtaining
import Treewalk.Proofs.Run.Properties
import Treewalk.Proofs.Run.Receiving
import Treewalk.Proofs.Session.Properties
import Treewalk.Proofs.Token.Positions.Octets
import Treewalk.Proofs.Token.Positions.Comments
import Treewalk.Proofs.Token.Positions.Pieces
import Treewalk.Proofs.Token.Positions.Scanning
import Treewalk.Proofs.Token.Spacing
import Treewalk.Proofs.CommandLine.Delivery
import Treewalk.Proofs.Scope.Distances
import Treewalk.Proofs.Session.Distances
import Treewalk.Proofs.Decimal.Rounding
import Treewalk.Proofs.Decimal.Layouts
import Treewalk.Proofs.Token.Numbers
import Treewalk.Proofs.Syntax.Drafts.Trees
import Treewalk.Proofs.Syntax.Drafts.Drafter
import Treewalk.Proofs.Syntax.Drafts.Drawing
import Treewalk.Proofs.Syntax.Drafts.Trails
import Treewalk.Proofs.Syntax.Drafts.Agreement
import Treewalk.Proofs.Syntax.Drafts.Expression
import Treewalk.Proofs.Syntax.Drafts.Program
import Treewalk.Proofs.Syntax.Drafts.Shape
