import Scriptlet.Token.Basic
import Scriptlet.Token.Scan
import Scriptlet.Tree.Operator
import Scriptlet.Tree.Basic
import Scriptlet.Parse.Error
import Scriptlet.Parse.Grammar
import Scriptlet.Parse.Expression
import Scriptlet.Parse.Program
import Scriptlet.Number.Decimal
import Scriptlet.Number.Numeral
import Scriptlet.Number.Basic
import Scriptlet.Value.Basic
import Scriptlet.Eval.Error
import Scriptlet.Eval.Operation
import Scriptlet.Scope
import Scriptlet.Eval.Basic
import Scriptlet.Session
import Scriptlet.Repl
import Scriptlet.CommandLine.Arguments
import Scriptlet.CommandLine.Run
import Scriptlet.Main
import Scriptlet.Proofs.Token.RawText
import Scriptlet.Proofs.Token.Munch
import Scriptlet.Proofs.Token.RoundTrip
import Scriptlet.Proofs.Token.LineEnd
import Scriptlet.Proofs.Token.Quotes
import Scriptlet.Proofs.Token.Lines
import Scriptlet.Proofs.Number.Reading
import Scriptlet.Proofs.Number.Literals
import Scriptlet.Proofs.Number.Rounding
import Scriptlet.Proofs.Number.Doubles
import Scriptlet.Proofs.Number.Display
import Scriptlet.Proofs.Number.Grammar
import Scriptlet.Proofs.Value.Equality
import Scriptlet.Proofs.Tree.Parts
import Scriptlet.Proofs.Parse.Cursor
import Scriptlet.Proofs.Parse.Equations
import Scriptlet.Proofs.Parse.Lines
import Scriptlet.Proofs.Parse.Levels
import Scriptlet.Proofs.Parse.Statements
import Scriptlet.Proofs.Parse.Recognition
import Scriptlet.Proofs.Parse.FirstError
import Scriptlet.Proofs.Parse.Locality
import Scriptlet.Proofs.Parse.Faults
import Scriptlet.Proofs.Parse.Termination
import Scriptlet.Proofs.Parse.Joining
import Scriptlet.Proofs.Parse.Printing
import Scriptlet.Proofs.Parse.Numerals
import Scriptlet.Proofs.Scope.Bindings
import Scriptlet.Proofs.Eval.Fragment
import Scriptlet.Proofs.Eval.Rules
import Scriptlet.Proofs.Eval.Evolution
import Scriptlet.Proofs.Eval.Pointwise
import Scriptlet.Proofs.Eval.Visibility
import Scriptlet.Proofs.Eval.Assignment
import Scriptlet.Proofs.Eval.Chains
import Scriptlet.Proofs.Eval.Sequences
import Scriptlet.Proofs.Eval.Persistence
import Scriptlet.Proofs.Eval.Unmentioned
import Scriptlet.Proofs.Eval.Returns
import Scriptlet.Proofs.Eval.Termination
import Scriptlet.Proofs.Eval.Depth
import Scriptlet.Proofs.Session.Concatenation
import Scriptlet.Proofs.Session.Layout
import Scriptlet.Proofs.Session.Literals
import Scriptlet.Proofs.Session.WrittenValues
import Scriptlet.Proofs.Session.Comparison
import Scriptlet.Proofs.Repl.Transcript
