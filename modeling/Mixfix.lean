import Mixfix.Decimal.Shortest
import Mixfix.Decimal.Notation
import Mixfix.Decimal.Read
import Mixfix.Text.Ranges
import Mixfix.Text.Printable
import Mixfix.Text.Blank
import Mixfix.Text.Lines
import Mixfix.Text.Quoted
import Mixfix.Text.Jaro
import Mixfix.Grammar.Operator
import Mixfix.Grammar.Table
import Mixfix.Grammar.Definitions
import Mixfix.Span
import Mixfix.SyntaxError
import Mixfix.Token.Basic
import Mixfix.Token.Numeral
import Mixfix.Token.Lexer
import Mixfix.Grammar.Groups
import Mixfix.Syntax.Tree
import Mixfix.Syntax.Render
import Mixfix.Parse.Env
import Mixfix.Parse.Step
import Mixfix.Parse.Search
import Mixfix.Parse.Shared
import Mixfix.Stack.Arena
import Mixfix.Stack.Script
import Mixfix.Calculator.Op
import Mixfix.Calculator.Standard
import Mixfix.Calculator.Error
import Mixfix.Calculator.Session
import Mixfix.Calculator.Cli
import Mixfix.Calculator.Usage
import Mixfix.Calculator.Arguments
import Mixfix.Main
import Mixfix.Stack.Lemmas
import Mixfix.Proofs.Stack.Views
import Mixfix.Proofs.Parse.Sharing
import Mixfix.Proofs.Grammar.Validity
import Mixfix.Proofs.Grammar.Derivation
import Mixfix.Proofs.Grammar.Grouping
import Mixfix.Proofs.Syntax.Yield
import Mixfix.Proofs.Parse.Invariant
import Mixfix.Proofs.Parse.Safety
import Mixfix.Proofs.Parse.RoundTrip
import Mixfix.Proofs.Calculator.Standard
import Mixfix.Proofs.Decimal.Reading
import Mixfix.Proofs.Decimal.Rounding
import Mixfix.Proofs.Syntax.Placement
import Mixfix.Proofs.Parse.Complete
import Mixfix.Proofs.Parse.DepthFirst
import Mixfix.Proofs.Parse.Frames
import Mixfix.Proofs.Parse.Furthest
import Mixfix.Proofs.Syntax.Climbing
import Mixfix.Proofs.Parse.Precedence
import Mixfix.Proofs.Parse.Termination
import Mixfix.Proofs.Token.Spans
import Mixfix.Proofs.Decimal.Printing
import Mixfix.Proofs.Token.Cutting
import Mixfix.Proofs.Token.Rescan
import Mixfix.Proofs.Token.Classes
import Mixfix.Proofs.Token.SignOrder
import Mixfix.Proofs.Parse.Reading
import Mixfix.Proofs.Grammar.Checks
import Mixfix.Proofs.Grammar.Text
import Mixfix.Proofs.Parse.Counters
import Mixfix.Proofs.Parse.Statistics
import Mixfix.Proofs.Decimal.Source
import Mixfix.Proofs.Token.Tiling
import Mixfix.Proofs.Calculator.Rendering
