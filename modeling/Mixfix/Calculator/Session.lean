import Mixfix.Calculator.Standard
import Mixfix.Calculator.Error
import Mixfix.Grammar.Definitions
import Mixfix.Parse.Shared
import Mixfix.Token.Lexer
import Mixfix.Syntax.Render

namespace Mixfix.Calculator

def tableOfDefinitions (text : String) : Except Error (Table Op) := do
  let levels ← (Level.readDefinitions text).mapError Error.definitions
  (Table.ofLevels levels).mapError Error.table

/-- A parser with the counters of its last parse. -/
structure Session where
  parser : Parser Op
  stats : Stats := {}

namespace Session

def ofTable (t : Table Op) : Session :=
  { parser := Parser.ofTable t }

def table (s : Session) : Table Op :=
  s.parser.table

def tokens (s : Session) (source : String) : Except Error (List Token) :=
  (Token.scan s.table.signs source).mapError (Error.parse ∘ .rejected)

/-- Parses a source text, giving the tree and the session with the counters of this parse. -/
def parse (s : Session) (source : String) : Except Error (Tree Op) × Session :=
  match s.tokens source with
  | .error e => (.error e, s)
  | .ok ts =>
    let (result, stats) := s.parser.parse ts.toArray
    (result.mapError .parse, { s with stats })

def render (s : Session) (t : Tree Op) : Except (RenderError Op) String :=
  t.render s.table

end Session

def parseStandard (source : String) : Except Error (Tree Op) :=
  ((Session.ofTable standard).parse source).1

end Mixfix.Calculator
