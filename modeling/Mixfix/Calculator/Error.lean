import Mixfix.Calculator.Op
import Mixfix.Grammar.Table
import Mixfix.Grammar.Definitions
import Mixfix.Parse.Env

namespace Mixfix.Calculator

/-- Why a file could not be read. -/
inductive IoError where
  | notFound
  | notDirectory
  | isDirectory
  | other (text : String)
  deriving Repr, DecidableEq

def IoError.message : IoError → String
  | .notFound => "No such file or directory (os error 2)"
  | .notDirectory => "Not a directory (os error 20)"
  | .isDirectory => "Is a directory (os error 21)"
  | .other text => text

/-- An error of the calculator. -/
inductive Error where
  | parse (error : ParseError)
  | table (error : TableError Op)
  | definitions (error : DefinitionError)
  | io (error : IoError)
  deriving Repr

namespace Error

def message : Error → String
  | .parse e => e.message
  | .table e => "invalid operator table: " ++ e.message
  | .definitions e => "invalid table definitions: " ++ e.message
  | .io e => "io error: " ++ e.message

def causes : Error → List String
  | .parse (.rejected e) => [e.message]
  | .parse (.internal f) => ["internal error: " ++ f.message, f.message]
  | .table e => ["invalid operator table: " ++ e.message, e.message]
  | .definitions e => ["invalid table definitions: " ++ e.message, e.message]
  | .io e => ["io error: " ++ e.message, e.message]

def syntaxError? : Error → Option SyntaxError
  | .parse (.rejected e) => some e
  | _ => none

end Error

end Mixfix.Calculator
