import Mixfix.Parse.Step

namespace Mixfix

/-- A parser for a table: the table and its grouping. -/
structure Parser (ι : Type) where
  table : Table ι
  groups : Groups ι

namespace Parser

variable {ι : Type}

def ofTable (t : Table ι) : Parser ι :=
  ⟨t, Groups.ofTable t⟩

def failureAt (tokens : Array Token) (env : Env ι) (fault : SyntaxFault) : SyntaxError :=
  ⟨fault, env.cursor, tokens[env.cursor]?.map (·.span)⟩

def keepBest (best : Option SyntaxError) (e : SyntaxError) : SyntaxError :=
  match best with
  | some b => if e.prefers b then e else b
  | none => e

/-- Runs at most `fuel` steps from `env`, then the alternatives set aside. -/
def search (g : Groups ι) (tokens : Array Token) :
    Nat → Env ι → Option SyntaxError → SearchM ι (Except SyntaxError (Tree ι))
  | 0, env, best => pure (.error (keepBest best (failureAt tokens env .expressionExpected)))
  | fuel + 1, env, best => do
    match ← env.step g tokens with
    | .next e => search g tokens fuel e best
    | .accept t => pure (.ok t)
    | .fail f =>
      let best := keepBest best (failureAt tokens env f)
      match (← get).branches with
      | [] => pure (.error best)
      | b :: rest =>
        modify fun fr =>
          { fr with branches := rest, stats.backtracks := fr.stats.backtracks + 1 }
        let e ← b.env.enter b.entry
        search g tokens fuel e (some best)

def fuel (p : Parser ι) (tokens : Array Token) : Nat :=
  Nat.pow (p.table.entries.length + 1) tokens.size + 1

/-- Parses tokens into a tree, with the counters of the search, on lines that hold their stacks
as lists. -/
def parseLists (p : Parser ι) (tokens : Array Token) : Except ParseError (Tree ι) × Stats :=
  let start : Frontier ι := { stats := { tokens := tokens.size } }
  let (result, frontier) := (search p.groups tokens (p.fuel tokens) {} none).run.run start
  let result := match result with
    | .ok (.ok t) => .ok t
    | .ok (.error e) => .error (.rejected e)
    | .error f => .error (.internal f)
  (result, frontier.stats)

end Parser

end Mixfix
