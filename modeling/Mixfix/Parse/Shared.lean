import Mixfix.Parse.Search
import Mixfix.Stack.Arena
import Mixfix.Token.Lexer

namespace Mixfix

namespace Shared

open Stack

/-- A node of the tree arena: a literal, or an operator with the indices of its arguments. -/
inductive Node (ι : Type) where
  | literal (lit : Literal)
  | oper (id : ι) (args : List Nat)
  deriving Repr

/-- A line of the search: its cursor, its operand and pending stacks, and its mode. -/
structure Env where
  cursor : Nat := 0
  exprs : Handle := {}
  pending : Handle := {}
  mode : Mode := .expectOperand
  deriving Repr, DecidableEq

structure Branch (ι : Type) where
  env : Env
  entry : Entry ι
  deriving Repr

/-- Everything the lines of one search share: the nodes, the two stack arenas, the alternatives
set aside (the latest first) and the counters. -/
structure Store (ι : Type) where
  nodes : Array (Node ι) := #[]
  exprs : Arena Nat := {}
  pending : Arena (Pending ι) := {}
  branches : List (Branch ι) := []
  stats : Stats := {}

abbrev SearchM (ι : Type) := ExceptT Fault (StateM (Store ι))

inductive Step (ι : Type) where
  | next (env : Env)
  | accept (root : Nat)
  | fail (fault : SyntaxFault)

variable {ι : Type}

/-- The tree of node `i`, following argument links at most `depth` deep. -/
def buildTo (nodes : Array (Node ι)) : Nat → Nat → Option (Tree ι)
  | 0, _ => none
  | depth + 1, i =>
    match nodes[i]? with
    | some (.literal lit) => some (.leaf lit)
    | some (.oper id args) => (args.mapM (buildTo nodes depth)).map (.node id)
    | none => none

/-- The tree of node `i`. An operator node is made after its arguments, so each argument index is
below the node's own and the tree of node `i` is at most `i + 1` deep. -/
def build (nodes : Array (Node ι)) (i : Nat) : Option (Tree ι) :=
  buildTo nodes (i + 1) i

def popArgs (exprs : Arena Nat) : Nat → Handle → List Nat → Option (Handle × List Nat)
  | 0, h, args => some (h, args)
  | n + 1, h, args => do
    let (below, i) ← exprs.pop h
    popArgs exprs n below (i :: args)

namespace Env

def reduce (env : Env) : SearchM ι Env := do
  let s ← get
  let some (pending, top) := s.pending.pop env.pending | throw .stackUnderflow
  let some (exprs, args) := popArgs s.exprs top.entry.arity env.exprs [] | throw .stackUnderflow
  let (arena, h) := s.exprs.push exprs s.nodes.size
  set { s with
    nodes := s.nodes.push (.oper top.entry.operator.id args)
    exprs := arena
    stats.reductions := s.stats.reductions + 1 }
  return { env with exprs := h, pending }

def reduceTimes : Nat → Env → SearchM ι Env
  | 0, env => pure env
  | n + 1, env => do reduceTimes n (← env.reduce)

/-- Reduces while the top pending operator closes before an operator of level `priority`. Each
reduction pops one pending operator, so a stack of length `n` allows `n` turns at most. -/
def unwindFor (priority : Nat) : Nat → Env → SearchM ι Env
  | 0, env => pure env
  | n + 1, env => do
    match (← get).pending.peek env.pending with
    | some top =>
      if top.closesBefore priority then unwindFor priority n (← env.reduce) else pure env
    | none => pure env

def unwind (env : Env) (priority : Nat) : SearchM ι Env :=
  unwindFor priority env.pending.length env

def advance (env : Env) : SearchM ι Env := do
  let s ← get
  let some (below, top) := s.pending.pop env.pending | throw .stackUnderflow
  if top.next < top.entry.restEnd then
    match top.entry.operator.pattern[top.next]? with
    | some (.hole _) =>
      let (arena, h) := s.pending.push below { top with next := top.next + 1 }
      set { s with pending := arena }
      return { env with pending := h, mode := .expectOperand }
    | _ => return { env with mode := .expectSign }
  else if top.entry.bound.isSome then
    return { env with mode := .expectOperand }
  else
    let env ← env.reduce
    return { env with mode := .afterOperand }

def consume (env : Env) : SearchM ι Env := do
  let s ← get
  let some (below, top) := s.pending.pop env.pending | throw .stackUnderflow
  let (arena, h) := s.pending.push below { top with next := top.next + 1 }
  set { s with pending := arena }
  advance { env with pending := h, cursor := env.cursor + 1 }

def enter (env : Env) (e : Entry ι) : SearchM ι Env := do
  let env ← if env.mode == .afterOperand then env.unwind e.priority else pure env
  let s ← get
  let (arena, h) := s.pending.push env.pending ⟨e, e.lead + 1⟩
  set { s with pending := arena }
  advance { env with pending := h, cursor := env.cursor + 1 }

def fork (env : Env) : List (Entry ι) → SearchM ι Env
  | [] => throw .stackUnderflow
  | first :: rest => do
    modify fun s =>
      { s with branches := rest.map (⟨env, ·⟩) ++ s.branches
               stats.forks := s.stats.forks + rest.length }
    env.enter first

def required (env : Env) : SearchM ι String := do
  match (← get).pending.peek env.pending >>= Pending.slotSign with
  | some s => pure s
  | none => throw .stackUnderflow

/-- The innermost pending operator that waits for a sign, read down the pending stack. -/
def obligation (env : Env) : SearchM ι (Option (Nat × String)) := do
  return Mixfix.obligation ((← get).pending.toList env.pending)

def pushLiteral (env : Env) (lit : Literal) : SearchM ι Env := do
  let s ← get
  let (arena, h) := s.exprs.push env.exprs s.nodes.size
  set { s with nodes := s.nodes.push (.literal lit), exprs := arena }
  return { env with cursor := env.cursor + 1, exprs := h, mode := .afterOperand }

/-- The end of the input. Draining the pending stack reduces once per pending operator, since each
reduction pops one. -/
def finish (env : Env) : SearchM ι (Step ι) := do
  match env.mode with
  | .expectOperand => pure (.fail .expressionExpected)
  | .expectSign => return .fail (.expectedSign (← env.required))
  | .afterOperand =>
    match ← env.obligation with
    | some (_, s) => pure (.fail (.expectedSign s))
    | none =>
      let env ← env.reduceTimes env.pending.length
      match (← get).exprs.peek env.exprs with
      | some root =>
        if env.exprs.length == 1 then pure (.accept root)
        else throw (.danglingExpressions env.exprs.length)
      | none => throw (.danglingExpressions env.exprs.length)

def openWith (g : Groups ι) (env : Env) (sign : String) : SearchM ι (Step ι) := do
  match g.opening? sign with
  | some group => .next <$> env.fork group
  | none =>
    let ob ← env.obligation
    if (g.continuing? sign).isSome || ob.map (·.2) == some sign then
      pure (.fail (.needsOperandBefore sign))
    else pure (.fail (.unexpectedSign sign))

def continueWithOperators (g : Groups ι) (env : Env) (sign : String) : SearchM ι (Step ι) :=
  match g.continuing? sign with
  | some group => .next <$> env.fork group
  | none =>
    if (g.opening? sign).isSome then pure (.fail .adjacentExpressions)
    else pure (.fail (.unexpectedSign sign))

def continueWith (g : Groups ι) (env : Env) (sign : String) : SearchM ι (Step ι) := do
  match ← env.obligation with
  | some (depth, s) =>
    if s == sign then do
      let env ← env.reduceTimes depth
      return .next (← env.consume)
    else continueWithOperators g env sign
  | none => continueWithOperators g env sign

def step (g : Groups ι) (tokens : Array Token) (env : Env) : SearchM ι (Step ι) :=
  match tokens[env.cursor]? with
  | none => env.finish
  | some token =>
    match env.mode, token.value with
    | .expectOperand, .sign s => openWith g env s
    | .expectOperand, .number x => .next <$> env.pushLiteral (.number x)
    | .expectOperand, .ident n => .next <$> env.pushLiteral (.ident n)
    | .afterOperand, .sign s => continueWith g env s
    | .afterOperand, _ => pure (.fail .adjacentExpressions)
    | .expectSign, value => do
      let req ← env.required
      match value with
      | .sign s => if s == req then .next <$> env.consume else pure (.fail (.expectedSign req))
      | _ => pure (.fail (.expectedSign req))

end Env

def failureAt (tokens : Array Token) (env : Env) (fault : SyntaxFault) : SyntaxError :=
  ⟨fault, env.cursor, tokens[env.cursor]?.map (·.span)⟩

/-- Runs at most `fuel` steps from `env`, then the alternatives set aside; an accepting line gives
the index of its root node. -/
def search (g : Groups ι) (tokens : Array Token) :
    Nat → Env → Option SyntaxError → SearchM ι (Except SyntaxError Nat)
  | 0, env, best => pure (.error (Parser.keepBest best (failureAt tokens env .expressionExpected)))
  | fuel + 1, env, best => do
    match ← env.step g tokens with
    | .next e => search g tokens fuel e best
    | .accept root => pure (.ok root)
    | .fail f =>
      let best := Parser.keepBest best (failureAt tokens env f)
      match (← get).branches with
      | [] => pure (.error best)
      | b :: rest =>
        modify fun s =>
          { s with branches := rest, stats.backtracks := s.stats.backtracks + 1 }
        let e ← b.env.enter b.entry
        search g tokens fuel e (some best)

/-- A search's result read as a parse: the tree built from the accepted root node. An index the
arena lacks, which no search makes, counts as a broken invariant. -/
def outcome (nodes : Array (Node ι)) :
    Except Fault (Except SyntaxError Nat) → Except ParseError (Tree ι)
  | .ok (.ok root) =>
    match build nodes root with
    | some tree => .ok tree
    | none => .error (.internal .stackUnderflow)
  | .ok (.error e) => .error (.rejected e)
  | .error f => .error (.internal f)

end Shared

namespace Parser

variable {ι : Type}

/-- Parses tokens into a tree, with the counters of the search. The tree of the accepted line is
built from the node arena. -/
def parse (p : Parser ι) (tokens : Array Token) : Except ParseError (Tree ι) × Stats :=
  let start : Shared.Store ι := { stats := { tokens := tokens.size } }
  let (result, store) := (Shared.search p.groups tokens (p.fuel tokens) {} none).run.run start
  (Shared.outcome store.nodes result, store.stats)

/-- Scans a source text with the signs of a table and parses the tokens with the table. -/
def parseSource (t : Table ι) (source : String) : Except ParseError (Tree ι) :=
  match Token.scan t.signs source with
  | .error e => .error (.rejected e)
  | .ok ts => ((ofTable t).parse ts.toArray).1

end Parser

end Mixfix
