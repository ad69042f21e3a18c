import Mixfix.Parse.Env
import Mixfix.Token.Basic

namespace Mixfix

/-- The state beside the environment: alternatives set aside, the latest first, and counters. -/
structure Frontier (ι : Type) where
  branches : List (Branch ι) := []
  stats : Stats := {}

/-- Computations of the search: they may break an invariant, and they update the frontier. -/
abbrev SearchM (ι : Type) := ExceptT Fault (StateM (Frontier ι))

/-- What a step leads to: a next environment, a finished tree, or a failure of this line. -/
inductive Step (ι : Type) where
  | next (env : Env ι)
  | accept (tree : Tree ι)
  | fail (fault : SyntaxFault)

namespace Env

variable {ι : Type}

/-- Completes the innermost pending operator: its arguments are the last operands, in order. -/
def reduce (env : Env ι) : SearchM ι (Env ι) := do
  let top :: below := env.pending | throw .stackUnderflow
  let n := top.entry.arity
  if env.operands.length < n then throw .stackUnderflow
  let node := Tree.node top.entry.operator.id (env.operands.take n).reverse
  modify fun f => { f with stats.reductions := f.stats.reductions + 1 }
  return { env with operands := node :: env.operands.drop n, pending := below }

def reduceTimes : Nat → Env ι → SearchM ι (Env ι)
  | 0, env => pure env
  | n + 1, env => do reduceTimes n (← env.reduce)

/-- Completes the pending operators that an operator of level `priority` may not enter. -/
def unwind (env : Env ι) (priority : Nat) : SearchM ι (Env ι) :=
  env.reduceTimes (env.pending.takeWhile (Pending.closesBefore priority)).length

/-- Sets the mode after the innermost operator moved on: a hole wants an operand, a sign that
sign; a complete operator with a trailing operand wants the operand, and any other is reduced. -/
def advance (env : Env ι) : SearchM ι (Env ι) := do
  let top :: below := env.pending | throw .stackUnderflow
  if top.next < top.entry.restEnd then
    match top.entry.operator.pattern[top.next]? with
    | some (.hole _) =>
      return { env with pending := { top with next := top.next + 1 } :: below, mode := .expectOperand }
    | _ => return { env with mode := .expectSign }
  else if top.entry.bound.isSome then
    return { env with mode := .expectOperand }
  else
    let env ← env.reduce
    return { env with mode := .afterOperand }

def consume (env : Env ι) : SearchM ι (Env ι) := do
  let top :: below := env.pending | throw .stackUnderflow
  advance { env with pending := { top with next := top.next + 1 } :: below, cursor := env.cursor + 1 }

def enter (env : Env ι) (e : Entry ι) : SearchM ι (Env ι) := do
  let env ← if env.mode == .afterOperand then env.unwind e.priority else pure env
  advance { env with pending := ⟨e, e.lead + 1⟩ :: env.pending, cursor := env.cursor + 1 }

/-- Follows the first operator of a group and sets the others aside. -/
def fork (env : Env ι) : List (Entry ι) → SearchM ι (Env ι)
  | [] => throw .stackUnderflow
  | first :: rest => do
    modify fun f =>
      { f with branches := rest.map (⟨env, ·⟩) ++ f.branches
               stats.forks := f.stats.forks + rest.length }
    env.enter first

def required (env : Env ι) : SearchM ι String :=
  match env.pending.head? >>= Pending.slotSign with
  | some s => pure s
  | none => throw .stackUnderflow

def pushLiteral (env : Env ι) (lit : Literal) : Env ι :=
  { env with cursor := env.cursor + 1, operands := .leaf lit :: env.operands, mode := .afterOperand }

def finish (env : Env ι) : SearchM ι (Step ι) :=
  match env.mode with
  | .expectOperand => pure (.fail .expressionExpected)
  | .expectSign => do return .fail (.expectedSign (← env.required))
  | .afterOperand =>
    match obligation env.pending with
    | some (_, s) => pure (.fail (.expectedSign s))
    | none => do
      let env ← env.reduceTimes env.pending.length
      match env.operands with
      | [root] => return .accept root
      | other => throw (.danglingExpressions other.length)

def openWith (g : Groups ι) (env : Env ι) (sign : String) : SearchM ι (Step ι) :=
  match g.opening? sign with
  | some group => .next <$> env.fork group
  | none =>
    if (g.continuing? sign).isSome || (obligation env.pending).map (·.2) == some sign then
      pure (.fail (.needsOperandBefore sign))
    else pure (.fail (.unexpectedSign sign))

def continueWithOperators (g : Groups ι) (env : Env ι) (sign : String) : SearchM ι (Step ι) :=
  match g.continuing? sign with
  | some group => .next <$> env.fork group
  | none =>
    if (g.opening? sign).isSome then pure (.fail .adjacentExpressions)
    else pure (.fail (.unexpectedSign sign))

def continueWith (g : Groups ι) (env : Env ι) (sign : String) : SearchM ι (Step ι) :=
  match obligation env.pending with
  | some (depth, s) =>
    if s == sign then do
      let env ← env.reduceTimes depth
      return .next (← env.consume)
    else continueWithOperators g env sign
  | none => continueWithOperators g env sign

/-- What the environment does with the token at its cursor, or with the end of the input. -/
def step (g : Groups ι) (tokens : Array Token) (env : Env ι) : SearchM ι (Step ι) :=
  match tokens[env.cursor]? with
  | none => env.finish
  | some token =>
    match env.mode, token.value with
    | .expectOperand, .sign s => openWith g env s
    | .expectOperand, .number x => pure (.next (env.pushLiteral (.number x)))
    | .expectOperand, .ident n => pure (.next (env.pushLiteral (.ident n)))
    | .afterOperand, .sign s => continueWith g env s
    | .afterOperand, _ => pure (.fail .adjacentExpressions)
    | .expectSign, value => do
      let req ← env.required
      match value with
      | .sign s => if s == req then .next <$> env.consume else pure (.fail (.expectedSign req))
      | _ => pure (.fail (.expectedSign req))

end Env

end Mixfix
