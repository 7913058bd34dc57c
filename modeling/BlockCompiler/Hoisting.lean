import BlockCompiler.CodeGen.Expr

/-!
# Anonymous functions

Before the functions of a block are compiled, every anonymous function in it is compiled to a function
of its own, which takes one real argument named `_`.  Anonymous functions with one source text become
one function, and all that consist of the bare placeholder become one as well.

The walk goes from the inside out, so a function finds those in its own body compiled already.  It
enters everything: bare statements, bodies, nested declarations, arguments and pairs.  The first
failure ends it; what was compiled before stays.
-/

namespace BlockCompiler

/-- The name of the function compiled for the bare placeholder. -/
def identityName : String := "_lambda_identity"

/-- The name of the anonymous function with a number. -/
def lambdaName (id : Nat) : String := "_lambda_" ++ toString id

/-- The parameter of every anonymous function. -/
def lambdaParam : Param := ⟨Expr.placeholderText, .real⟩

/-- The state of the walk. -/
structure Walk where
  session : Session
  /-- The functions compiled so far. -/
  table : LambdaTable := .empty
  /-- The function compiled for the bare placeholder. -/
  identity? : Option Signature := none

/-- A step of the walk. -/
abbrev Hoist (α : Type) : Type := Attempt Walk α

namespace Hoist

/-- A step of the session. -/
def session {α : Type} (x : Attempt Session α) : Hoist α
  | ⟨session, table, identity?⟩ =>
    match x session with
    | (r, session) => (r, ⟨session, table, identity?⟩)

/-- Records the function compiled for a text. -/
def insert (text : String) (s : Signature) : Hoist Unit :=
  .modify fun w => { w with table := w.table.insert text s }

/-- Records the function compiled for the bare placeholder. -/
def setIdentity (s : Signature) : Hoist Unit := .modify fun w => { w with identity? := some s }

/-- Compiles an anonymous function that was not met before. -/
def compileLambda (functions : FunctionTable) (options : Options) (body : Expr) (text : String)
    (span : Span) : Hoist Unit := do
  let id ← session Session.freshId
  let ctx : CodeContext := ⟨functions, options, (← Attempt.get).table⟩
  let typing ← .ofExcept (body.infer ⟨functions, .empty, ctx.lambdas, options.maxDepth⟩)
  let name := if body.isPlaceholder then identityName else lambdaName id
  let s : Signature := ⟨name, [lambdaParam], typing.ty, options.owner, false⟩
  session (Session.compileWith s .synthetic span 0
    (Gen.returnBody ctx body.text span (Gen.value ctx body)))
  session (Session.record (.lambdaHoisted text s))
  if body.isPlaceholder then setIdentity s
  insert text s

/-- Compiles an anonymous function, unless that was done under its text or for the bare placeholder
that it consists of. -/
def lambda (functions : FunctionTable) (options : Options) (body : Expr) (text : String)
    (span : Span) : Hoist Unit := do
  let w ← Attempt.get
  match w.table.get? text with
  | some s => session (Session.record (.lambdaReused s.name text))
  | none =>
    match if body.isPlaceholder then w.identity? else none with
    | some s => do
      session (Session.record (.lambdaReused s.name text))
      insert text s
    | none => compileLambda functions options body text span

mutual

/-- Compiles the anonymous functions in an expression that lies `depth` levels deep. -/
def expr (functions : FunctionTable) (options : Options) (depth : Nat) : Expr → Hoist Unit
  | .literal _ _ span => .ofExcept (ensureDepth options.maxDepth depth span)
  | .pair first second _ span => do
    .ofExcept (ensureDepth options.maxDepth depth span)
    expr functions options (depth + 1) first
    expr functions options (depth + 1) second
  | .var ident => .ofExcept (ensureDepth options.maxDepth depth ident.span)
  | .placeholder span => .ofExcept (ensureDepth options.maxDepth depth span)
  | .lambda body text span => do
    .ofExcept (ensureDepth options.maxDepth depth span)
    expr functions options (depth + 1) body
    lambda functions options body text span
  | .call _ args _ span => do
    .ofExcept (ensureDepth options.maxDepth depth span)
    exprs functions options (depth + 1) args
termination_by structural e => e

/-- Compiles the anonymous functions in a list of expressions that lie `depth` levels deep. -/
def exprs (functions : FunctionTable) (options : Options) (depth : Nat) : List Expr → Hoist Unit
  | [] => pure ()
  | e :: es => do
    expr functions options depth e
    exprs functions options depth es
termination_by structural es => es

end

mutual

/-- Compiles the anonymous functions in a statement that lies `depth` levels deep. -/
def stmt (functions : FunctionTable) (options : Options) (depth : Nat) : Stmt → Hoist Unit
  | .expr e => do
    .ofExcept (ensureDepth options.maxDepth depth e.span)
    expr functions options depth e
  | .ret e span => do
    .ofExcept (ensureDepth options.maxDepth depth span)
    expr functions options depth e
  | .decl _ body span => do
    .ofExcept (ensureDepth options.maxDepth depth span)
    stmts functions options (depth + 1) body
termination_by structural s => s

/-- Compiles the anonymous functions in a list of statements that lie `depth` levels deep. -/
def stmts (functions : FunctionTable) (options : Options) (depth : Nat) : List Stmt → Hoist Unit
  | [] => pure ()
  | s :: ss => do
    stmt functions options depth s
    stmts functions options depth ss
termination_by structural ss => ss

end

/-- Compiles the anonymous functions in the statements of a block.  The statements of a declared
function lie as deep as the declaration itself. -/
def topLevel (functions : FunctionTable) (options : Options) : List Stmt → Hoist Unit
  | [] => pure ()
  | .decl _ body _ :: ss => do
    stmts functions options 0 body
    topLevel functions options ss
  | s :: ss => do
    stmt functions options 0 s
    topLevel functions options ss

end Hoist

/-- Compiles all anonymous functions of a block and returns their table. -/
def Session.hoist (functions : FunctionTable) (options : Options) (block : Block) :
    Attempt Session LambdaTable := do
  let table ← fun session =>
    match Hoist.topLevel functions options block.stmts { session } with
    | (.ok (), w) => (.ok w.table, w.session)
    | (.error e, w) => (.error e, w.session)
  record (.hoisted table.size)
  pure table

end BlockCompiler
