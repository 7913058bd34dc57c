import BlockCompiler.Expr
import BlockCompiler.FunctionTable
import BlockCompiler.LambdaTable
import BlockCompiler.Scope

/-!
# Types of expressions

`Expr.infer` finds the type of an expression without compiling it.  A name is an argument first and a
known function second.  The type of a call is the result of its callee, whatever the arguments are:
those are checked when the call is compiled.  The body of an anonymous function sees no arguments.
-/

namespace BlockCompiler

/-- What types depend on. -/
structure TypingContext where
  functions : FunctionTable
  /-- The arguments that names may refer to. -/
  scope : Scope
  lambdas : LambdaTable
  maxDepth : Nat

/-- The type of an expression, and the function behind it where the expression names one. -/
structure Typing where
  ty : Ty
  signature? : Option Signature
deriving DecidableEq, Repr, Inhabited

/-- A type without a function behind it. -/
def Typing.ofTy (ty : Ty) : Typing := ⟨ty, none⟩

/-- The type of a literal. -/
def Literal.ty : Literal → Ty
  | int _ => .int
  | real _ => .real
  | bool _ => .bool
  | string _ => .string
  | unit => .unit

/-- The type of a pair of values of these types: they must agree, and pairs of anything but integers
count as pairs of reals. -/
def Ty.pairOf (first second : Ty) (span : Span) : Except CompileError Ty :=
  if first = second then
    match first with
    | .int => .ok .intPair
    | _ => .ok .realPair
  else .error ⟨.pairTypeMismatch first.render second.render, span⟩

/-- The type of a name among the arguments of a scope and the known functions. -/
def inferName (functions : FunctionTable) (scope : Scope) (name : Ident) :
    Except CompileError Typing :=
  match scope.get? name.name with
  | some v => .ok (.ofTy v.ty)
  | none =>
    match functions.get? name.name with
    | some s => .ok ⟨s.toTy, some s⟩
    | none => .error ⟨.unknownIdentifier name.name, name.span⟩

/-- The function that a name in the source stands for. -/
def resolve (functions : FunctionTable) (callee : Ident) : Except CompileError Signature :=
  match functions.get? callee.name with
  | some s => .ok s
  | none => .error ⟨.unknownIdentifier callee.name, callee.span⟩

namespace Expr

/-- The type of an expression that lies `depth` levels deep and sees the arguments of a scope. -/
def inferAt (ctx : TypingContext) (scope : Scope) (depth : Nat) : Expr → Except CompileError Typing
  | literal value _ span => do
    ensureDepth ctx.maxDepth depth span
    .ok (.ofTy value.ty)
  | pair first second _ span => do
    ensureDepth ctx.maxDepth depth span
    let a ← inferAt ctx scope (depth + 1) first
    let b ← inferAt ctx scope (depth + 1) second
    let ty ← Ty.pairOf a.ty b.ty span
    .ok (.ofTy ty)
  | var name => do
    ensureDepth ctx.maxDepth depth name.span
    inferName ctx.functions scope name
  | placeholder span => do
    ensureDepth ctx.maxDepth depth span
    .ok (.ofTy .real)
  | lambda body text span => do
    ensureDepth ctx.maxDepth depth span
    let b ← inferAt ctx .empty (depth + 1) body
    .ok ⟨.fn [.real] b.ty, ctx.lambdas.get? text⟩
  | call callee _ _ span => do
    ensureDepth ctx.maxDepth depth span
    let s ← resolve ctx.functions callee
    .ok (.ofTy s.result)
termination_by structural e => e

/-- The type of an expression that sees the arguments of the context. -/
def infer (ctx : TypingContext) (e : Expr) : Except CompileError Typing := e.inferAt ctx ctx.scope 0

end Expr

end BlockCompiler
