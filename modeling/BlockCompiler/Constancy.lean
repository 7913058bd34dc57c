import BlockCompiler.Error
import BlockCompiler.Expr
import BlockCompiler.FunctionTable

/-!
# Constant expressions

An expression is constant if it is a number or a truth value, or calls a pure function with constant
arguments.  Names, pairs, texts and anonymous functions are not constant, nor is anything that nests
too deeply.
-/

namespace BlockCompiler

namespace Expr

mutual

/-- Whether an expression that lies `depth` levels deep is constant. -/
def isConstantAt (functions : FunctionTable) (maxDepth depth : Nat) : Expr → Bool
  | literal (.int _) _ _ | literal (.real _) _ _ | literal (.bool _) _ _ => depth ≤ maxDepth
  | call callee args _ _ =>
    depth ≤ maxDepth && (functions.get? callee.name).any Signature.isPure &&
      areConstantAt functions maxDepth (depth + 1) args
  | _ => false
termination_by structural e => e

/-- Whether all expressions of a list, which lie `depth` levels deep, are constant. -/
def areConstantAt (functions : FunctionTable) (maxDepth depth : Nat) : List Expr → Bool
  | [] => true
  | e :: es =>
    isConstantAt functions maxDepth depth e && areConstantAt functions maxDepth depth es
termination_by structural es => es

end

/-- Whether an expression is constant. -/
def isConstant (functions : FunctionTable) (maxDepth : Nat) (e : Expr) : Bool :=
  isConstantAt functions maxDepth 0 e

/-- Refuses an expression that is not constant. -/
def ensureConstant (functions : FunctionTable) (maxDepth : Nat) (e : Expr) :
    Except CompileError Unit :=
  if e.isConstant functions maxDepth then .ok ()
  else .error ⟨.nonConstantExpression e.text, e.span⟩

end Expr

end BlockCompiler
