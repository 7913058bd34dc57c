import BlockCompiler.CodeGen.Body
import BlockCompiler.Constancy

/-!
# Code of expressions

Every expression leaves one value, except a call to a function whose result is the unit type, which
leaves none.  Types are checked before code is written.

An argument whose type is not the parameter's is accepted in one case.  Where a function with result
`T` is expected, a constant of type `T` may stand: it is wrapped into a function that ignores its
arguments and returns the constant.  Wrappers are compiled on the spot, one level deeper, and
remembered by the expected type and the source text of the constant.
-/

namespace BlockCompiler

namespace Gen

/-! ## Leaves -/

/-- The code of a literal. -/
def literal (value : Literal) : Gen Unit := do
  match value with
  | .int v => emitPooled (·.constant (.int v))
  | .real v => emitPooled (·.constant (.real v))
  | .bool v => emit (·.bool v)
  | .string v => emitPooled (·.constant (.ofString v))
  | .unit => emit (·.unit)
  pushTy value.ty

/-- Pushes the value of an argument. -/
def loadVar (v : LocalVar) : Gen Unit := do
  emit (·.load (.ofTy v.ty) v.slot)
  pushTy v.ty

/-- The code of a name: an argument if there is one, else a function as a value. -/
def reference (ctx : CodeContext) (ident : Ident) : Gen Unit := do
  match (← frame).scope.get? ident.name with
  | some v => loadVar v
  | none =>
    match ctx.functions.get? ident.name with
    | some s => bindFunction s
    | none => .fail ⟨.unknownIdentifier ident.name, ident.span⟩

/-- The code of the placeholder: the argument of that name, which must be a real. -/
def placeholder (span : Span) : Gen Unit := do
  let unknown : Gen Unit := .fail ⟨.unknownIdentifier Expr.placeholderText, span⟩
  match (← frame).scope.get? Expr.placeholderText with
  | some v => if v.ty = .real then loadVar v else unknown
  | none => unknown

/-- The code of an anonymous function, which has been compiled under its text. -/
def lambda (ctx : CodeContext) (text : String) (span : Span) : Gen Unit :=
  match ctx.lambdas.get? text with
  | some s => bindFunction s
  | none => .fail ⟨.internal .lambdaNotHoisted text, span⟩

/-! ## Wrapped constants -/

/-- The key of the wrapper of a constant: the expected type and the constant's text. -/
def wrapperKey (expected : Ty) (text : String) : String := expected.descriptor ++ ":" ++ text

/-- The name of a parameter of a wrapper, by its position. -/
def wrapperParamName : Nat → String
  | 0 => "_"
  | i + 1 => "_" ++ toString (i + 1)

/-- The signature of the wrapper with a number. -/
def wrapperSignature (id : Nat) (params : List Ty) (result : Ty) (owner : String) : Signature where
  name := "_lambda_" ++ toString id ++ "$constant"
  params := params.mapIdx fun i t => ⟨wrapperParamName i, t⟩
  result
  owner
  isPure := true

/-- Wraps a constant into a function of the type `fn params result` and pushes that function.  The
code of the constant is `value`. -/
def promote (ctx : CodeContext) (e : Expr) (params : List Ty) (result : Ty) (value : Gen Ty) :
    Gen Unit := do
  let key := wrapperKey (.fn params result) e.text
  match (← Attempt.get).session.wrapper? key with
  | some s =>
    session (Session.record (.constantReused s.name e.text))
    bindFunction s
  | none =>
    .ofExcept (e.ensureConstant ctx.functions ctx.options.maxDepth)
    let id ← session Session.freshId
    let s := wrapperSignature id params result ctx.options.owner
    let depth := (← frame).depth + 1
    session (Session.compileWith s .synthetic e.span depth (returnBody ctx e.text e.span value))
    session (Session.record (.constantPromoted e.text s))
    session (Session.remember key s)
    bindFunction s

/-- The code of an argument of a call, given its own code. -/
def argument (ctx : CodeContext) (callee : Signature) (position : Nat) (formal : Param) (e : Expr)
    (value : Gen Ty) : Gen Unit := do
  let actual ← infer ctx e
  if actual = formal.ty then discard value
  else
    let mismatch : Gen Unit := .fail
      ⟨.argumentTypeMismatch callee.name position formal.name formal.ty.render actual.render, e.span⟩
    match formal.ty with
    | .fn params result =>
      if result = actual then do
        promote ctx e params result value
        discard (popTy e.text e.span)
      else mismatch
    | _ => mismatch

/-! ## Calls and pairs -/

/-- The code of a pair, given the codes of its elements. -/
def pair (ctx : CodeContext) (first second : Expr) (span : Span) (firstValue secondValue : Gen Ty) :
    Gen Unit := do
  let a ← infer ctx first
  let b ← infer ctx second
  let ty ← .ofExcept (Ty.pairOf a b span)
  emit (·.newPair (.ofTy ty))
  emit (·.dup)
  discard firstValue
  discard secondValue
  emit (·.initPair (.ofTy ty))
  pushTy ty

/-- The function that a call calls, which must take as many arguments as the call has. -/
def callee (ctx : CodeContext) (ident : Ident) (argCount : Nat) (span : Span) : Gen Signature := do
  let s ← .ofExcept (resolve ctx.functions ident)
  if argCount = s.arity then pure s
  else .fail ⟨.argumentCountMismatch s.name s.arity argCount, span⟩

/-- The call itself, after its arguments. -/
def finishCall (s : Signature) (argCount : Nat) (text : String) (span : Span) : Gen Unit :=
  if argCount < 256 then do
    emitPooled (·.call s.hash (UInt8.ofNat argCount) (!s.result.isUnit))
    if s.result.isUnit then pure () else pushTy s.result
  else .fail ⟨.internal .tooManyArguments text, span⟩

mutual

/-- The code of an expression. -/
def expr (ctx : CodeContext) : Expr → Gen Unit
  | .literal value _ span => nested ctx span (literal value)
  | .pair first second _ span =>
    nested ctx span
      (pair ctx first second span
        (operand first (expr ctx first)) (operand second (expr ctx second)))
  | .var ident => nested ctx ident.span (reference ctx ident)
  | .placeholder span => nested ctx span (placeholder span)
  | .lambda _ text span => nested ctx span (lambda ctx text span)
  | .call ident args text span =>
    nested ctx span do
      let s ← callee ctx ident args.length span
      arguments ctx s 0 s.params args
      finishCall s args.length text span
termination_by structural e => e

/-- The code of the arguments of a call, from a position on. -/
def arguments (ctx : CodeContext) (s : Signature) (position : Nat) (formals : List Param) :
    List Expr → Gen Unit
  | [] => pure ()
  | e :: es =>
    match formals with
    | [] => pure ()
    | formal :: formals => do
      argument ctx s position formal e (operand e (expr ctx e))
      arguments ctx s (position + 1) formals es
termination_by structural es => es

end

/-- The code of an expression whose value is wanted. -/
def value (ctx : CodeContext) (e : Expr) : Gen Ty := operand e (expr ctx e)

/-! ## Statements -/

/-- The code of a statement. -/
def stmt (ctx : CodeContext) : Stmt → Gen Unit
  | .expr e => expr ctx e
  | .ret e span => returnValue e.text span (value ctx e)
  | .decl ident _ span => .fail ⟨.nestedDeclaration ident.name, span⟩

/-- The code of the statements of a body, up to its return. -/
def stmts (ctx : CodeContext) : List Stmt → Gen Unit
  | [] => do returnLeft (← frame).site
  | s :: rest => do
    setLine ctx s.span.line
    stmt ctx s
    match rest with
    | [] => if s.isRet then pure () else returnLeft s.span
    | _ :: _ => do
      dropOperands
      stmts ctx rest

/-- The code of a function body. -/
def body (ctx : CodeContext) (ss : List Stmt) : Gen Unit := framed ctx (stmts ctx ss)

end Gen

end BlockCompiler
