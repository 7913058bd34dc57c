import BlockCompiler.Proofs.MadeUpNames

/-!
# Compiling with assertions

A build for development asserts two things while it compiles a function.  After each instruction, the
emitter counts no fewer than zero operands.  After each statement of a body, and after what a statement
left behind was dropped, the emitter counts as many operands as there are types of them.  A build that is
not for development leaves the assertions out, and the generator of code is about that one.

* `Checked` is an attempt with assertions.  Where one fails there is neither a result nor a state.
* The generator of code, the walk through anonymous functions and the compilation of a block are written
  down with the assertions, in the same steps.  Steps that write no instruction are lifted.
* `Checked.Passes` says that no assertion fails in a run and that the run is as without them.
-/

namespace BlockCompiler

/-- A computation over a state that may fail, and that has no outcome where an assertion fails. -/
def Checked (σ α : Type) : Type := σ → Option (Except CompileError α × σ)

namespace Checked

variable {σ α β : Type}

instance : Monad (Checked σ) where
  pure a := fun s => some (.ok a, s)
  bind x f := fun s =>
    match x s with
    | some (.ok a, s) => f a s
    | some (.error e, s) => some (.error e, s)
    | none => none

/-- An attempt asserts nothing. -/
instance : MonadLift (Attempt σ) (Checked σ) where
  monadLift x := fun s => some (x s)

/-- Asserts something of the state. -/
def require (p : σ → Bool) : Checked σ Unit := fun s => if p s then some (.ok (), s) else none

/-- Changes the state at the end, whether the attempt succeeds or fails. -/
def ending (x : Checked σ α) (f : σ → σ) : Checked σ α := fun s =>
  (x s).map fun (r, s) => (r, f s)

/-! ## Functions -/

/-- The body of a function, which starts with a frame of its own and hands it back. -/
def inside (s : Signature) (site : Span) (depth : Nat) (body : Checked Workbench Unit) :
    Checked Session (Except CompileError Unit × Frame) := fun S =>
  (body ⟨S, .start s site depth⟩).map fun (r, w) => (.ok (r, w.frame), w.session)

/-- A whole function. -/
def compileWith (s : Signature) (flags : EntryFlags) (site : Span) (depth : Nat)
    (body : Checked Workbench Unit) : Checked Session Unit := do
  Session.declare s flags site
  let outcome ← inside s site depth body
  match outcome with
  | (.ok (), fr) => Session.define s.name (fr.emitter.finish fr.scope.maxLocals) site
  | (.error e, _) =>
    Session.record (.abandoned s.name e)
    Session.abandon s.name
    (Attempt.fail e : Attempt Session Unit)

/-! ## Writing code -/

/-- A step of the session. -/
def session (x : Checked Session α) : Checked Workbench α := fun w =>
  (x w.session).map fun (r, S) => (r, ⟨S, w.frame⟩)

/-- The emitter counts no fewer than zero operands. -/
def standing : Checked Workbench Unit := require fun w => 0 ≤ w.frame.emitter.depth

/-- The emitter counts as many operands as there are types. -/
def balanced : Checked Workbench Unit :=
  require fun w => w.frame.emitter.stackDepth = w.frame.operands.size

/-- Writes an instruction that refers to no constant. -/
def emit (f : Emitter → Emitter) : Checked Workbench Unit := do
  Gen.emit f
  standing

/-- Writes an instruction that refers to a constant. -/
def emitPooled (f : Emitter → Pool → Emitter × Pool) : Checked Workbench Unit := do
  Gen.emitPooled f
  standing

-- An operand that is not there cannot be dropped.
example (S : Session) (s : Signature) : emit (·.pop) ⟨S, .start s default 0⟩ = none := rfl

/-- A step one level deeper. -/
def nested (ctx : CodeContext) (span : Span) (x : Checked Workbench α) : Checked Workbench α := do
  let fr ← Gen.frame
  (.ofExcept (ensureDepth ctx.options.maxDepth fr.depth span) : Gen Unit)
  Gen.modifyFrame fun fr => { fr with depth := fr.depth + 1 }
  x.ending fun w => { w with frame.depth := w.frame.depth - 1 }

/-- An operand, given its code. -/
def operand (e : Expr) (code : Checked Workbench Unit) : Checked Workbench Ty := do
  let before ← Gen.frame
  code
  let after ← Gen.frame
  if after.operands.size = before.operands.size then
    emit (·.unit)
    Gen.pushTy .unit
  Gen.popTy e.text e.span

/-! ## Bodies and returns -/

/-- Returns the value on top. -/
def returnTop (t : Ty) : Checked Workbench Unit := emit (·.ret (.ofTy t))

/-- Drops the value on top and returns the unit value. -/
def returnUnit : Checked Workbench Unit := do
  emit (·.pop)
  emit (·.unit)
  returnTop .unit

/-- Returns an operand, given its code. -/
def returnValue (text : String) (span : Span) (value : Checked Workbench Ty) :
    Checked Workbench Unit := do
  let actual ← value
  let fr ← Gen.frame
  if fr.signature.result.acceptsAssign actual then
    if fr.signature.result.isUnit && !actual.isUnit then returnUnit
    else returnTop fr.signature.result
    Gen.ensureNoOperands text span
  else (Gen.failReturn fr.signature actual span : Gen Unit)

/-- Returns what the last statement, which is not a return, left behind. -/
def returnLeft (span : Span) : Checked Workbench Unit := do
  let fr ← Gen.frame
  let s := fr.signature
  match fr.operands.types with
  | [] =>
    if s.result.isUnit then do
      emit (·.unit)
      returnTop .unit
    else (.fail ⟨.internal (.noValueLeft s.result) s.name, span⟩ : Gen Unit)
  | [_] => do
    let actual ← Gen.popTy s.name span
    if actual = s.result then returnTop s.result
    else if s.result.acceptsDiscarding then returnUnit
    else (Gen.failReturn s actual span : Gen Unit)
  | _ => Gen.ensureNoOperands s.name span

/-- Drops operands of some types, from the top on. -/
def drop : List Ty → Checked Workbench Unit
  | [] => pure ()
  | _ :: ts => do
    Gen.modifyFrame fun fr => { fr with operands := ⟨ts⟩ }
    emit (·.pop)
    drop ts

/-- Drops all values that a statement left behind. -/
def dropOperands : Checked Workbench Unit := do
  let fr ← Gen.frame
  drop fr.operands.types

/-- A body between its labels. -/
def framed (ctx : CodeContext) (code : Checked Workbench Unit) : Checked Workbench Unit := do
  let fr ← Gen.frame
  Gen.declareParams ctx fr.signature.params
  let start ← Gen.label
  code
  let stop ← Gen.label
  (if ctx.options.debugInfo then Gen.recordRanges start stop else pure () : Gen Unit)

/-- A body that returns an operand. -/
def returnBody (ctx : CodeContext) (text : String) (span : Span) (value : Checked Workbench Ty) :
    Checked Workbench Unit :=
  framed ctx do
    Gen.setLine ctx span.line
    returnValue text span value
    balanced

/-! ## Expressions -/

/-- Pushes a function as a value. -/
def bindFunction (s : Signature) : Checked Workbench Unit := do
  emitPooled (·.bind s.toValue)
  Gen.pushTy s.toTy

/-- A literal. -/
def literal (value : Literal) : Checked Workbench Unit := do
  match value with
  | .int v => emitPooled (·.constant (.int v))
  | .real v => emitPooled (·.constant (.real v))
  | .bool v => emit (·.bool v)
  | .string v => emitPooled (·.constant (.ofString v))
  | .unit => emit (·.unit)
  Gen.pushTy value.ty

/-- The value of an argument. -/
def loadVar (v : LocalVar) : Checked Workbench Unit := do
  emit (·.load (.ofTy v.ty) v.slot)
  Gen.pushTy v.ty

/-- A name. -/
def reference (ctx : CodeContext) (ident : Ident) : Checked Workbench Unit := do
  let fr ← Gen.frame
  match fr.scope.get? ident.name with
  | some v => loadVar v
  | none =>
    match ctx.functions.get? ident.name with
    | some s => bindFunction s
    | none => (.fail ⟨.unknownIdentifier ident.name, ident.span⟩ : Gen Unit)

/-- The placeholder. -/
def placeholder (span : Span) : Checked Workbench Unit := do
  let unknown : Gen Unit := .fail ⟨.unknownIdentifier Expr.placeholderText, span⟩
  let fr ← Gen.frame
  match fr.scope.get? Expr.placeholderText with
  | some v => if v.ty = .real then loadVar v else unknown
  | none => unknown

/-- An anonymous function, which has been compiled under its text. -/
def lambda (ctx : CodeContext) (text : String) (span : Span) : Checked Workbench Unit :=
  match ctx.lambdas.get? text with
  | some s => bindFunction s
  | none => (.fail ⟨.internal .lambdaNotHoisted text, span⟩ : Gen Unit)

/-- The promotion of a constant, given its code. -/
def promote (ctx : CodeContext) (e : Expr) (params : List Ty) (result : Ty)
    (value : Checked Workbench Ty) : Checked Workbench Unit := do
  let key := Gen.wrapperKey (.fn params result) e.text
  let w ← (Attempt.get : Gen Workbench)
  match w.session.wrapper? key with
  | some s =>
    Gen.session (Session.record (.constantReused s.name e.text))
    bindFunction s
  | none =>
    (.ofExcept (e.ensureConstant ctx.functions ctx.options.maxDepth) : Gen Unit)
    let id ← Gen.session Session.freshId
    let s := Gen.wrapperSignature id params result ctx.options.owner
    let fr ← Gen.frame
    session (compileWith s .synthetic e.span (fr.depth + 1) (returnBody ctx e.text e.span value))
    Gen.session (Session.record (.constantPromoted e.text s))
    Gen.session (Session.remember key s)
    bindFunction s

/-- An argument of a call, given its code. -/
def argument (ctx : CodeContext) (callee : Signature) (position : Nat) (formal : Param) (e : Expr)
    (value : Checked Workbench Ty) : Checked Workbench Unit := do
  let actual ← Gen.infer ctx e
  if actual = formal.ty then discard value
  else
    let mismatch : Gen Unit := .fail
      ⟨.argumentTypeMismatch callee.name position formal.name formal.ty.render actual.render, e.span⟩
    match formal.ty with
    | .fn params result =>
      if result = actual then do
        promote ctx e params result value
        discard (Gen.popTy e.text e.span)
      else mismatch
    | _ => mismatch

/-- A pair, given the codes of its elements. -/
def pair (ctx : CodeContext) (first second : Expr) (span : Span)
    (firstValue secondValue : Checked Workbench Ty) : Checked Workbench Unit := do
  let a ← Gen.infer ctx first
  let b ← Gen.infer ctx second
  let ty ← (.ofExcept (Ty.pairOf a b span) : Gen Ty)
  emit (·.newPair (.ofTy ty))
  emit (·.dup)
  discard firstValue
  discard secondValue
  emit (·.initPair (.ofTy ty))
  Gen.pushTy ty

/-- The call itself, after its arguments. -/
def finishCall (s : Signature) (argCount : Nat) (text : String) (span : Span) :
    Checked Workbench Unit :=
  if argCount < 256 then do
    emitPooled (·.call s.hash (UInt8.ofNat argCount) (!s.result.isUnit))
    (if s.result.isUnit then pure () else Gen.pushTy s.result : Gen Unit)
  else (.fail ⟨.internal .tooManyArguments text, span⟩ : Gen Unit)

mutual

/-- An expression. -/
def expr (ctx : CodeContext) : Expr → Checked Workbench Unit
  | .literal value _ span => nested ctx span (literal value)
  | .pair first second _ span =>
    nested ctx span
      (pair ctx first second span
        (operand first (expr ctx first)) (operand second (expr ctx second)))
  | .var ident => nested ctx ident.span (reference ctx ident)
  | .placeholder span => nested ctx span (placeholder span)
  | .lambda _ text span => nested ctx span (lambda ctx text span)
  | .call ident args text span =>
    nested ctx span do
      let s ← Gen.callee ctx ident args.length span
      arguments ctx s 0 s.params args
      finishCall s args.length text span
termination_by structural e => e

/-- The arguments of a call, from a position on. -/
def arguments (ctx : CodeContext) (s : Signature) (position : Nat) (formals : List Param) :
    List Expr → Checked Workbench Unit
  | [] => pure ()
  | e :: es =>
    match formals with
    | [] => pure ()
    | formal :: formals => do
      argument ctx s position formal e (operand e (expr ctx e))
      arguments ctx s (position + 1) formals es
termination_by structural es => es

end

/-- An expression whose value is wanted. -/
def value (ctx : CodeContext) (e : Expr) : Checked Workbench Ty := operand e (expr ctx e)

/-! ## Statements -/

/-- A statement. -/
def stmt (ctx : CodeContext) : Stmt → Checked Workbench Unit
  | .expr e => expr ctx e
  | .ret e span => returnValue e.text span (value ctx e)
  | .decl ident _ span => (.fail ⟨.nestedDeclaration ident.name, span⟩ : Gen Unit)

/-- The statements of a body. -/
def stmts (ctx : CodeContext) : List Stmt → Checked Workbench Unit
  | [] => do
    let fr ← Gen.frame
    returnLeft fr.site
  | s :: rest => do
    Gen.setLine ctx s.span.line
    stmt ctx s
    match rest with
    | [] =>
      balanced
      if s.isRet then pure () else returnLeft s.span
    | _ :: _ =>
      dropOperands
      balanced
      stmts ctx rest

/-- A function body. -/
def body (ctx : CodeContext) (ss : List Stmt) : Checked Workbench Unit := framed ctx (stmts ctx ss)

/-! ## The walk -/

/-- A step of the session. -/
def walkSession (x : Checked Session α) : Checked Walk α := fun w =>
  (x w.session).map fun (r, S) => (r, { w with session := S })

/-- An anonymous function that was not met before. -/
def compileLambda (functions : FunctionTable) (options : Options) (body : Expr) (text : String)
    (span : Span) : Checked Walk Unit := do
  let id ← Hoist.session Session.freshId
  let w ← (Attempt.get : Hoist Walk)
  let ctx : CodeContext := ⟨functions, options, w.table⟩
  let typing ←
    (.ofExcept (body.infer ⟨functions, .empty, ctx.lambdas, options.maxDepth⟩) : Hoist Typing)
  let name := if body.isPlaceholder then identityName else lambdaName id
  let s : Signature := ⟨name, [lambdaParam], typing.ty, options.owner, false⟩
  walkSession (compileWith s .synthetic span 0 (returnBody ctx body.text span (value ctx body)))
  (do
    Hoist.session (Session.record (.lambdaHoisted text s))
    if body.isPlaceholder then Hoist.setIdentity s
    Hoist.insert text s : Hoist Unit)

/-- A step of the walk. -/
def take (functions : FunctionTable) (options : Options) : WalkStep → Checked Walk Unit
  | .enter depth span => Hoist.take functions options (.enter depth span)
  | .meet l => do
    let w ← (Attempt.get : Hoist Walk)
    match w.table.get? l.text with
    | some s => Hoist.session (Session.record (.lambdaReused s.name l.text))
    | none =>
      match if l.body.isPlaceholder then w.identity? else none with
      | some s =>
        Hoist.session (Session.record (.lambdaReused s.name l.text))
        Hoist.insert l.text s
      | none => compileLambda functions options l.body l.text l.span

/-- Steps of the walk. -/
def takeAll (functions : FunctionTable) (options : Options) : List WalkStep → Checked Walk Unit
  | [] => pure ()
  | t :: ts => do
    take functions options t
    takeAll functions options ts

/-! ## Blocks -/

/-- All anonymous functions of a block. -/
def hoist (functions : FunctionTable) (options : Options) (block : Block) :
    Checked Session LambdaTable := do
  let table ← fun S =>
    match takeAll functions options block.steps { session := S } with
    | some (.ok (), w) => some (.ok w.table, w.session)
    | some (.error e, w) => some (.error e, w.session)
    | none => none
  Session.record (.hoisted table.size)
  pure table

/-- A declared function. -/
def compileDecl (ctx : CodeContext) (d : Decl) : Checked Session Unit := do
  let s ← (.ofExcept (resolve ctx.functions d.name) : Attempt Session Signature)
  compileWith s .user d.span 0 (body ctx d.body)

/-- Declared functions in order, and the errors of those that failed. -/
def compileDecls (ctx : CodeContext) (S : Session) : List Decl → Option (Session × List CompileError)
  | [] => some (S, [])
  | d :: ds =>
    match compileDecl ctx d S with
    | some (.ok (), S) => compileDecls ctx S ds
    | some (.error e, S) =>
      (compileDecls ctx (S.note (.functionFailed d.name.name e)) ds).map fun (S, errors) =>
        (S, e :: errors)
    | none => none

/-- A block.  There is nothing if an assertion fails. -/
def compileBlock (functions : FunctionTable) (options : Options) (block : Block) :
    Option Compilation := do
  let (S, errors) ←
    match hoist functions options block .start with
    | some (.ok lambdas, S) => compileDecls ⟨functions, options, lambdas⟩ S block.decls
    | some (.error e, S) => some (S.note (.hoistingFailed e), [e])
    | none => none
  some ⟨S.toModule options.owner, errors, S.journal⟩

/-! ## Runs without a failed assertion -/

/-- From a state on, no assertion of `x` fails and `x` does what `y` does. -/
def Passes (x : Checked σ α) (y : Attempt σ α) (s : σ) : Prop := x s = some (y s)

variable {x : Checked σ α} {y : Attempt σ α} {s : σ}

/-- What asserts nothing passes. -/
theorem passes_lift (y : Attempt σ α) (s : σ) : Passes (liftM y) y s := rfl

theorem bind_run (x : Checked σ α) (f : α → Checked σ β) (s : σ) :
    (x >>= f) s =
      match x s with
      | some (.ok a, s) => f a s
      | some (.error e, s) => some (.error e, s)
      | none => none := rfl

theorem Passes.bind {f : α → Checked σ β} {g : α → Attempt σ β} (hx : x.Passes y s)
    (hf : ∀ {a s'}, y s = (.ok a, s') → (f a).Passes (g a) s') : (x >>= f).Passes (y >>= g) s := by
  rw [Passes, bind_run, hx, Attempt.bind_run]
  rcases hrun : y s with ⟨e | a, s'⟩
  · rfl
  · exact hf hrun

theorem Passes.ending (h : x.Passes y s) (f : σ → σ) : (x.ending f).Passes (y.ending f) s := by
  rw [Passes, Checked.ending, h]
  rfl

/-- An assertion that holds in the end is as if it were not there. -/
theorem Passes.bind_require {x : Checked σ Unit} {y : Attempt σ Unit} {p : σ → Bool}
    (hx : x.Passes y s) (hp : ∀ {s'}, y s = (.ok (), s') → p s' = true) :
    (x >>= fun _ => require p).Passes y s := by
  rw [Passes, bind_run, hx]
  rcases hrun : y s with ⟨e | ⟨⟩, s'⟩
  · rfl
  · exact if_pos (hp hrun)

/-- So is one that holds in the beginning. -/
theorem Passes.require_bind {p : σ → Bool} {f : Unit → Checked σ α} (hp : p s = true)
    (hf : (f ()).Passes y s) : (require p >>= f).Passes y s := by
  rw [Passes, bind_run, require, if_pos hp]
  exact hf

end Checked

end BlockCompiler
