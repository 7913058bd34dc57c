import BlockCompiler.Proofs.HoistedFunctions

/-!
# Listing the names that a compilation makes up

A name is made up with the number that is drawn for it, before it is clear whether it can be registered
and whether the body of its function compiles.  So the names that a compilation makes up are not found
in the module, nor all of them in the journal.

* `Naming` is an attempt together with the names that a run of it makes up, up to its failure if it
  fails.
* The generator of code and the walk through anonymous functions are written down as namings, in the
  same steps.  What comes out of a run is not touched by that: `Naming.run_expr`, `Naming.run_body`,
  `Naming.run_takeAll` and `Naming.run_compileDecl`.
* The walk is taken apart for that: `Hoist.topLevel_eq` says that it takes a list of steps, which the
  syntax determines.
* `Block.madeUpNames` lists the names of a whole compilation.
-/

namespace BlockCompiler

/-- An attempt, and the names that a run of it makes up. -/
structure Naming (σ α : Type) where
  run : Attempt σ α
  names : σ → List String

namespace Naming

variable {σ α β : Type}

/-- An attempt that makes up no names. -/
def silent (x : Attempt σ α) : Naming σ α := ⟨x, fun _ => []⟩

instance : Monad (Naming σ) where
  pure a := silent (pure a)
  bind x f :=
    { run := x.run >>= fun a => (f a).run
      names := fun s => x.names s ++
        match x.run s with
        | (.ok a, s) => (f a).names s
        | (.error _, _) => [] }

/-- Draws a number and makes up a name with it. -/
def freshId (name : Nat → String) : Naming Session Nat :=
  ⟨Session.freshId, fun S => [name S.nextId]⟩

/-- The body of a function, which starts with a frame of its own and hands it back. -/
def inside (s : Signature) (site : Span) (depth : Nat) (body : Naming Workbench Unit) :
    Naming Session (Except CompileError Unit × Frame) where
  run := fun S =>
    match body.run ⟨S, .start s site depth⟩ with
    | (r, w) => (.ok (r, w.frame), w.session)
  names := fun S => body.names ⟨S, .start s site depth⟩

/-- A whole function. -/
def compileWith (s : Signature) (flags : EntryFlags) (site : Span) (depth : Nat)
    (body : Naming Workbench Unit) : Naming Session Unit := do
  silent (Session.declare s flags site)
  let outcome ← inside s site depth body
  match outcome with
  | (.ok (), fr) => silent (Session.define s.name (fr.emitter.finish fr.scope.maxLocals) site)
  | (.error e, _) => silent do
    Session.record (.abandoned s.name e)
    Session.abandon s.name
    .fail e

/-! ## Code -/

/-- A step of the session. -/
def session (x : Naming Session α) : Naming Workbench α :=
  ⟨Gen.session x.run, fun w => x.names w.session⟩

/-- A step one level deeper. -/
def nested (ctx : CodeContext) (span : Span) (x : Naming Workbench α) : Naming Workbench α := do
  let fr ← silent Gen.frame
  silent (.ofExcept (ensureDepth ctx.options.maxDepth fr.depth span))
  silent (Gen.modifyFrame fun fr => { fr with depth := fr.depth + 1 })
  { run := x.run.ending fun w => { w with frame.depth := w.frame.depth - 1 }, names := x.names }

/-- An operand, given its code. -/
def operand (e : Expr) (code : Naming Workbench Unit) : Naming Workbench Ty := do
  let before ← silent Gen.frame
  code
  silent do
    if (← Gen.frame).operands.size = before.operands.size then
      Gen.emit (·.unit)
      Gen.pushTy .unit
    Gen.popTy e.text e.span

/-- The return of an operand, given its code. -/
def returnValue (text : String) (span : Span) (value : Naming Workbench Ty) :
    Naming Workbench Unit := do
  let actual ← value
  silent (Gen.returnValue text span (pure actual))

/-- A body between its labels. -/
def framed (ctx : CodeContext) (code : Naming Workbench Unit) : Naming Workbench Unit := do
  let fr ← silent Gen.frame
  silent (Gen.declareParams ctx fr.signature.params)
  let start ← silent Gen.label
  code
  silent do
    let stop ← Gen.label
    if ctx.options.debugInfo then Gen.recordRanges start stop

/-- A body that returns an operand. -/
def returnBody (ctx : CodeContext) (text : String) (span : Span) (value : Naming Workbench Ty) :
    Naming Workbench Unit :=
  framed ctx do
    silent (Gen.setLine ctx span.line)
    returnValue text span value

/-- The promotion of a constant.  A name is made up for a wrapper that is not remembered. -/
def promote (ctx : CodeContext) (e : Expr) (params : List Ty) (result : Ty)
    (value : Naming Workbench Ty) : Naming Workbench Unit := do
  let key := Gen.wrapperKey (.fn params result) e.text
  let signature (id : Nat) := Gen.wrapperSignature id params result ctx.options.owner
  let w ← silent Attempt.get
  match w.session.wrapper? key with
  | some s => silent do
    Gen.session (Session.record (.constantReused s.name e.text))
    Gen.bindFunction s
  | none =>
    silent (.ofExcept (e.ensureConstant ctx.functions ctx.options.maxDepth))
    let id ← session (freshId fun id => (signature id).name)
    let fr ← silent Gen.frame
    session (compileWith (signature id) .synthetic e.span (fr.depth + 1)
      (returnBody ctx e.text e.span value))
    silent do
      Gen.session (Session.record (.constantPromoted e.text (signature id)))
      Gen.session (Session.remember key (signature id))
      Gen.bindFunction (signature id)

/-- An argument of a call, given its code. -/
def argument (ctx : CodeContext) (callee : Signature) (position : Nat) (formal : Param) (e : Expr)
    (value : Naming Workbench Ty) : Naming Workbench Unit := do
  let actual ← silent (Gen.infer ctx e)
  if actual = formal.ty then discard value
  else
    let mismatch : Naming Workbench Unit := silent (.fail
      ⟨.argumentTypeMismatch callee.name position formal.name formal.ty.render actual.render, e.span⟩)
    match formal.ty with
    | .fn params result =>
      if result = actual then do
        promote ctx e params result value
        silent (discard (Gen.popTy e.text e.span))
      else mismatch
    | _ => mismatch

/-- A pair, given the codes of its elements. -/
def pair (ctx : CodeContext) (first second : Expr) (span : Span)
    (firstValue secondValue : Naming Workbench Ty) : Naming Workbench Unit := do
  let a ← silent (Gen.infer ctx first)
  let b ← silent (Gen.infer ctx second)
  let ty ← silent (.ofExcept (Ty.pairOf a b span))
  silent (Gen.emit (·.newPair (.ofTy ty)))
  silent (Gen.emit (·.dup))
  discard firstValue
  discard secondValue
  silent do
    Gen.emit (·.initPair (.ofTy ty))
    Gen.pushTy ty

mutual

/-- An expression. -/
def expr (ctx : CodeContext) : Expr → Naming Workbench Unit
  | .pair first second _ span =>
    nested ctx span
      (pair ctx first second span
        (operand first (expr ctx first)) (operand second (expr ctx second)))
  | .call ident args text span =>
    nested ctx span do
      let s ← silent (Gen.callee ctx ident args.length span)
      arguments ctx s 0 s.params args
      silent (Gen.finishCall s args.length text span)
  | .literal value text span => silent (Gen.expr ctx (.literal value text span))
  | .var ident => silent (Gen.expr ctx (.var ident))
  | .placeholder span => silent (Gen.expr ctx (.placeholder span))
  | .lambda body text span => silent (Gen.expr ctx (.lambda body text span))
termination_by structural e => e

/-- The arguments of a call, from a position on. -/
def arguments (ctx : CodeContext) (s : Signature) (position : Nat) (formals : List Param) :
    List Expr → Naming Workbench Unit
  | [] => pure ()
  | e :: es =>
    match formals with
    | [] => pure ()
    | formal :: formals => do
      argument ctx s position formal e (operand e (expr ctx e))
      arguments ctx s (position + 1) formals es
termination_by structural es => es

end

/-- An expression whose value is wanted. -/
def value (ctx : CodeContext) (e : Expr) : Naming Workbench Ty := operand e (expr ctx e)

/-- A statement. -/
def stmt (ctx : CodeContext) : Stmt → Naming Workbench Unit
  | .expr e => expr ctx e
  | .ret e span => returnValue e.text span (value ctx e)
  | .decl ident body span => silent (Gen.stmt ctx (.decl ident body span))

/-- The statements of a body. -/
def stmts (ctx : CodeContext) : List Stmt → Naming Workbench Unit
  | [] => silent (Gen.stmts ctx [])
  | s :: rest => do
    silent (Gen.setLine ctx s.span.line)
    stmt ctx s
    match rest with
    | [] => silent (if s.isRet then pure () else Gen.returnLeft s.span)
    | _ :: _ => do
      silent Gen.dropOperands
      stmts ctx rest

/-- A function body. -/
def body (ctx : CodeContext) (ss : List Stmt) : Naming Workbench Unit := framed ctx (stmts ctx ss)

/-! ### Runs -/

section Runs

variable {ctx : CodeContext}

theorem run_bind (x : Naming σ α) (f : α → Naming σ β) :
    (x >>= f).run = x.run >>= fun a => (f a).run := rfl

theorem run_compileWith (s : Signature) (flags : EntryFlags) (site : Span) (depth : Nat)
    (body : Naming Workbench Unit) :
    (compileWith s flags site depth body).run = Session.compileWith s flags site depth body.run := by
  refine bind_congr fun _ => bind_congr fun outcome => ?_
  obtain ⟨_ | _, fr⟩ := outcome <;> rfl

theorem run_nested (span : Span) (x : Naming Workbench α) :
    (nested ctx span x).run = Gen.nested ctx span x.run := rfl

theorem run_operand (e : Expr) (code : Naming Workbench Unit) :
    (operand e code).run = Gen.operand e code.run := rfl

theorem run_returnValue (text : String) (span : Span) (value : Naming Workbench Ty) :
    (returnValue text span value).run = Gen.returnValue text span value.run := rfl

theorem run_framed (code : Naming Workbench Unit) :
    (framed ctx code).run = Gen.framed ctx code.run := rfl

theorem run_returnBody (text : String) (span : Span) (value : Naming Workbench Ty) :
    (returnBody ctx text span value).run = Gen.returnBody ctx text span value.run := rfl

theorem run_promote (e : Expr) (params : List Ty) (result : Ty) (value : Naming Workbench Ty) :
    (promote ctx e params result value).run = Gen.promote ctx e params result value.run := by
  unfold promote Gen.promote
  refine bind_congr fun w => ?_
  dsimp only
  cases w.session.wrapper? (Gen.wrapperKey (.fn params result) e.text) with
  | some s => rfl
  | none =>
    refine bind_congr fun _ => bind_congr fun id => bind_congr fun fr => ?_
    simp only [run_bind, session, run_compileWith, run_returnBody]
    rfl

theorem run_argument (callee : Signature) (position : Nat) (formal : Param) (e : Expr)
    (value : Naming Workbench Ty) :
    (argument ctx callee position formal e value).run =
      Gen.argument ctx callee position formal e value.run := by
  obtain ⟨name, ty⟩ := formal
  unfold argument Gen.argument
  refine bind_congr fun actual => ?_
  dsimp only
  split
  · rfl
  · cases ty with
    | fn params result =>
      dsimp only
      split
      · rw [run_bind, run_promote]
        rfl
      · rfl
    | _ => rfl

theorem run_pair (first second : Expr) (span : Span) (firstValue secondValue : Naming Workbench Ty) :
    (pair ctx first second span firstValue secondValue).run =
      Gen.pair ctx first second span firstValue.run secondValue.run := rfl

mutual

/-- Listing names does not touch the compilation of an expression. -/
theorem run_expr : ∀ e : Expr, (expr ctx e).run = Gen.expr ctx e
  | .literal _ _ _ | .var _ | .placeholder _ | .lambda _ _ _ => rfl
  | .pair first second _ _ => by
    rw [expr, Gen.expr, run_nested, run_pair, run_operand, run_operand, run_expr first, run_expr second]
  | .call ident args text span => by
    rw [expr, Gen.expr, run_nested]
    refine congrArg _ (bind_congr fun s => ?_)
    rw [run_bind, run_arguments args]
    rfl

theorem run_arguments : ∀ (es : List Expr) {s : Signature} {position : Nat} {formals : List Param},
    (arguments ctx s position formals es).run = Gen.arguments ctx s position formals es
  | [], _, _, _ => rfl
  | _ :: _, _, _, [] => rfl
  | e :: es, _, _, _ :: _ => by
    rw [arguments, Gen.arguments, run_bind, run_argument, run_operand, run_expr e]
    exact bind_congr fun _ => run_arguments es

end

theorem run_value (e : Expr) : (value ctx e).run = Gen.value ctx e := by
  rw [value, run_operand, run_expr]
  rfl

theorem run_stmt (s : Stmt) : (stmt ctx s).run = Gen.stmt ctx s := by
  cases s with
  | expr e => exact run_expr e
  | ret e span =>
    rw [stmt, run_returnValue, run_value]
    rfl
  | decl => rfl

theorem run_stmts (ss : List Stmt) : (stmts ctx ss).run = Gen.stmts ctx ss := by
  induction ss with
  | nil => rfl
  | cons s rest ih =>
    unfold stmts Gen.stmts
    refine bind_congr fun _ => ?_
    rw [run_bind, run_stmt]
    refine bind_congr fun _ => ?_
    cases rest with
    | nil => rfl
    | cons s' rest =>
      rw [run_bind]
      exact bind_congr fun _ => ih

/-- Listing names does not touch the compilation of a body. -/
theorem run_body (ss : List Stmt) : (body ctx ss).run = Gen.body ctx ss := by
  rw [body, run_framed, run_stmts]
  rfl

end Runs

end Naming

/-! ## The walk -/

/-- A step of the walk: it enters something that lies `depth` levels deep, or meets an anonymous
function. -/
inductive WalkStep where
  | enter (depth : Nat) (span : Span)
  | meet (l : LambdaLiteral)

mutual

/-- The steps through an expression that lies `depth` levels deep. -/
def Expr.steps (depth : Nat) : Expr → List WalkStep
  | .literal _ _ span => [.enter depth span]
  | .pair first second _ span =>
    .enter depth span :: (first.steps (depth + 1) ++ second.steps (depth + 1))
  | .var ident => [.enter depth ident.span]
  | .placeholder span => [.enter depth span]
  | .lambda body text span => .enter depth span :: (body.steps (depth + 1) ++ [.meet ⟨body, text, span⟩])
  | .call _ args _ span => .enter depth span :: stepsAll (depth + 1) args

def Expr.stepsAll (depth : Nat) : List Expr → List WalkStep
  | [] => []
  | e :: es => e.steps depth ++ stepsAll depth es

end

mutual

/-- The steps through a statement that lies `depth` levels deep. -/
def Stmt.steps (depth : Nat) : Stmt → List WalkStep
  | .expr e => .enter depth e.span :: e.steps depth
  | .ret e span => .enter depth span :: e.steps depth
  | .decl _ body span => .enter depth span :: stepsAll (depth + 1) body

def Stmt.stepsAll (depth : Nat) : List Stmt → List WalkStep
  | [] => []
  | s :: ss => s.steps depth ++ stepsAll depth ss

end

/-- The steps through a statement of the block itself. -/
def Stmt.topSteps : Stmt → List WalkStep
  | .decl _ body _ => stepsAll 0 body
  | s => s.steps 0

/-- The steps through a block. -/
def Block.steps (block : Block) : List WalkStep := block.stmts.flatMap Stmt.topSteps

namespace Hoist

/-- Takes a step. -/
def take (functions : FunctionTable) (options : Options) : WalkStep → Hoist Unit
  | .enter depth span => .ofExcept (ensureDepth options.maxDepth depth span)
  | .meet l => lambda functions options l.body l.text l.span

section Steps

variable {functions : FunctionTable} {options : Options}

mutual

theorem expr_eq : ∀ (e : Expr) (depth : Nat),
    expr functions options depth e = (e.steps depth).forM (take functions options)
  | .literal _ _ _, _ | .var _, _ | .placeholder _, _ => by
    simp [expr, Expr.steps, take]
  | .pair first second _ _, depth => by
    simp [expr, Expr.steps, take, expr_eq first, expr_eq second]
  | .lambda body _ _, depth => by
    simp [expr, Expr.steps, take, expr_eq body]
  | .call _ args _ _, depth => by
    simp [expr, Expr.steps, take, exprs_eq args]

theorem exprs_eq : ∀ (es : List Expr) (depth : Nat),
    exprs functions options depth es = (Expr.stepsAll depth es).forM (take functions options)
  | [], _ => rfl
  | e :: es, depth => by simp [exprs, Expr.stepsAll, expr_eq e, exprs_eq es]

end

mutual

theorem stmt_eq : ∀ (s : Stmt) (depth : Nat),
    stmt functions options depth s = (s.steps depth).forM (take functions options)
  | .expr _, _ | .ret _ _, _ => by simp [stmt, Stmt.steps, take, expr_eq]
  | .decl _ body _, depth => by simp [stmt, Stmt.steps, take, stmts_eq body]

theorem stmts_eq : ∀ (ss : List Stmt) (depth : Nat),
    stmts functions options depth ss = (Stmt.stepsAll depth ss).forM (take functions options)
  | [], _ => rfl
  | s :: ss, depth => by simp [stmts, Stmt.stepsAll, stmt_eq s, stmts_eq ss]

end

/-- The walk takes the steps through the block one after another. -/
theorem topLevel_eq : ∀ ss : List Stmt,
    topLevel functions options ss = (ss.flatMap Stmt.topSteps).forM (take functions options)
  | [] => rfl
  | .expr _ :: ss | .ret _ _ :: ss => by
    simp [topLevel, Stmt.topSteps, stmt_eq, topLevel_eq ss]
  | .decl _ _ _ :: ss => by simp [topLevel, Stmt.topSteps, stmts_eq, topLevel_eq ss]

end Steps

end Hoist

namespace Naming

variable {α : Type}

/-- A step of the session. -/
def walkSession (x : Naming Session α) : Naming Walk α :=
  ⟨Hoist.session x.run, fun w => x.names w.session⟩

/-- An anonymous function that was not met before.  A name is made up for it before its type is
known. -/
def compileLambda (functions : FunctionTable) (options : Options) (body : Expr) (text : String)
    (span : Span) : Naming Walk Unit := do
  let name (id : Nat) := if body.isPlaceholder then identityName else lambdaName id
  let id ← walkSession (freshId name)
  let w ← silent Attempt.get
  let ctx : CodeContext := ⟨functions, options, w.table⟩
  let typing ← silent (.ofExcept (body.infer ⟨functions, .empty, ctx.lambdas, options.maxDepth⟩))
  let s : Signature := ⟨name id, [lambdaParam], typing.ty, options.owner, false⟩
  walkSession (compileWith s .synthetic span 0 (returnBody ctx body.text span (value ctx body)))
  silent do
    Hoist.session (Session.record (.lambdaHoisted text s))
    if body.isPlaceholder then Hoist.setIdentity s
    Hoist.insert text s

/-- An anonymous function. -/
def lambda (functions : FunctionTable) (options : Options) (body : Expr) (text : String)
    (span : Span) : Naming Walk Unit := do
  let w ← silent Attempt.get
  match w.table.get? text with
  | some s => silent (Hoist.session (Session.record (.lambdaReused s.name text)))
  | none =>
    match if body.isPlaceholder then w.identity? else none with
    | some s => silent do
      Hoist.session (Session.record (.lambdaReused s.name text))
      Hoist.insert text s
    | none => compileLambda functions options body text span

/-- A step of the walk. -/
def take (functions : FunctionTable) (options : Options) : WalkStep → Naming Walk Unit
  | .enter depth span => silent (Hoist.take functions options (.enter depth span))
  | .meet l => lambda functions options l.body l.text l.span

/-- Steps of the walk. -/
def takeAll (functions : FunctionTable) (options : Options) : List WalkStep → Naming Walk Unit
  | [] => pure ()
  | t :: ts => do
    take functions options t
    takeAll functions options ts

/-- A declared function. -/
def compileDecl (ctx : CodeContext) (d : Decl) : Naming Session Unit := do
  let s ← silent (.ofExcept (resolve ctx.functions d.name))
  compileWith s .user d.span 0 (body ctx d.body)

/-! ### Runs -/

section Runs

variable {functions : FunctionTable} {options : Options}

theorem run_compileLambda (body : Expr) (text : String) (span : Span) :
    (compileLambda functions options body text span).run =
      Hoist.compileLambda functions options body text span := by
  unfold compileLambda Hoist.compileLambda
  refine bind_congr fun id => bind_congr fun w => bind_congr fun typing => ?_
  simp only [run_bind, walkSession, run_compileWith, run_returnBody, run_value]
  rfl

theorem run_take (t : WalkStep) : (take functions options t).run = Hoist.take functions options t := by
  cases t with
  | enter => rfl
  | meet l =>
    refine bind_congr fun w => ?_
    dsimp only
    cases w.table.get? l.text with
    | some s => rfl
    | none =>
      cases if l.body.isPlaceholder then w.identity? else none with
      | some s => rfl
      | none => exact run_compileLambda l.body l.text l.span

theorem run_takeAll (ts : List WalkStep) :
    (takeAll functions options ts).run = ts.forM (Hoist.take functions options) := by
  induction ts with
  | nil => rfl
  | cons t ts ih =>
    rw [takeAll, run_bind, run_take, ih]
    rfl

/-- Listing names does not touch the walk. -/
theorem run_steps (block : Block) :
    (takeAll functions options block.steps).run = Hoist.topLevel functions options block.stmts := by
  rw [run_takeAll, Hoist.topLevel_eq]
  rfl

/-- Listing names does not touch the compilation of a declared function. -/
theorem run_compileDecl (ctx : CodeContext) (d : Decl) :
    (compileDecl ctx d).run = Session.compileDecl ctx d := by
  refine bind_congr fun s => ?_
  dsimp only
  rw [run_compileWith, run_body]

end Runs

/-- The names that the compilation of declared functions makes up. -/
def compileDecls (ctx : CodeContext) (S : Session) : List Decl → List String
  | [] => []
  | d :: ds =>
    (compileDecl ctx d).names S ++
      match Session.compileDecl ctx d S with
      | (.ok (), S) => compileDecls ctx S ds
      | (.error e, S) => compileDecls ctx (S.note (.functionFailed d.name.name e)) ds

end Naming

/-- The names that a compilation makes up, in the order of their numbers: those for anonymous functions
and for the wrappers of constants, whatever becomes of them. -/
def Block.madeUpNames (block : Block) (functions : FunctionTable) (options : Options) : List String :=
  (Naming.takeAll functions options block.steps).names { session := .start } ++
    match Session.hoist functions options block .start with
    | (.ok lambdas, S) => Naming.compileDecls ⟨functions, options, lambdas⟩ S block.decls
    | (.error _, _) => []

end BlockCompiler
