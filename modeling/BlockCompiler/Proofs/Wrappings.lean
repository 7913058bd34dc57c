import BlockCompiler.Proofs.MadeUpNames

/-!
# Listing the constants that a compilation promotes

The journal says of a constant that was promoted which wrapper was pushed for it, but not which type was
expected there.  And the promotions of a compilation do not follow one another: the wrapper of one may
hold others, and a function that fails may have completed some.

* `Wrapping` is a promotion that was completed, with all that it was about.
* `Wrappings σ` lists those of a run from a state, up to its failure if it fails.  The states on the way
  are those of the generator of code and of the walk, which are run for them.
* `Wrappings.promote` is where a promotion is listed, after those in the code of its wrapper.
  `Wrappings.promote_of_ok` says that it is listed with the wrapper that is pushed.
* `Block.wrappings` lists the promotions of a whole compilation.
-/

namespace BlockCompiler

/-- A promotion that was completed: where a function of the type `expected` is expected, a constant of
this text stands for one, and it is `wrapper` that is pushed. -/
structure Wrapping where
  expected : Ty
  text : String
  wrapper : Signature
deriving DecidableEq

/-- The key that the wrapper is remembered by. -/
def Wrapping.key (p : Wrapping) : String := Gen.wrapperKey p.expected p.text

/-- The promotions that a run from a state completes. -/
abbrev Wrappings (σ : Type) : Type := σ → List Wrapping

namespace Wrappings

variable {σ α : Type}

/-- What follows an attempt, if that succeeds. -/
def after (x : Attempt σ α) (l : α → Wrappings σ) : Wrappings σ := fun s =>
  match x s with
  | (.ok a, s) => l a s
  | (.error _, _) => []

theorem after_of_ok {x : Attempt σ α} {l : α → Wrappings σ} {s s' : σ} {a : α}
    (h : x s = (.ok a, s')) : after x l s = l a s' := by
  simp [after, h]

theorem after_of_error {x : Attempt σ α} {l : α → Wrappings σ} {s s' : σ} {err : CompileError}
    (h : x s = (.error err, s')) : after x l s = [] := by
  simp [after, h]

/-- A whole function, given those of its body. -/
def compileWith (s : Signature) (flags : EntryFlags) (site : Span) (depth : Nat)
    (body : Wrappings Workbench) : Wrappings Session :=
  after (Session.declare s flags site) fun _ S => body ⟨S, .start s site depth⟩

/-! ## Code -/

/-- A step one level deeper. -/
def nested (ctx : CodeContext) (span : Span) (l : Wrappings Workbench) : Wrappings Workbench :=
  after Gen.frame fun fr =>
  after (.ofExcept (ensureDepth ctx.options.maxDepth fr.depth span)) fun _ =>
  after (Gen.modifyFrame fun fr => { fr with depth := fr.depth + 1 }) fun _ => l

/-- A body between its labels. -/
def framed (ctx : CodeContext) (code : Wrappings Workbench) : Wrappings Workbench :=
  after Gen.frame fun fr =>
  after (Gen.declareParams ctx fr.signature.params) fun _ => after Gen.label fun _ => code

/-- A body that returns an operand. -/
def returnBody (ctx : CodeContext) (span : Span) (value : Wrappings Workbench) :
    Wrappings Workbench :=
  framed ctx (after (Gen.setLine ctx span.line) fun _ => value)

/-- The promotion of a constant, whose code is `value`. -/
def promote (ctx : CodeContext) (e : Expr) (params : List Ty) (result : Ty) (value : Gen Ty)
    (l : Wrappings Workbench) : Wrappings Workbench := fun w =>
  match w.session.wrapper? (Gen.wrapperKey (.fn params result) e.text) with
  | some s => [⟨.fn params result, e.text, s⟩]
  | none =>
    match e.ensureConstant ctx.functions ctx.options.maxDepth with
    | .error _ => []
    | .ok () =>
      let s := Gen.wrapperSignature w.session.nextId params result ctx.options.owner
      let S := { w.session with nextId := w.session.nextId + 1 }
      let depth := w.frame.depth + 1
      compileWith s .synthetic e.span depth (returnBody ctx e.span l) S ++
        after (Session.compileWith s .synthetic e.span depth (Gen.returnBody ctx e.text e.span value))
          (fun _ _ => [⟨.fn params result, e.text, s⟩]) S

/-- An argument of a call, whose code is `value`. -/
def argument (ctx : CodeContext) (formal : Param) (e : Expr) (value : Gen Ty)
    (l : Wrappings Workbench) : Wrappings Workbench :=
  after (Gen.infer ctx e) fun actual =>
    if actual = formal.ty then l
    else
      match formal.ty with
      | .fn params result => if result = actual then promote ctx e params result value l else fun _ => []
      | _ => fun _ => []

/-- A pair, the code of whose first element is `firstValue`. -/
def pair (ctx : CodeContext) (first second : Expr) (span : Span) (firstValue : Gen Ty)
    (l l' : Wrappings Workbench) : Wrappings Workbench :=
  after (Gen.infer ctx first) fun a =>
  after (Gen.infer ctx second) fun b =>
  after (.ofExcept (Ty.pairOf a b span)) fun ty =>
  after (Gen.emit (·.newPair (.ofTy ty))) fun _ =>
  after (Gen.emit (·.dup)) fun _ w => l w ++ after (discard firstValue) (fun _ => l') w

mutual

/-- An expression. -/
def expr (ctx : CodeContext) : Expr → Wrappings Workbench
  | .pair first second _ span =>
    nested ctx span
      (pair ctx first second span (Gen.value ctx first) (expr ctx first) (expr ctx second))
  | .call ident args _ span =>
    nested ctx span
      (after (Gen.callee ctx ident args.length span) fun s => arguments ctx s 0 s.params args)
  | .literal _ _ _ | .var _ | .placeholder _ | .lambda _ _ _ => fun _ => []
termination_by structural e => e

/-- The arguments of a call, from a position on. -/
def arguments (ctx : CodeContext) (s : Signature) (position : Nat) (formals : List Param) :
    List Expr → Wrappings Workbench
  | [] => fun _ => []
  | e :: es =>
    match formals with
    | [] => fun _ => []
    | formal :: formals => fun w =>
      argument ctx formal e (Gen.value ctx e) (expr ctx e) w ++
        after (Gen.argument ctx s position formal e (Gen.value ctx e))
          (fun _ => arguments ctx s (position + 1) formals es) w
termination_by structural es => es

end

/-- A statement. -/
def stmt (ctx : CodeContext) : Stmt → Wrappings Workbench
  | .expr e | .ret e _ => expr ctx e
  | .decl _ _ _ => fun _ => []

/-- The statements of a body. -/
def stmts (ctx : CodeContext) : List Stmt → Wrappings Workbench
  | [] => fun _ => []
  | s :: rest =>
    after (Gen.setLine ctx s.span.line) fun _ w =>
      stmt ctx s w ++
        after (Gen.stmt ctx s)
          (fun _ =>
            match rest with
            | [] => fun _ => []
            | _ :: _ => after Gen.dropOperands fun _ => stmts ctx rest) w

/-- A function body. -/
def body (ctx : CodeContext) (ss : List Stmt) : Wrappings Workbench := framed ctx (stmts ctx ss)

/-! ## The walk -/

/-- An anonymous function that was not met before. -/
def compileLambda (functions : FunctionTable) (options : Options) (body : Expr) (span : Span) :
    Wrappings Walk := fun w =>
  match body.infer ⟨functions, .empty, w.table, options.maxDepth⟩ with
  | .error _ => []
  | .ok typing =>
    let ctx : CodeContext := ⟨functions, options, w.table⟩
    let s := Hoist.lambdaSignature w.session.nextId body typing.ty options.owner
    compileWith s .synthetic span 0 (returnBody ctx span (expr ctx body))
      { w.session with nextId := w.session.nextId + 1 }

/-- An anonymous function. -/
def lambda (functions : FunctionTable) (options : Options) (body : Expr) (text : String)
    (span : Span) : Wrappings Walk := fun w =>
  match w.table.get? text with
  | some _ => []
  | none =>
    match if body.isPlaceholder then w.identity? else none with
    | some _ => []
    | none => compileLambda functions options body span w

/-- A step of the walk. -/
def take (functions : FunctionTable) (options : Options) : WalkStep → Wrappings Walk
  | .enter _ _ => fun _ => []
  | .meet l => lambda functions options l.body l.text l.span

/-- Steps of the walk. -/
def takeAll (functions : FunctionTable) (options : Options) : List WalkStep → Wrappings Walk
  | [] => fun _ => []
  | t :: ts => fun w =>
    take functions options t w ++
      after (Hoist.take functions options t) (fun _ => takeAll functions options ts) w

/-! ## Declared functions -/

/-- A declared function. -/
def compileDecl (ctx : CodeContext) (d : Decl) : Wrappings Session :=
  after (.ofExcept (resolve ctx.functions d.name)) fun s =>
    compileWith s .user d.span 0 (body ctx d.body)

/-- Declared functions. -/
def compileDecls (ctx : CodeContext) : List Decl → Wrappings Session
  | [] => fun _ => []
  | d :: ds => fun S =>
    compileDecl ctx d S ++
      match Session.compileDecl ctx d S with
      | (.ok (), S) => compileDecls ctx ds S
      | (.error e, S) => compileDecls ctx ds (S.note (.functionFailed d.name.name e))

/-! ## What is listed -/

/-- A promotion that is completed is listed last, with the wrapper that is pushed. -/
theorem promote_of_ok {ctx : CodeContext} {e : Expr} {params : List Ty} {result : Ty} {value : Gen Ty}
    {l : Wrappings Workbench} {w w' : Workbench}
    (h : Gen.promote ctx e params result value w = (.ok (), w')) :
    ∃ inner s w₁, promote ctx e params result value l w = inner ++ [⟨.fn params result, e.text, s⟩] ∧
      Gen.bindFunction s w₁ = (.ok (), w') := by
  unfold promote
  cases Gen.promotion h with
  | @reused s _ _ hs hbind =>
    simp only [hs]
    exact ⟨[], s, _, rfl, hbind⟩
  | @wrapped s S _ _ hnone hconst hs hrun hbind =>
    simp only [hnone, hconst, hs, after_of_ok hrun]
    exact ⟨_, s, _, rfl, hbind⟩

end Wrappings

/-- The promotions that a compilation completes, in order. -/
def Block.wrappings (block : Block) (functions : FunctionTable) (options : Options) : List Wrapping :=
  Wrappings.takeAll functions options block.steps { session := .start } ++
    match Session.hoist functions options block .start with
    | (.ok lambdas, S) => Wrappings.compileDecls ⟨functions, options, lambdas⟩ block.decls S
    | (.error _, _) => []

end BlockCompiler
