import BlockCompiler.Proofs.ConstantGate

/-!
# Only mentioned functions matter

A compilation looks functions up in a table, by the names that the block writes: variables, callees,
and the functions that it declares.  Two tables that agree on those names lead to the same compilation.

* `Expr.names`, `Stmt.names` and `Block.names` list the names that are looked up.
* `FunctionTable.AgreeOn` compares two tables on a list of names.
* `Expr.inferAt_congr` and `Expr.isConstant_congr` are the inductions for the two static checks,
  `Gen.expr_congr` is the one for the code of expressions, and `Hoist.expr_congr` the one for the walk
  through anonymous functions.

Nothing is said of runs here.  Under both tables an expression has one and the same code generator, so
all that follows it is equal, whatever state it starts in and however it ends.
-/

namespace BlockCompiler

/-! ## Names as written -/

namespace Expr

mutual

/-- The names that an expression uses as variables and as callees. -/
def names : Expr → List String
  | literal _ _ _ | placeholder _ => []
  | pair first second _ _ => names first ++ names second
  | var ident => [ident.name]
  | lambda body _ _ => names body
  | call callee args _ _ => callee.name :: namesAll args
termination_by structural e => e

/-- The names that the expressions of a list use. -/
def namesAll : List Expr → List String
  | [] => []
  | e :: es => names e ++ namesAll es
termination_by structural es => es

end

end Expr

namespace Stmt

mutual

/-- The names that a statement uses.  The name of a nested declaration is not looked up. -/
def names : Stmt → List String
  | expr value => value.names
  | ret value _ => value.names
  | decl _ body _ => namesAll body
termination_by structural s => s

/-- The names that the statements of a list use. -/
def namesAll : List Stmt → List String
  | [] => []
  | s :: ss => names s ++ namesAll ss
termination_by structural ss => ss

end

end Stmt

/-- The names that occur in a block: those of the functions that it declares at its top level, and those
that its expressions use. -/
def Block.names (block : Block) : List String :=
  block.decls.map (fun d => d.name.name) ++ Stmt.namesAll block.stmts

/-- Whether two tables have the same function under each name of a list, or both have none. -/
def FunctionTable.AgreeOn (t t' : FunctionTable) (names : List String) : Prop :=
  ∀ name ∈ names, t.get? name = t'.get? name

namespace FunctionTable.AgreeOn

variable {t t' : FunctionTable} {names names' : List String}

theorem of_subset (h : t.AgreeOn t' names) (hsub : names' ⊆ names) : t.AgreeOn t' names' :=
  fun name hname => h name (hsub hname)

theorem left (h : t.AgreeOn t' (names ++ names')) : t.AgreeOn t' names :=
  h.of_subset (List.subset_append_left _ _)

theorem right (h : t.AgreeOn t' (names ++ names')) : t.AgreeOn t' names' :=
  h.of_subset (List.subset_append_right _ _)

theorem tail {name : String} (h : t.AgreeOn t' (name :: names)) : t.AgreeOn t' names :=
  h.of_subset (List.subset_cons_self _ _)

theorem resolve_eq {ident : Ident} (h : t.AgreeOn t' (ident.name :: names)) :
    resolve t ident = resolve t' ident := by
  unfold resolve
  rw [h ident.name (by simp)]

end FunctionTable.AgreeOn

/-! ## Static checks -/

namespace Expr

variable {functions functions' : FunctionTable}

/-- The type of an expression depends on the functions that it names. -/
theorem inferAt_congr {lambdas : LambdaTable} {whole : Scope} {maxDepth : Nat} : ∀ (e : Expr)
    (scope : Scope) (depth : Nat), functions.AgreeOn functions' e.names →
      e.inferAt ⟨functions, whole, lambdas, maxDepth⟩ scope depth =
        e.inferAt ⟨functions', whole, lambdas, maxDepth⟩ scope depth
  | literal _ _ _, _, _, _ | placeholder _, _, _, _ => rfl
  | pair first second _ _, scope, depth, h => by
    rw [inferAt, inferAt, inferAt_congr first scope (depth + 1) h.left,
      inferAt_congr second scope (depth + 1) h.right]
  | var ident, scope, _, h => by
    rw [inferAt, inferAt, inferName, inferName, h ident.name (by simp [names])]
  | lambda body _ _, _, depth, h => by
    rw [inferAt, inferAt, inferAt_congr body .empty (depth + 1) h]
  | call _ _ _ _, _, _, h => by
    rw [inferAt, inferAt, h.resolve_eq]

mutual

/-- Whether an expression is constant depends on the functions that it names. -/
theorem isConstantAt_congr {maxDepth : Nat} : ∀ (e : Expr) (depth : Nat),
    functions.AgreeOn functions' e.names →
      e.isConstantAt functions maxDepth depth = e.isConstantAt functions' maxDepth depth
  | literal value _ _, _, _ => by cases value <;> rfl
  | pair _ _ _ _, _, _ | var _, _, _ | placeholder _, _, _ | lambda _ _ _, _, _ => rfl
  | call callee args _ _, depth, h => by
    rw [isConstantAt, isConstantAt, h callee.name (by simp [names]),
      areConstantAt_congr args (depth + 1) h.tail]

theorem areConstantAt_congr {maxDepth : Nat} : ∀ (es : List Expr) (depth : Nat),
    functions.AgreeOn functions' (namesAll es) →
      areConstantAt functions maxDepth depth es = areConstantAt functions' maxDepth depth es
  | [], _, _ => rfl
  | e :: es, depth, h => by
    rw [areConstantAt, areConstantAt, isConstantAt_congr e depth h.left,
      areConstantAt_congr es depth h.right]

end

theorem ensureConstant_congr {e : Expr} (h : functions.AgreeOn functions' e.names) (maxDepth : Nat) :
    e.ensureConstant functions maxDepth = e.ensureConstant functions' maxDepth := by
  unfold ensureConstant isConstant
  rw [isConstantAt_congr e 0 h]

end Expr

/-! ## Code -/

namespace Gen

section Congruence

variable {functions functions' : FunctionTable} {options : Options} {lambdas : LambdaTable}

theorem infer_congr {e : Expr} (h : functions.AgreeOn functions' e.names) :
    infer ⟨functions, options, lambdas⟩ e = infer ⟨functions', options, lambdas⟩ e := by
  unfold infer Expr.infer
  simp only [Expr.inferAt_congr e _ _ h]

theorem reference_congr {ident : Ident} (h : functions.AgreeOn functions' [ident.name]) :
    reference ⟨functions, options, lambdas⟩ ident = reference ⟨functions', options, lambdas⟩ ident := by
  unfold reference
  simp only [h ident.name (by simp)]

theorem callee_congr {ident : Ident} {names : List String}
    (h : functions.AgreeOn functions' (ident.name :: names)) (argCount : Nat) (span : Span) :
    callee ⟨functions, options, lambdas⟩ ident argCount span =
      callee ⟨functions', options, lambdas⟩ ident argCount span := by
  unfold callee
  simp only [h.resolve_eq]

/-- What surrounds the statements of a function looks no function up. -/
theorem declareParams_congr (functions' : FunctionTable) (ps : List Param) :
    declareParams ⟨functions, options, lambdas⟩ ps = declareParams ⟨functions', options, lambdas⟩ ps := by
  induction ps with
  | nil => rfl
  | cons p ps ih =>
    rw [declareParams, declareParams, ih]
    rfl

theorem framed_congr (functions' : FunctionTable) (code : Gen Unit) :
    framed ⟨functions, options, lambdas⟩ code = framed ⟨functions', options, lambdas⟩ code := by
  unfold framed
  simp only [declareParams_congr functions']

theorem returnBody_congr (functions' : FunctionTable) (text : String) (span : Span) (value : Gen Ty) :
    returnBody ⟨functions, options, lambdas⟩ text span value =
      returnBody ⟨functions', options, lambdas⟩ text span value :=
  framed_congr _ _

theorem promote_congr {e : Expr} (h : functions.AgreeOn functions' e.names) (params : List Ty)
    (result : Ty) (value : Gen Ty) :
    promote ⟨functions, options, lambdas⟩ e params result value =
      promote ⟨functions', options, lambdas⟩ e params result value := by
  unfold promote
  simp only [Expr.ensureConstant_congr h, returnBody_congr functions']

theorem argument_congr {e : Expr} (h : functions.AgreeOn functions' e.names) (s : Signature)
    (position : Nat) (formal : Param) (value : Gen Ty) :
    argument ⟨functions, options, lambdas⟩ s position formal e value =
      argument ⟨functions', options, lambdas⟩ s position formal e value := by
  unfold argument
  simp only [infer_congr h, promote_congr h]

theorem pair_congr {first second : Expr} (hfirst : functions.AgreeOn functions' first.names)
    (hsecond : functions.AgreeOn functions' second.names) (span : Span) (x y : Gen Ty) :
    pair ⟨functions, options, lambdas⟩ first second span x y =
      pair ⟨functions', options, lambdas⟩ first second span x y := by
  unfold pair
  simp only [infer_congr hfirst, infer_congr hsecond]

mutual

/-- The code of an expression depends on the functions that it names. -/
theorem expr_congr : ∀ e : Expr, functions.AgreeOn functions' e.names →
    expr ⟨functions, options, lambdas⟩ e = expr ⟨functions', options, lambdas⟩ e
  | .literal _ _ _, _ | .placeholder _, _ | .lambda _ _ _, _ => rfl
  | .pair first second _ span, h => by
    rw [expr, expr, expr_congr first h.left, expr_congr second h.right, pair_congr h.left h.right]
    rfl
  | .var ident, h => by
    rw [expr, expr, reference_congr h]
    rfl
  | .call ident args _ span, h => by
    rw [expr, expr, callee_congr h]
    simp only [arguments_congr args h.tail]
    rfl

theorem arguments_congr : ∀ es : List Expr, functions.AgreeOn functions' (Expr.namesAll es) →
    ∀ (s : Signature) (position : Nat) (formals : List Param),
      arguments ⟨functions, options, lambdas⟩ s position formals es =
        arguments ⟨functions', options, lambdas⟩ s position formals es
  | [], _, _, _, _ | _ :: _, _, _, _, [] => rfl
  | e :: es, h, s, position, formal :: formals => by
    rw [arguments, arguments, expr_congr e h.left, argument_congr h.left]
    simp only [arguments_congr es h.right]

end

theorem value_congr {e : Expr} (h : functions.AgreeOn functions' e.names) :
    value ⟨functions, options, lambdas⟩ e = value ⟨functions', options, lambdas⟩ e := by
  rw [value, value, expr_congr e h]

theorem stmt_congr {s : Stmt} (h : functions.AgreeOn functions' s.names) :
    stmt ⟨functions, options, lambdas⟩ s = stmt ⟨functions', options, lambdas⟩ s := by
  cases s with
  | expr e => exact expr_congr e h
  | ret e span => rw [stmt, stmt, value_congr h]
  | decl ident body span => rfl

theorem stmts_congr : ∀ ss : List Stmt, functions.AgreeOn functions' (Stmt.namesAll ss) →
    stmts ⟨functions, options, lambdas⟩ ss = stmts ⟨functions', options, lambdas⟩ ss
  | [], _ => rfl
  | [s], h => by
    rw [stmts, stmts, stmt_congr h.left]
    rfl
  | s :: s' :: rest, h => by
    rw [stmts, stmts, stmt_congr h.left, stmts_congr (s' :: rest) h.right]
    rfl

theorem body_congr {ss : List Stmt} (h : functions.AgreeOn functions' (Stmt.namesAll ss)) :
    body ⟨functions, options, lambdas⟩ ss = body ⟨functions', options, lambdas⟩ ss := by
  rw [body, body, stmts_congr ss h, framed_congr functions']

end Congruence

end Gen

/-! ## Anonymous functions -/

namespace Hoist

section Congruence

variable {functions functions' : FunctionTable} {options : Options}

theorem lambda_congr {body : Expr} (h : functions.AgreeOn functions' body.names) (text : String)
    (span : Span) :
    lambda functions options body text span = lambda functions' options body text span := by
  unfold lambda compileLambda Expr.infer
  simp only [Expr.inferAt_congr body _ _ h, Gen.value_congr h,
    Gen.returnBody_congr functions']

mutual

/-- What the walk does at an expression depends on the functions that the expression names. -/
theorem expr_congr : ∀ (e : Expr) (depth : Nat), functions.AgreeOn functions' e.names →
    expr functions options depth e = expr functions' options depth e
  | .literal _ _ _, _, _ | .placeholder _, _, _ | .var _, _, _ => rfl
  | .pair first second _ _, depth, h => by
    rw [expr, expr, expr_congr first (depth + 1) h.left, expr_congr second (depth + 1) h.right]
  | .lambda body text span, depth, h => by
    have hbody : functions.AgreeOn functions' body.names := h
    rw [expr, expr, expr_congr body (depth + 1) hbody, lambda_congr hbody]
  | .call _ args _ _, depth, h => by
    rw [expr, expr, exprs_congr args (depth + 1) h.tail]

theorem exprs_congr : ∀ (es : List Expr) (depth : Nat),
    functions.AgreeOn functions' (Expr.namesAll es) →
      exprs functions options depth es = exprs functions' options depth es
  | [], _, _ => rfl
  | e :: es, depth, h => by
    rw [exprs, exprs, expr_congr e depth h.left, exprs_congr es depth h.right]

end

mutual

theorem stmt_congr : ∀ (s : Stmt) (depth : Nat), functions.AgreeOn functions' s.names →
    stmt functions options depth s = stmt functions' options depth s
  | .expr e, depth, h | .ret e _, depth, h => by
    rw [stmt, stmt, expr_congr e depth h]
  | .decl _ body _, depth, h => by
    rw [stmt, stmt, stmts_congr body (depth + 1) h]

theorem stmts_congr : ∀ (ss : List Stmt) (depth : Nat),
    functions.AgreeOn functions' (Stmt.namesAll ss) →
      stmts functions options depth ss = stmts functions' options depth ss
  | [], _, _ => rfl
  | s :: ss, depth, h => by
    rw [stmts, stmts, stmt_congr s depth h.left, stmts_congr ss depth h.right]

end

theorem topLevel_congr : ∀ ss : List Stmt, functions.AgreeOn functions' (Stmt.namesAll ss) →
    topLevel functions options ss = topLevel functions' options ss
  | [], _ => rfl
  | .expr _ :: ss, h | .ret _ _ :: ss, h => by
    simp only [topLevel, stmt_congr _ 0 h.left, topLevel_congr ss h.right]
  | .decl _ body _ :: ss, h => by
    have hbody : functions.AgreeOn functions' (Stmt.namesAll body) := h.left
    simp only [topLevel, stmts_congr body 0 hbody, topLevel_congr ss h.right]

end Congruence

end Hoist

/-! ## Blocks -/

namespace Session

variable {functions functions' : FunctionTable} {options : Options}

theorem hoist_congr {block : Block} (h : functions.AgreeOn functions' block.names) :
    hoist functions options block = hoist functions' options block := by
  unfold hoist
  rw [Hoist.topLevel_congr block.stmts h.right]

theorem compileDecl_congr {lambdas : LambdaTable} {d : Decl}
    (h : functions.AgreeOn functions' (d.name.name :: Stmt.namesAll d.body)) :
    compileDecl ⟨functions, options, lambdas⟩ d = compileDecl ⟨functions', options, lambdas⟩ d := by
  unfold compileDecl
  rw [h.resolve_eq, Gen.body_congr h.tail]

theorem compileDecls_congr {lambdas : LambdaTable} (ds : List Decl)
    (h : ∀ d ∈ ds, functions.AgreeOn functions' (d.name.name :: Stmt.namesAll d.body)) (S : Session) :
    S.compileDecls ⟨functions, options, lambdas⟩ ds =
      S.compileDecls ⟨functions', options, lambdas⟩ ds := by
  induction ds generalizing S with
  | nil => rfl
  | cons d ds ih =>
    have hrest := ih fun d' hd' => h d' (by simp [hd'])
    simp only [compileDecls, compileDecl_congr (h d (by simp)), hrest]

end Session

theorem Stmt.namesAll_subset {s : Stmt} {ss : List Stmt} (hs : s ∈ ss) : s.names ⊆ namesAll ss := by
  induction ss with
  | nil => cases hs
  | cons s' ss ih =>
    rw [namesAll]
    rcases List.mem_cons.1 hs with rfl | hs
    · exact List.subset_append_left _ _
    · exact List.subset_append_of_subset_right _ (ih hs)

/-- The names in a declaration of a block are names in the block. -/
theorem Block.names_of_mem_decls {block : Block} {d : Decl} (hd : d ∈ block.decls) :
    d.name.name :: Stmt.namesAll d.body ⊆ block.names := by
  have hbody : Stmt.namesAll d.body ⊆ Stmt.namesAll block.stmts := by
    simp only [decls, List.mem_filterMap] at hd
    obtain ⟨s, hs, hd⟩ := hd
    cases s with
    | decl name body span =>
      cases hd
      exact Stmt.namesAll_subset hs
    | _ => cases hd
  refine List.cons_subset.2 ⟨?_, List.subset_append_of_subset_right _ hbody⟩
  exact List.mem_append_left _ (List.mem_map_of_mem hd)

/-- Only the functions that a block mentions matter.  Two tables that agree on the names that occur in a
block compile it to the same module, with the same errors and the same journal.  In particular, a
function that the block does not name can be added to the table, or take the place of another one. -/
theorem unmentioned_functions_change_nothing (functions functions' : FunctionTable) (options : Options)
    (block : Block) (h : functions.AgreeOn functions' block.names) :
    compileBlock functions options block = compileBlock functions' options block ∧
      ∀ s : Signature, s.name ∉ block.names →
        compileBlock (functions.insert s) options block = compileBlock functions options block := by
  have hsame {t t' : FunctionTable} (hagree : t.AgreeOn t' block.names) :
      compileBlock t options block = compileBlock t' options block := by
    have hdecls {lambdas : LambdaTable} {S : Session} :
        S.compileDecls ⟨t, options, lambdas⟩ block.decls =
          S.compileDecls ⟨t', options, lambdas⟩ block.decls :=
      Session.compileDecls_congr block.decls
        (fun d hd => hagree.of_subset (Block.names_of_mem_decls hd)) S
    simp only [compileBlock, Session.hoist_congr hagree, hdecls]
  refine ⟨hsame h, fun s hs => hsame fun name hname => ?_⟩
  rw [FunctionTable.get?_insert, if_neg]
  rintro rfl
  exact hs hname

theorem unmentioned_functions_change_nothing_constantBlock :
    let functions := constantFunctions.insert ⟨"k", [], .int, "Main", true⟩
    let functions' := constantFunctions.insert ⟨"k", [⟨"x", .real⟩], .string, "Other", false⟩
    constantBlock.names = ["f", "g", "h"] ∧
      functions.get? "k" ≠ functions'.get? "k" ∧
      functions.AgreeOn functions' constantBlock.names ∧
      compileBlock functions {} constantBlock = compileBlock functions' {} constantBlock ∧
      compileBlock (functions.insert ⟨"_", [], .unit, "Main", false⟩) {} constantBlock =
        compileBlock functions {} constantBlock ∧
      (compileBlock functions {} constantBlock).module.functions.map Entry.name =
        ["f", "_lambda_0$constant", "_lambda_1$constant"] := by
  intro functions functions'
  have hnames : constantBlock.names = ["f", "g", "h"] := by decide +kernel
  have hagree : functions.AgreeOn functions' constantBlock.names := by
    intro name hname
    have hne : "k" ≠ name := by
      rintro rfl
      rw [hnames] at hname
      revert hname
      decide
    simp only [functions, functions', FunctionTable.get?_insert, if_neg hne]
  obtain ⟨hsame, hinsert⟩ := unmentioned_functions_change_nothing functions functions' {} constantBlock
    hagree
  refine ⟨hnames, ?_, hagree, hsame, hinsert _ ?_, by decide +kernel⟩
  · simp [functions, functions', FunctionTable.get?_insert]
  · rw [hnames]
    decide

end BlockCompiler
