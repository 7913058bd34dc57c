import BlockCompiler.Proofs.WholeBlock

/-!
# Inferred types are the types of the code

Types are found twice.  `Expr.infer` finds them before any code is written, from the syntax alone, and
looks into the bodies of anonymous functions but not into the arguments of calls.  `Gen.value` finds
them while it writes the code, looks up anonymous functions by their texts, and sees every argument.
What is checked with the one is done with the other, so they must agree.

* `Hoist.height_le_of_topLevel` says that a walk that succeeds has met no expression that nests too
  deeply, at any place of the block.  Inference on its own cannot fail for that reason any more.
* `value_type_agrees` is the agreement.  It holds in any state of the function under compilation and
  with any part of the table of anonymous functions, since some are compiled while that table grows.
-/

namespace BlockCompiler

/-! ## Heights in a block -/

namespace Expr

theorem heightAll_le {es : List Expr} {n : Nat} (h : ∀ e ∈ es, e.height < n) :
    heightAll es ≤ n := by
  induction es with
  | nil => exact Nat.zero_le n
  | cons e es ih =>
    have hhead := h e (by simp)
    have htail := ih fun e' he' => h e' (by simp [he'])
    rw [heightAll]
    omega

mutual

/-- No part of an expression is higher than the expression. -/
theorem height_le_of_mem_subexprs {e' : Expr} : ∀ e : Expr, e' ∈ e.subexprs →
    e'.height ≤ e.height
  | literal _ _ _, h | var _, h | placeholder _, h => by
    simp only [subexprs, List.mem_singleton] at h
    rw [h]
  | pair first second _ _, h => by
    rw [subexprs] at h
    rcases List.mem_cons.1 h with rfl | h
    · exact Nat.le_refl _
    rw [height]
    rcases List.mem_append.1 h with h | h
    · have := height_le_of_mem_subexprs first h
      omega
    · have := height_le_of_mem_subexprs second h
      omega
  | lambda body _ _, h => by
    rw [subexprs] at h
    rcases List.mem_cons.1 h with rfl | h
    · exact Nat.le_refl _
    have := height_le_of_mem_subexprs body h
    rw [height]
    omega
  | call _ args _ _, h => by
    rw [subexprs] at h
    rcases List.mem_cons.1 h with rfl | h
    · exact Nat.le_refl _
    have := height_lt_of_mem_subexprsAll args h
    rw [height]
    omega

theorem height_lt_of_mem_subexprsAll {e' : Expr} : ∀ es : List Expr, e' ∈ subexprsAll es →
    e'.height < heightAll es
  | [], h => by cases h
  | e :: es, h => by
    rw [subexprsAll] at h
    rw [heightAll]
    rcases List.mem_append.1 h with h | h
    · have := height_le_of_mem_subexprs e h
      omega
    · have := height_lt_of_mem_subexprsAll es h
      omega

end

end Expr

/-! ## The walk meets every expression -/

namespace Hoist

variable {functions : FunctionTable} {options : Options}

mutual

/-- A walk through an expression that succeeds was never too deep. -/
theorem height_le_of_expr : ∀ (e : Expr) {depth : Nat} {w w' : Walk},
    expr functions options depth e w = (.ok (), w') → depth + e.height ≤ options.maxDepth
  | .literal _ _ _, _, _, _, h | .var _, _, _, _, h | .placeholder _, _, _, _, h => by
    obtain ⟨hdepth, -⟩ := Attempt.ofExcept_eq_ok.1 h
    exact Expr.ensureDepth_eq_ok.1 hdepth
  | .pair first second _ _, depth, w, w', h => by
    obtain ⟨_, w₁, -, hrest⟩ := Attempt.bind_eq_ok.1 h
    obtain ⟨_, w₂, hfirst, hsecond⟩ := Attempt.bind_eq_ok.1 hrest
    have h₁ := height_le_of_expr first hfirst
    have h₂ := height_le_of_expr second hsecond
    rw [Expr.height]
    omega
  | .lambda body _ _, depth, w, w', h => by
    obtain ⟨_, w₁, -, hrest⟩ := Attempt.bind_eq_ok.1 h
    obtain ⟨_, w₂, hbody, -⟩ := Attempt.bind_eq_ok.1 hrest
    have hheight := height_le_of_expr body hbody
    rw [Expr.height]
    omega
  | .call _ args _ _, depth, w, w', h => by
    obtain ⟨_, w₁, hdepth, hargs⟩ := Attempt.bind_eq_ok.1 h
    obtain ⟨hdepth, -⟩ := Attempt.ofExcept_eq_ok.1 hdepth
    have hdepth := Expr.ensureDepth_eq_ok.1 hdepth
    have hheights := height_le_of_exprs args hargs
    have hall : Expr.heightAll args ≤ options.maxDepth - depth := by
      refine Expr.heightAll_le fun e he => ?_
      have := hheights e he
      omega
    rw [Expr.height]
    omega

theorem height_le_of_exprs : ∀ (es : List Expr) {depth : Nat} {w w' : Walk},
    exprs functions options depth es w = (.ok (), w') →
      ∀ e ∈ es, depth + e.height ≤ options.maxDepth
  | [], _, _, _, _, _, he => by cases he
  | e :: es, depth, w, w', h, e', he => by
    obtain ⟨_, w₁, hhead, htail⟩ := Attempt.bind_eq_ok.1 h
    have hheight := height_le_of_expr e hhead
    rcases List.mem_cons.1 he with rfl | he
    · exact hheight
    · exact height_le_of_exprs es htail e' he

end

mutual

theorem height_le_of_stmt : ∀ (s : Stmt) {depth : Nat} {w w' : Walk},
    stmt functions options depth s w = (.ok (), w') →
      ∀ e ∈ s.exprs, e.height ≤ options.maxDepth
  | .expr value, _, _, _, h, e, he => by
    obtain ⟨_, _, -, hvalue⟩ := Attempt.bind_eq_ok.1 h
    have hroot := height_le_of_expr value hvalue
    have hpart := Expr.height_le_of_mem_subexprs value he
    omega
  | .ret value _, _, _, _, h, e, he => by
    obtain ⟨_, _, -, hvalue⟩ := Attempt.bind_eq_ok.1 h
    have hroot := height_le_of_expr value hvalue
    have hpart := Expr.height_le_of_mem_subexprs value he
    omega
  | .decl _ body _, _, _, _, h, e, he => by
    obtain ⟨_, _, -, hbody⟩ := Attempt.bind_eq_ok.1 h
    exact height_le_of_stmts body hbody e he

theorem height_le_of_stmts : ∀ (ss : List Stmt) {depth : Nat} {w w' : Walk},
    stmts functions options depth ss w = (.ok (), w') →
      ∀ e ∈ Stmt.exprsAll ss, e.height ≤ options.maxDepth
  | [], _, _, _, _, _, he => by cases he
  | s :: ss, _, _, _, h, e, he => by
    obtain ⟨_, _, hhead, htail⟩ := Attempt.bind_eq_ok.1 h
    rcases List.mem_append.1 he with he | he
    · exact height_le_of_stmt s hhead e he
    · exact height_le_of_stmts ss htail e he

end

/-- A walk through a block that succeeds has met no expression that nests too deeply. -/
theorem height_le_of_topLevel : ∀ (ss : List Stmt) {w w' : Walk},
    topLevel functions options ss w = (.ok (), w') →
      ∀ e ∈ Stmt.exprsAll ss, e.height ≤ options.maxDepth
  | [], _, _, _, _, he => by cases he
  | .decl _ body _ :: ss, _, _, h, e, he => by
    obtain ⟨_, _, hhead, htail⟩ := Attempt.bind_eq_ok.1 h
    rcases List.mem_append.1 he with he | he
    · exact height_le_of_stmts body hhead e he
    · exact height_le_of_topLevel ss htail e he
  | .expr value :: ss, _, _, h, e, he => by
    obtain ⟨_, _, hhead, htail⟩ := Attempt.bind_eq_ok.1 h
    rcases List.mem_append.1 he with he | he
    · exact height_le_of_stmt (.expr value) hhead e he
    · exact height_le_of_topLevel ss htail e he
  | .ret value span :: ss, _, _, h, e, he => by
    obtain ⟨_, _, hhead, htail⟩ := Attempt.bind_eq_ok.1 h
    rcases List.mem_append.1 he with he | he
    · exact height_le_of_stmt (.ret value span) hhead e he
    · exact height_le_of_topLevel ss htail e he

end Hoist

/-! ## The agreement -/

/-- The type of an operand's code is the type of the expression. -/
theorem Gen.typeOf_of_value {ctx : CodeContext} {block : Block} (hctx : ctx.Fits block) {e : Expr}
    (he : e ∈ block.exprs) {w w' : Workbench} {t : Ty} (h : value ctx e w = (.ok t, w')) :
    e.typeOf ctx.functions w.frame.scope = some t := by
  obtain ⟨ms, hms, hwrote⟩ := value_wrote hctx he h
  have htype : e.typeOf ctx.functions w'.frame.scope = some t := hms.typeOf
  rwa [hwrote.frame] at htype

/-- The type that an anonymous function was announced with is the type of its body's code. -/
theorem Walk.Sound.result_eq {block : Block} {functions : FunctionTable} {w : Walk}
    (h : w.Sound block functions) {body : Expr} {text : String} {span : Span} {s : Signature}
    (he : Expr.lambda body text span ∈ block.exprs) (hs : w.table.get? text = some s) {t : Ty}
    (ht : body.typeOf functions (.ofParams s.params) = some t) : s.result = t := by
  obtain ⟨flags, chunk, -, hcompiled⟩ := h.session.compiled (.lambda he hs)
  obtain ⟨ms, hms, -⟩ := hcompiled.code
  obtain ⟨-, hannounced⟩ := h.lambdas he hs
  cases hms with
  | ret _ hbody haccepts =>
    have hcode : body.typeOf functions (.ofParams s.params) = _ := hbody.typeOf
    obtain rfl := Option.some.inj (hcode.symm.trans ht)
    simp only [Ty.acceptsAssign, Ty.acceptsDiscarding, Ty.isUnit, Bool.or_eq_true,
      beq_iff_eq] at haccepts
    rcases haccepts with heq | hunit
    · exact heq
    · rw [hunit] at hannounced ⊢
      exact (Expr.typeOf_eq_unit hannounced ht).symm

section Agreement

variable {functions : FunctionTable} {options : Options} {block : Block} {table lambdas : LambdaTable}

/-- In a block whose anonymous functions compile, the type that is inferred for an expression is the
type of its code, and the announced result of an anonymous function is the type of its body's code. -/
theorem value_type_agrees (hfaithful : block.TextFaithful)
    (hhoist : (Session.hoist functions options block .start).1 = .ok table)
    (hlambdas : ∀ {text s}, lambdas.get? text = some s → table.get? text = some s) :
    (∀ {e : Expr}, e ∈ block.exprs → ∀ {w w' : Workbench} {t : Ty},
      Gen.value ⟨functions, options, lambdas⟩ e w = (.ok t, w') →
        ∃ typing, e.infer ⟨functions, w.frame.scope, lambdas, options.maxDepth⟩ = .ok typing ∧
          typing.ty = t) ∧
    (∀ {body : Expr} {text : String} {span : Span} {s : Signature},
      Expr.lambda body text span ∈ block.exprs → table.get? text = some s →
      ∀ {w w' : Workbench} {t : Ty}, w.frame.scope = .ofParams s.params →
        Gen.value ⟨functions, options, lambdas⟩ body w = (.ok t, w') → s.result = t) := by
  have hwalk : (block.walk functions options).Sound block functions :=
    (Block.sound_walk options hfaithful).1
  rw [Block.hoist_eq] at hhoist
  split at hhoist
  next hrun =>
    obtain rfl := Except.ok.inj hhoist
    have hctx : CodeContext.Fits ⟨functions, options, lambdas⟩ block :=
      ⟨hfaithful, fun _ _ _ _ he hs => hwalk.lambdas he (hlambdas hs)⟩
    refine ⟨fun {e} he {w w' t} h => ?_, fun {body text span s} he hs {w w' t} hscope h => ?_⟩
    · have htype := Gen.typeOf_of_value hctx he h
      have hheight : 0 + e.height ≤ options.maxDepth := by
        have := Hoist.height_le_of_topLevel block.stmts (Prod.ext hrun rfl) e he
        omega
      exact Expr.inferAt_of_typeOf e htype hheight
    · have htype := Gen.typeOf_of_value hctx (Block.body_mem_exprs he) h
      rw [hscope] at htype
      exact hwalk.result_eq he hs htype
  next => cases hhoist

end Agreement

theorem value_type_agrees_identityBlock :
    ∃ (table : LambdaTable) (s : Signature) (typing : Typing),
      (Session.hoist .empty {} identityBlock .start).1 = .ok table ∧
      table.get? "{_}" = some s ∧ s.result = .real ∧
      (Expr.placeholder default).infer ⟨.empty, .ofParams [lambdaParam], table, 256⟩ =
        .ok typing ∧
      typing.ty = .real := by
  let table := (identityBlock.walk .empty {}).table
  let s : Signature := ⟨identityName, [lambdaParam], .real, "Main", false⟩
  let w : Workbench :=
    ⟨.start, { Frame.start s default 0 with scope := .ofParams [lambdaParam] }⟩
  have hhoist : (Session.hoist .empty {} identityBlock .start).1 = .ok table := rfl
  have htable : table.get? "{_}" = some s := by decide
  have hlambda : Expr.lambda (.placeholder default) "{_}" default ∈ identityBlock.exprs := by
    simp [exprs_identityBlock]
  have hrun : Gen.value ⟨.empty, {}, table⟩ (.placeholder default) w =
      (.ok .real, (Gen.value ⟨.empty, {}, table⟩ (.placeholder default) w).2) := rfl
  obtain ⟨hagrees, hresult⟩ := value_type_agrees textFaithful_identityBlock hhoist id
  obtain ⟨typing, htyping, hty⟩ := hagrees (Block.body_mem_exprs hlambda) hrun
  exact ⟨table, s, typing, hhoist, htable, hresult hlambda htable rfl hrun, htyping, hty⟩

end BlockCompiler
