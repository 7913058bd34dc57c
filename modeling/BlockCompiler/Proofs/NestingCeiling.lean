import BlockCompiler.Proofs.Additions
import BlockCompiler.Proofs.DeclarationOrder
import BlockCompiler.Proofs.Depths

/-!
# The limit of nesting

Four checks bound how deep a block may nest, and each counts from a place of its own: the walk through
the anonymous functions, the inference of types, the test for constants, and the compilation itself,
where the code of a wrapper begins one level below the constant that it wraps.

* `Hoist.reach_le_of_topLevel` says that a walk that succeeds was never too deep.
* `Session.Explains` is what is shown of a failure: if it says that something nests too deeply, the levels
  exceed the limit, and either the height does as well or a wrapper was abandoned with it.
* `Gen.explained_expr` is the induction on expressions, `Gen.explained_body` the same for bodies and
  `Hoist.explained_topLevel` for the walk.
-/

namespace BlockCompiler

/-! ## Walks that succeed -/

namespace Hoist

variable {functions : FunctionTable} {options : Options}

mutual

theorem reach_le_of_stmt : ∀ (s : Stmt) {depth : Nat} {w w' : Walk},
    stmt functions options depth s w = (.ok (), w') → s.reach Expr.height depth ≤ options.maxDepth
  | .expr e, _, _, _, h | .ret e _, _, _, _, h => by
    obtain ⟨_, _, -, hvalue⟩ := Attempt.bind_eq_ok.1 h
    exact height_le_of_expr e hvalue
  | .decl _ body _, _, _, _, h => by
    obtain ⟨_, _, hdepth, hbody⟩ := Attempt.bind_eq_ok.1 h
    have hdepth := Expr.ensureDepth_eq_ok.1 (Attempt.ofExcept_eq_ok.1 hdepth).1
    exact Nat.max_le.2 ⟨hdepth, reach_le_of_stmts body hbody⟩

theorem reach_le_of_stmts : ∀ (ss : List Stmt) {depth : Nat} {w w' : Walk},
    stmts functions options depth ss w = (.ok (), w') →
      Stmt.reachAll Expr.height depth ss ≤ options.maxDepth
  | [], _, _, _, _ => Nat.zero_le _
  | s :: ss, _, _, _, h => by
    obtain ⟨_, _, hhead, htail⟩ := Attempt.bind_eq_ok.1 h
    exact Nat.max_le.2 ⟨reach_le_of_stmt s hhead, reach_le_of_stmts ss htail⟩

end

/-- A walk through a block that succeeds was never too deep. -/
theorem reach_le_of_topLevel : ∀ (ss : List Stmt) {w w' : Walk},
    topLevel functions options ss w = (.ok (), w') →
      Stmt.reachTopAll Expr.height ss ≤ options.maxDepth
  | [], _, _, _ => Nat.zero_le _
  | s :: ss, _, _, h => by
    rw [topLevel_cons] at h
    obtain ⟨_, _, hhead, htail⟩ := Attempt.bind_eq_ok.1 h
    refine Nat.max_le.2 ⟨?_, reach_le_of_topLevel ss htail⟩
    cases s with
    | expr | ret =>
      obtain ⟨_, _, hstmt, -⟩ := Attempt.bind_eq_ok.1 hhead
      exact reach_le_of_stmt _ hstmt
    | decl _ body _ =>
      obtain ⟨_, _, hbody, -⟩ := Attempt.bind_eq_ok.1 hhead
      exact reach_le_of_stmts body hbody

end Hoist

/-! ## Steps that are never too deep -/

/-- Whether an error says that something nests too deeply. -/
def CompileError.isTooDeep (e : CompileError) : Bool :=
  match e.cause with
  | .nestingTooDeep _ => true
  | _ => false

theorem resolve_not_tooDeep {functions : FunctionTable} {callee : Ident} {err : CompileError}
    (h : resolve functions callee = .error err) : err.isTooDeep = false := by
  unfold resolve at h
  split at h <;> cases h
  rfl

theorem Ty.pairOf_not_tooDeep {t u : Ty} {span : Span} {err : CompileError}
    (h : Ty.pairOf t u span = .error err) : err.isTooDeep = false := by
  unfold Ty.pairOf at h
  split at h
  · split at h <;> cases h
  · cases h
    rfl

theorem Expr.ensureConstant_not_tooDeep {functions : FunctionTable} {maxDepth : Nat} {e : Expr}
    {err : CompileError} (h : e.ensureConstant functions maxDepth = .error err) :
    err.isTooDeep = false := by
  unfold ensureConstant at h
  split at h <;> cases h
  rfl

theorem ensureDepth_tooDeep {limit depth : Nat} {span : Span} {err : CompileError}
    (h : ensureDepth limit depth span = .error err) : limit < depth := by
  unfold ensureDepth at h
  split at h
  · assumption
  · cases h

/-- Inference is too deep only for expressions that are too high. -/
theorem Expr.inferAt_tooDeep {ctx : TypingContext} {err : CompileError} (hdeep : err.isTooDeep = true) :
    ∀ (e : Expr) {scope : Scope} {depth : Nat}, e.inferAt ctx scope depth = .error err →
      ctx.maxDepth < depth + e.height
  | literal value text span, scope, depth, h => by
    rw [inferAt, except_bind_eq_error] at h
    obtain h | ⟨_, _, h⟩ := h
    · exact ensureDepth_tooDeep h
    · cases h
  | pair first second text span, scope, depth, h => by
    rw [inferAt, except_bind_eq_error] at h
    rw [height]
    obtain h | ⟨_, _, h⟩ := h
    · have := ensureDepth_tooDeep h
      omega
    obtain h | ⟨_, _, h⟩ := except_bind_eq_error.1 h
    · have := inferAt_tooDeep hdeep first h
      omega
    obtain h | ⟨_, _, h⟩ := except_bind_eq_error.1 h
    · have := inferAt_tooDeep hdeep second h
      omega
    obtain h | ⟨_, _, h⟩ := except_bind_eq_error.1 h
    · rw [Ty.pairOf_not_tooDeep h] at hdeep
      cases hdeep
    · cases h
  | var name, scope, depth, h => by
    rw [inferAt, except_bind_eq_error] at h
    obtain h | ⟨_, _, h⟩ := h
    · exact ensureDepth_tooDeep h
    unfold inferName at h
    split at h
    · cases h
    · split at h <;> cases h
      cases hdeep
  | placeholder span, scope, depth, h => by
    rw [inferAt, except_bind_eq_error] at h
    obtain h | ⟨_, _, h⟩ := h
    · exact ensureDepth_tooDeep h
    · cases h
  | lambda body text span, scope, depth, h => by
    rw [inferAt, except_bind_eq_error] at h
    rw [height]
    obtain h | ⟨_, _, h⟩ := h
    · have := ensureDepth_tooDeep h
      omega
    obtain h | ⟨_, _, h⟩ := except_bind_eq_error.1 h
    · have := inferAt_tooDeep hdeep body h
      omega
    · cases h
  | call callee args text span, scope, depth, h => by
    rw [inferAt, except_bind_eq_error] at h
    obtain h | ⟨_, _, h⟩ := h
    · have := ensureDepth_tooDeep h
      omega
    obtain h | ⟨_, _, h⟩ := except_bind_eq_error.1 h
    · rw [resolve_not_tooDeep h] at hdeep
      cases hdeep
    · cases h

namespace Gen

/-- Whether a step never fails because something nests too deeply. -/
abbrev Shallow {α : Type} (x : Gen α) : Prop :=
  ∀ w, Attempt.FailsWithin (fun err _ => err.isTooDeep = false) x w

section Shallow

variable {α β : Type} {ctx : CodeContext}

theorem Shallow.bind {x : Gen α} {f : α → Gen β} (hx : Shallow x) (hf : ∀ a, Shallow (f a)) :
    Shallow (x >>= f) :=
  fun w => .bind (hx w) fun a w' _ => hf a w'

theorem shallow_fail {err : CompileError} (h : err.isTooDeep = false) : Shallow (.fail err : Gen α) := by
  intro w err' w' hrun
  cases hrun
  exact h

theorem shallow_pure (a : α) : Shallow (pure a) := fun _ => Attempt.failsWithin_of_ok rfl

theorem shallow_frame : Shallow frame := fun _ => Attempt.failsWithin_of_ok rfl

theorem shallow_modifyFrame (f : Frame → Frame) : Shallow (modifyFrame f) :=
  fun _ => Attempt.failsWithin_of_ok rfl

theorem shallow_emitPooled (f : Emitter → Pool → Emitter × Pool) : Shallow (emitPooled f) :=
  fun _ => Attempt.failsWithin_of_ok rfl

theorem shallow_label : Shallow label := fun _ => Attempt.failsWithin_of_ok rfl

theorem shallow_popTy (context : String) (span : Span) : Shallow (popTy context span) := by
  intro w err w' hrun
  unfold popTy TypeStack.pop at hrun
  cases htypes : w.frame.operands.types <;> rw [htypes] at hrun <;> cases hrun
  rfl

theorem shallow_ensureNoOperands (context : String) (span : Span) :
    Shallow (ensureNoOperands context span) := by
  intro w err w' hrun
  unfold ensureNoOperands TypeStack.ensureEmpty at hrun
  split at hrun <;> cases hrun
  rfl

theorem shallow_setLine (line : Nat) : Shallow (setLine ctx line) := by
  unfold setLine
  split
  · exact shallow_modifyFrame _
  · exact shallow_pure _

theorem shallow_literal (value : Literal) : Shallow (literal value) := by
  intro w err w' hrun
  cases value <;> cases hrun

theorem shallow_bindFunction (s : Signature) : Shallow (bindFunction s) :=
  .bind (shallow_emitPooled _) fun _ => shallow_modifyFrame _

theorem shallow_loadVar (v : LocalVar) : Shallow (loadVar v) :=
  .bind (shallow_modifyFrame _) fun _ => shallow_modifyFrame _

theorem shallow_reference (ident : Ident) : Shallow (reference ctx ident) := by
  refine .bind shallow_frame fun fr => ?_
  split
  · exact shallow_loadVar _
  · split
    · exact shallow_bindFunction _
    · exact shallow_fail rfl

theorem shallow_placeholder (span : Span) : Shallow (placeholder span) := by
  refine .bind shallow_frame fun fr => ?_
  split
  · split
    · exact shallow_loadVar _
    · exact shallow_fail rfl
  · exact shallow_fail rfl

theorem shallow_lambda (text : String) (span : Span) : Shallow (lambda ctx text span) := by
  unfold lambda
  split
  · exact shallow_bindFunction _
  · exact shallow_fail rfl

theorem shallow_callee (ident : Ident) (argCount : Nat) (span : Span) :
    Shallow (callee ctx ident argCount span) := by
  refine .bind (fun w => Attempt.failsWithin_ofExcept fun err h => resolve_not_tooDeep h) fun s => ?_
  split
  · exact shallow_pure _
  · exact shallow_fail rfl

theorem shallow_finishCall (s : Signature) (argCount : Nat) (text : String) (span : Span) :
    Shallow (finishCall s argCount text span) := by
  unfold finishCall
  split
  · refine .bind (shallow_emitPooled _) fun _ => ?_
    split
    · exact shallow_pure _
    · exact shallow_modifyFrame _
  · exact shallow_fail rfl

theorem shallow_returnTop (t : Ty) : Shallow (returnTop t) := fun _ => Attempt.failsWithin_of_ok rfl

theorem shallow_returnUnit : Shallow returnUnit :=
  .bind (shallow_modifyFrame _) fun _ => .bind (shallow_modifyFrame _) fun _ => shallow_returnTop _

theorem shallow_returnLeft (span : Span) : Shallow (returnLeft span) := by
  refine .bind shallow_frame fun fr => ?_
  dsimp only
  split
  · split
    · exact .bind (shallow_modifyFrame _) fun _ => shallow_returnTop _
    · exact shallow_fail rfl
  · refine .bind (shallow_popTy _ _) fun actual => ?_
    split
    · exact shallow_returnTop _
    · split
      · exact shallow_returnUnit
      · exact shallow_fail rfl
  · exact shallow_ensureNoOperands _ _

theorem shallow_declareParams : ∀ ps : List Param, Shallow (declareParams ctx ps)
  | [] => shallow_pure _
  | p :: ps => by
    have hscope (fr : Frame) :
        Shallow (scope (Scope.declare p.name p.ty fr.signature.name fr.site)) := by
      intro w err w' hrun
      unfold scope Scope.declare at hrun
      dsimp only at hrun
      split_ifs at hrun <;> cases hrun <;> rfl
    refine .bind (.bind shallow_frame fun fr => .bind (fun w => (hscope fr w).discard) fun _ => ?_)
      fun _ => shallow_declareParams ps
    split
    · exact shallow_modifyFrame _
    · exact shallow_pure _

end Shallow

end Gen

/-! ## Failures that are explained -/

/-- An error that says that something nests too deeply is explained by the levels that there were to
compile.  Where the height alone does not explain it, a wrapper was abandoned with this error. -/
def Session.Explains (limit levels height : Nat) (err : CompileError) (S : Session) : Prop :=
  err.isTooDeep = true →
    limit < levels ∧ (limit < height ∨ ∃ id, Event.abandoned (Gen.wrapperName id) err ∈ S.journal)

namespace Session

variable {limit levels levels' height height' : Nat} {err : CompileError} {S S' : Session}

theorem explains_of_not_tooDeep (h : err.isTooDeep = false) : S.Explains limit levels height err := by
  intro hdeep
  rw [h] at hdeep
  cases hdeep

theorem Explains.mono (h : S.Explains limit levels height err) (hlevels : levels ≤ levels')
    (hheight : height ≤ height') : S.Explains limit levels' height' err := by
  intro hdeep
  obtain ⟨hlt, hcause⟩ := h hdeep
  exact ⟨by omega, hcause.imp_left fun hlt => by omega⟩

theorem Explains.recalls (h : S.Explains limit levels height err) (hrecalls : S.Recalls S') :
    S'.Explains limit levels height err := by
  intro hdeep
  obtain ⟨hlt, hcause⟩ := h hdeep
  exact ⟨hlt, hcause.imp_right fun ⟨id, hid⟩ => ⟨id, hrecalls _ hid⟩⟩

end Session

namespace Gen

/-- Whether the failures of a step in the generation of code are explained. -/
abbrev Explained {α : Type} (limit levels height : Nat) (x : Gen α) (w : Workbench) : Prop :=
  Attempt.FailsWithin (fun err w' => w'.session.Explains limit levels height err) x w

section Explained

variable {α : Type} {ctx : CodeContext} {limit levels levels' height height' : Nat} {w : Workbench}

theorem Shallow.explained {x : Gen α} (h : Shallow x) (w : Workbench) :
    Explained limit levels height x w :=
  fun err w' hrun => Session.explains_of_not_tooDeep (h w err w' hrun)

theorem Explained.mono {x : Gen α} (h : Explained limit levels height x w) (hlevels : levels ≤ levels')
    (hheight : height ≤ height') : Explained limit levels' height' x w :=
  fun err w' hrun => (h err w' hrun).mono hlevels hheight

theorem Explained.bind_shallow {β : Type} {x : Gen α} {f : α → Gen β}
    (hx : Explained limit levels height x w) (hf : ∀ a, Shallow (f a)) :
    Explained limit levels height (x >>= f) w :=
  .bind hx fun a w' _ => (hf a).explained w'

theorem explained_nested {span : Span} {x : Gen Unit} (hlevels : w.frame.depth ≤ levels)
    (hheight : w.frame.depth ≤ height)
    (hx : Explained ctx.options.maxDepth levels height x { w with frame.depth := w.frame.depth + 1 }) :
    Explained ctx.options.maxDepth levels height (nested ctx span x) w := by
  refine .bind (shallow_frame.explained w) fun fr w₁ hframe => ?_
  cases hframe
  refine .bind (Attempt.failsWithin_ofExcept fun err herr _ => ?_) fun _ w₂ hok => ?_
  · have hlt := ensureDepth_tooDeep herr
    exact ⟨by omega, .inl (by omega)⟩
  obtain ⟨-, rfl⟩ := Attempt.ofExcept_eq_ok.1 hok
  refine .bind ((shallow_modifyFrame _).explained _) fun _ w₃ hdeeper => ?_
  cases hdeeper
  exact .ending hx

theorem explained_infer {e : Expr} (hlevels : e.levels ctx.functions ctx.options.maxDepth ≤ levels)
    (hheight : e.height ≤ height) : Explained ctx.options.maxDepth levels height (infer ctx e) w := by
  refine .bind (shallow_frame.explained w) fun fr w₁ hframe => ?_
  cases hframe
  refine .bind (Attempt.failsWithin_ofExcept fun err herr hdeep => ?_) fun typing w₂ _ =>
    (shallow_pure _).explained w₂
  have hlt := Expr.inferAt_tooDeep hdeep e herr
  have hle : e.height ≤ e.levels ctx.functions ctx.options.maxDepth := e.height_le_levels
  dsimp only at hlt
  exact ⟨by omega, .inl (by omega)⟩

theorem explained_operand {e : Expr} {code : Gen Unit} (hcode : Explained limit levels height code w) :
    Explained limit levels height (operand e code) w := by
  refine .bind (shallow_frame.explained w) fun before w₁ hbefore => ?_
  cases hbefore
  refine hcode.bind_shallow fun _ => .bind shallow_frame fun fr => ?_
  split
  · exact .bind (shallow_modifyFrame _) fun _ => .bind (shallow_modifyFrame _) fun _ => shallow_popTy _ _
  · exact shallow_popTy _ _

theorem explained_returnValue {text : String} {span : Span} {value : Gen Ty}
    (hvalue : Explained limit levels height value w) :
    Explained limit levels height (returnValue text span value) w := by
  refine hvalue.bind_shallow fun actual => .bind shallow_frame fun fr => ?_
  dsimp only
  split
  · split
    · exact .bind shallow_returnUnit fun _ => shallow_ensureNoOperands _ _
    · exact .bind (shallow_returnTop _) fun _ => shallow_ensureNoOperands _ _
  · exact shallow_fail rfl

/-- The code of a body begins at the depth of the body. -/
theorem explained_framed {S : Session} {s : Signature} {site : Span} {depth : Nat} {code : Gen Unit}
    (hcode : ∀ {w}, w.frame.depth = depth → Explained limit levels height code w) :
    Explained limit levels height (framed ctx code) ⟨S, .start s site depth⟩ := by
  refine .bind (shallow_frame.explained _) fun fr w₁ hframe => ?_
  cases hframe
  refine .bind ((shallow_declareParams _).explained _) fun _ w₁ hparams => ?_
  obtain ⟨-, -, -, emitter, -, rfl⟩ := declareParams_eq_ok hparams
  refine .bind (shallow_label.explained _) fun start w₂ hlabel => ?_
  cases hlabel
  refine (hcode rfl).bind_shallow fun _ => .bind shallow_label fun stop => ?_
  split
  · exact shallow_modifyFrame _
  · exact shallow_pure _

theorem explained_returnBody {S : Session} {s : Signature} {site : Span} {depth : Nat} {text : String}
    {span : Span} {value : Gen Ty}
    (hvalue : ∀ {w}, w.frame.depth = depth → Explained limit levels height value w) :
    Explained limit levels height (returnBody ctx text span value) ⟨S, .start s site depth⟩ := by
  refine explained_framed fun {w} hdepth => ?_
  refine .bind ((shallow_setLine _).explained w) fun _ w₁ hline => explained_returnValue (hvalue ?_)
  unfold setLine at hline
  split at hline <;> cases hline <;> exact hdepth

end Explained

end Gen

/-- A function whose body fails is abandoned with the error, and fails for the reasons of its body. -/
theorem Session.explains_compileWith {limit levels height : Nat} {S S' : Session} {s : Signature}
    {flags : EntryFlags} {site : Span} {depth : Nat} {body : Gen Unit} {err : CompileError}
    (hgrows : ∀ w : Workbench, w.session.registry.GrowsTo (body w).2.session.registry)
    (hbody : ∀ {S}, Gen.Explained limit levels height body ⟨S, .start s site depth⟩)
    (hrun : compileWith s flags site depth body S = (.error err, S')) :
    S'.Explains limit levels height err ∧
      (err.isTooDeep = true → Event.abandoned s.name err ∈ S'.journal) := by
  cases functionRun hgrows hrun with
  | taken hdecl =>
    unfold Registry.declare at hdecl
    split at hdecl <;> cases hdecl
    exact ⟨explains_of_not_tooDeep rfl, fun hdeep => nomatch hdeep⟩
  | @failed r w _ _ heq _ =>
    have hexplains := (hbody err w heq).recalls (recalls_note w.session (.abandoned s.name err))
    exact ⟨hexplains, fun _ => Array.mem_push_self⟩

namespace Gen

/-- Whether the levels and the height of an expression explain the failures of its code, at any depth. -/
def ExplainedBy {α : Type} (ctx : CodeContext) (e : Expr) (code : Gen α) : Prop :=
  ∀ w, Explained ctx.options.maxDepth
    (w.frame.depth + e.levels ctx.functions ctx.options.maxDepth) (w.frame.depth + e.height) code w

variable {ctx : CodeContext} {w : Workbench}

/-! ## Wrapped constants -/

section Arguments

variable {e : Expr} (hvalue : ExplainedBy ctx e (value ctx e))

include hvalue

/-- Promotion is too deep only where the code of a wrapper is, one level below the constant. -/
theorem promote_tooDeep {params : List Ty} {result : Ty} {err : CompileError} {w' : Workbench}
    (h : promote ctx e params result (value ctx e) w = (.error err, w')) (hdeep : err.isTooDeep = true) :
    e.isConstant ctx.functions ctx.options.maxDepth = true ∧
      ctx.options.maxDepth < w.frame.depth + 1 + e.levels ctx.functions ctx.options.maxDepth ∧
        ∃ id, Event.abandoned (wrapperName id) err ∈ w'.session.journal := by
  cases promotion h with
  | reused _ hbind | wrapped _ _ _ _ hbind => cases hbind
  | refused _ hrefused =>
    rw [Expr.ensureConstant_not_tooDeep hrefused] at hdeep
    cases hdeep
  | failed _ hconst hs hrun =>
    subst hs
    have hgrows (w : Workbench) : w.session.registry.GrowsTo
        (returnBody ctx e.text e.span (value ctx e) w).2.session.registry :=
      ((growsTo_value ctx e).returnBody w).registry
    obtain ⟨hexplains, hevent⟩ := Session.explains_compileWith hgrows
      (explained_returnBody fun {w₁} hdepth => hdepth ▸ hvalue w₁) hrun
    exact ⟨Expr.ensureConstant_eq_ok.1 hconst, (hexplains hdeep).1, w.session.nextId, hevent hdeep⟩

/-- An argument costs one level, and one more if it is wrapped. -/
theorem explained_argument (callee : Signature) (position : Nat) (formal : Param) {depth : Nat}
    (hdepth : w.frame.depth = depth + 1) :
    Explained ctx.options.maxDepth
      (depth + (e.levels ctx.functions ctx.options.maxDepth + 1 +
        (e.isWrappedFor ctx.functions ctx.options.maxDepth formal).toNat))
      (depth + (e.height + 1)) (argument ctx callee position formal e (value ctx e)) w := by
  refine .bind (explained_infer (by omega) (by omega)) fun actual w₁ hinfer => ?_
  obtain ⟨rfl, htype⟩ := infer_eq_ok hinfer
  dsimp only
  split
  next => exact .discard ((hvalue w₁).mono (by omega) (by omega))
  next =>
    split
    next params result hty =>
      split
      next hresult =>
        subst hresult
        refine Explained.bind_shallow (fun err w' hrun hdeep => ?_) fun _ w₂ =>
          (shallow_popTy _ _ w₂).discard
        obtain ⟨hconst, hlt, habandoned⟩ := promote_tooDeep hvalue hrun hdeep
        have hwrapped : e.isWrappedFor ctx.functions ctx.options.maxDepth formal = true := by
          rw [Expr.typeOf_eq_of_isConstantAt hconst _ .empty] at htype
          simp [Expr.isWrappedFor, hty, hconst, htype]
        rw [hwrapped, Bool.toNat_true]
        exact ⟨by omega, .inr habandoned⟩
      next => exact (shallow_fail rfl).explained w₁
    next => exact (shallow_fail rfl).explained w₁

end Arguments

/-! ## Expressions -/

theorem explained_pair {first second : Expr} {span : Span}
    (hfirst : ExplainedBy ctx first (value ctx first)) (hsecond : ExplainedBy ctx second (value ctx second))
    {levels height : Nat}
    (hlevels : w.frame.depth + max (first.levels ctx.functions ctx.options.maxDepth)
      (second.levels ctx.functions ctx.options.maxDepth) ≤ levels)
    (hheight : w.frame.depth + max first.height second.height ≤ height) :
    Explained ctx.options.maxDepth levels height
      (pair ctx first second span (value ctx first) (value ctx second)) w := by
  refine .bind (explained_infer (by omega) (by omega)) fun a w₁ ha => ?_
  obtain ⟨rfl, -⟩ := infer_eq_ok ha
  refine .bind (explained_infer (by omega) (by omega)) fun b w₂ hb => ?_
  obtain ⟨rfl, -⟩ := infer_eq_ok hb
  refine .bind (Attempt.failsWithin_ofExcept fun err herr =>
    Session.explains_of_not_tooDeep (Ty.pairOf_not_tooDeep herr)) fun ty w₃ hty => ?_
  obtain ⟨-, rfl⟩ := Attempt.ofExcept_eq_ok.1 hty
  refine .bind ((shallow_modifyFrame _).explained _) fun _ w₄ hnew => ?_
  cases hnew
  refine .bind ((shallow_modifyFrame _).explained _) fun _ w₅ hdup => ?_
  cases hdup
  refine .bind (.discard ((hfirst _).mono (by dsimp only; omega) (by dsimp only; omega))) fun _ w₆ hx => ?_
  obtain ⟨t, hx⟩ := Attempt.discard_eq_ok.1 hx
  obtain ⟨ms, hms, -⟩ := value_added hx
  have hdepth : w₆.frame.depth = w₃.frame.depth := hms.depth
  refine Explained.bind_shallow (.discard ((hsecond w₆).mono (by omega) (by omega))) fun _ => ?_
  exact .bind (shallow_modifyFrame _) fun _ => shallow_modifyFrame _

mutual

/-- The levels and the height of an expression explain the failures of its code. -/
theorem explained_expr : ∀ e : Expr, ExplainedBy ctx e (expr ctx e)
  | .literal value _ _, w =>
    explained_nested (Nat.le_add_right _ _) (Nat.le_add_right _ _) ((shallow_literal value).explained _)
  | .var ident, w =>
    explained_nested (Nat.le_add_right _ _) (Nat.le_add_right _ _) ((shallow_reference ident).explained _)
  | .placeholder span, w =>
    explained_nested (Nat.le_add_right _ _) (Nat.le_add_right _ _) ((shallow_placeholder span).explained _)
  | .lambda _ text span, w =>
    explained_nested (Nat.le_add_right _ _) (Nat.le_add_right _ _) ((shallow_lambda text span).explained _)
  | .pair first second _ _, w => by
    refine explained_nested (Nat.le_add_right _ _) (Nat.le_add_right _ _) ?_
    refine explained_pair (fun w => explained_operand (explained_expr first w))
      (fun w => explained_operand (explained_expr second w)) ?_ ?_
    · rw [Expr.levels]
      dsimp only
      omega
    · rw [Expr.height]
      dsimp only
      omega
  | .call ident args text span, w => by
    refine explained_nested (Nat.le_add_right _ _) (Nat.le_add_right _ _) ?_
    refine .bind ((shallow_callee _ _ _).explained _) fun s w₁ hcallee => ?_
    obtain ⟨rfl, hs, -⟩ := callee_eq_ok hcallee
    refine Explained.bind_shallow ?_ fun _ => shallow_finishCall _ _ _ _
    rw [Expr.levels, hs, Expr.height]
    exact explained_arguments args rfl

/-- The same for arguments, one level above theirs. -/
theorem explained_arguments : ∀ (es : List Expr) {s : Signature} {position : Nat} {ps : List Param}
    {w : Workbench} {depth : Nat}, w.frame.depth = depth + 1 →
      Explained ctx.options.maxDepth
        (depth + Expr.argLevels ctx.functions ctx.options.maxDepth ps es) (depth + Expr.heightAll es)
        (arguments ctx s position ps es) w
  | [], _, _, _, w, _, _ => (shallow_pure ()).explained w
  | _ :: _, _, _, [], w, _, _ => (shallow_pure ()).explained w
  | e :: es, s, position, p :: ps, w, depth, hdepth => by
    have hvalue : ExplainedBy ctx e (value ctx e) := fun w => explained_operand (explained_expr e w)
    have hhead := explained_argument hvalue s position p hdepth
    rw [Expr.argLevels, Expr.heightAll]
    dsimp only [List.head?_cons, Option.any_some, List.tail_cons]
    refine .bind (hhead.mono (by omega) (by omega)) fun _ w₁ hrun => ?_
    obtain ⟨ms, hms, -⟩ := added_argument hrun value_added
    exact (explained_arguments es (hms.depth.trans hdepth)).mono (by omega) (by omega)

end

theorem explained_value (e : Expr) : ExplainedBy ctx e (value ctx e) :=
  fun w => explained_operand (explained_expr e w)

/-! ## Bodies -/

theorem explained_stmt (s : Stmt) {depth : Nat} (hdepth : w.frame.depth = depth) :
    Explained ctx.options.maxDepth
      (s.reach (Expr.levels ctx.functions ctx.options.maxDepth) depth) (s.reach Expr.height depth)
      (stmt ctx s) w := by
  subst hdepth
  cases s with
  | expr e => exact explained_expr e w
  | ret e => exact explained_returnValue (explained_value e w)
  | decl => exact (shallow_fail rfl).explained w

theorem explained_stmts : ∀ (ss : List Stmt) {w : Workbench} {depth : Nat}, w.frame.depth = depth →
    Explained ctx.options.maxDepth
      (Stmt.reachAll (Expr.levels ctx.functions ctx.options.maxDepth) depth ss)
      (Stmt.reachAll Expr.height depth ss) (stmts ctx ss) w
  | [], w, _, _ => (Shallow.bind shallow_frame fun fr => shallow_returnLeft _).explained w
  | s :: rest, w, depth, hdepth => by
    rw [Stmt.reachAll, Stmt.reachAll]
    refine .bind ((shallow_setLine _).explained w) fun _ w₁ hline => ?_
    have hdepth₁ : w₁.frame.depth = depth := by
      unfold setLine at hline
      split at hline <;> cases hline <;> exact hdepth
    refine .bind ((explained_stmt s hdepth₁).mono (by omega) (by omega)) fun _ w₂ hrun => ?_
    cases rest with
    | nil =>
      dsimp only
      split
      · exact (shallow_pure ()).explained w₂
      · exact (shallow_returnLeft _).explained w₂
    | cons s' rest =>
      refine .bind ((shallow_modifyFrame _).explained w₂) fun _ w₃ hdrop => ?_
      have hdepth₃ : w₃.frame.depth = depth := by
        obtain ⟨ms, ts, hadded, -⟩ := stmt_added hrun
        cases hdrop
        exact hadded.depth.trans hdepth₁
      exact (explained_stmts (s' :: rest) hdepth₃).mono (Nat.le_max_right _ _) (Nat.le_max_right _ _)

theorem explained_body {S : Session} {s : Signature} {site : Span} (ss : List Stmt) :
    Explained ctx.options.maxDepth
      (Stmt.reachAll (Expr.levels ctx.functions ctx.options.maxDepth) 0 ss)
      (Stmt.reachAll Expr.height 0 ss) (body ctx ss) ⟨S, .start s site 0⟩ :=
  explained_framed fun hdepth => explained_stmts ss hdepth

end Gen

namespace Session

variable {ctx : CodeContext} {levels height : Nat}

/-- The depth that is reached in a declared function explains its failures. -/
theorem explains_compileDecl {S S' : Session} {d : Decl} {err : CompileError}
    (h : compileDecl ctx d S = (.error err, S')) :
    S'.Explains ctx.options.maxDepth
      (Stmt.reachAll (Expr.levels ctx.functions ctx.options.maxDepth) 0 d.body)
      (Stmt.reachAll Expr.height 0 d.body) err := by
  unfold compileDecl at h
  rw [Attempt.bind_run] at h
  cases hresolve : resolve ctx.functions d.name with
  | error e =>
    simp only [hresolve, Attempt.ofExcept] at h
    cases h
    exact explains_of_not_tooDeep (resolve_not_tooDeep hresolve)
  | ok s =>
    simp only [hresolve, Attempt.ofExcept] at h
    have hgrows (w : Workbench) : w.session.registry.GrowsTo (Gen.body ctx d.body w).2.session.registry :=
      ((Gen.stable_growsTo ctx ⟨d.body⟩).body (fun _ he => he) w).choose_spec.registry
    exact (explains_compileWith hgrows (Gen.explained_body d.body) h).1

/-- So does the greatest depth in a list of declared functions. -/
theorem explains_compileDecls {block : Block} : ∀ (ds : List Decl) (S : Session),
    (∀ d ∈ ds, ∀ e ∈ Stmt.exprsAll d.body, e ∈ block.exprs) →
    (∀ d ∈ ds, Stmt.reachAll (Expr.levels ctx.functions ctx.options.maxDepth) 0 d.body ≤ levels ∧
      Stmt.reachAll Expr.height 0 d.body ≤ height) →
      ∀ err ∈ (S.compileDecls ctx ds).2,
        (S.compileDecls ctx ds).1.Explains ctx.options.maxDepth levels height err
  | [], _, _, _, _, herr => nomatch herr
  | d :: ds, S, hblock, hds, err, herr => by
    have hblock' : ∀ d' ∈ ds, ∀ e ∈ Stmt.exprsAll d'.body, e ∈ block.exprs :=
      fun d' hd' => hblock d' (by simp [hd'])
    have hrest {S : Session} (herr : err ∈ (S.compileDecls ctx ds).2) :
        (S.compileDecls ctx ds).1.Explains ctx.options.maxDepth levels height err :=
      explains_compileDecls ds S hblock' (fun d' hd' => hds d' (by simp [hd'])) err herr
    rcases hrun : compileDecl ctx d S with ⟨e | _, S'⟩ <;> simp only [compileDecls, hrun] at herr ⊢
    · rcases List.mem_cons.1 herr with rfl | herr
      · obtain ⟨hlevels, hheight⟩ := hds d (by simp)
        have hexplains := (explains_compileDecl hrun).mono hlevels hheight
        exact (hexplains.recalls (recalls_note S' _)).recalls (recalls_compileDecls ds hblock' _)
      · exact hrest herr
    · exact hrest herr

end Session

/-! ## Anonymous functions -/

namespace Hoist

variable {functions : FunctionTable} {options : Options} {levels levels' height height' : Nat} {w : Walk}

/-- Whether the failures of a step of the walk are explained. -/
abbrev Explained (limit levels height : Nat) (x : Hoist Unit) (w : Walk) : Prop :=
  Attempt.FailsWithin (fun err w' => w'.session.Explains limit levels height err) x w

theorem Explained.mono {limit : Nat} {x : Hoist Unit} (h : Explained limit levels height x w)
    (hlevels : levels ≤ levels') (hheight : height ≤ height') : Explained limit levels' height' x w :=
  fun err w' hrun => (h err w' hrun).mono hlevels hheight

/-- A check of a depth that is no greater than what is reached. -/
theorem explained_check {depth : Nat} {span : Span} (hlevels : depth ≤ levels)
    (hheight : depth ≤ height) : Explained options.maxDepth levels height
      (Attempt.ofExcept (ensureDepth options.maxDepth depth span)) w := by
  refine Attempt.failsWithin_ofExcept fun err herr _ => ?_
  have hlt := ensureDepth_tooDeep herr
  exact ⟨by omega, .inl (by omega)⟩

/-- The code of an anonymous function begins at no depth, so its body explains its failures. -/
theorem explained_lambda (body : Expr) (text : String) (span : Span) :
    Explained options.maxDepth (body.levels functions options.maxDepth) body.height
      (lambda functions options body text span) w := by
  intro err w' hrun
  cases meeting hrun with
  | untyped _ htype =>
    intro hdeep
    have hlt := Expr.inferAt_tooDeep hdeep body htype
    have hle : body.height ≤ body.levels functions options.maxDepth := body.height_le_levels
    dsimp only at hlt
    exact ⟨by omega, .inl (by omega)⟩
  | failed _ _ _ hcompiled =>
    have hgrows (v : Workbench) : v.session.registry.GrowsTo
        (Gen.returnBody ⟨functions, options, w.table⟩ body.text span
          (Gen.value ⟨functions, options, w.table⟩ body) v).2.session.registry :=
      ((Gen.growsTo_value _ body).returnBody v).registry
    have hbody {S : Session} {s : Signature} : Gen.Explained options.maxDepth
        (body.levels functions options.maxDepth) body.height
        (Gen.returnBody ⟨functions, options, w.table⟩ body.text span
          (Gen.value ⟨functions, options, w.table⟩ body)) ⟨S, .start s span 0⟩ :=
      Gen.explained_returnBody fun {v} hdepth => by
        have hvalue : Gen.ExplainedBy ⟨functions, options, w.table⟩ body
            (Gen.value ⟨functions, options, w.table⟩ body) := Gen.explained_value body
        have hfails := hvalue v
        rwa [hdepth, Nat.zero_add, Nat.zero_add] at hfails
    exact (Session.explains_compileWith hgrows hbody hcompiled).1

mutual

/-- The depth that is reached in an expression explains where the walk through it fails. -/
theorem explained_expr : ∀ (e : Expr) {depth : Nat} {w : Walk},
    Explained options.maxDepth (depth + e.levels functions options.maxDepth) (depth + e.height)
      (expr functions options depth e) w
  | .literal _ _ _, _, _ | .var _, _, _ | .placeholder _, _, _ =>
    explained_check (Nat.le_refl _) (Nat.le_refl _)
  | .pair first second _ _, depth, w => by
    rw [Expr.levels, Expr.height]
    refine .bind (explained_check (by omega) (by omega)) fun _ w₁ _ => ?_
    refine .bind ((explained_expr first).mono (by omega) (by omega)) fun _ w₂ _ => ?_
    exact (explained_expr second).mono (by omega) (by omega)
  | .lambda body text span, depth, w => by
    rw [Expr.levels, Expr.height]
    refine .bind (explained_check (by omega) (by omega)) fun _ w₁ _ => ?_
    refine .bind ((explained_expr body).mono (by omega) (by omega)) fun _ w₂ _ => ?_
    exact (explained_lambda body text span).mono (by omega) (by omega)
  | .call _ args _ _, depth, w => by
    rw [Expr.levels, Expr.height]
    refine .bind (explained_check (by omega) (by omega)) fun _ w₁ _ => ?_
    exact explained_exprs args _

theorem explained_exprs : ∀ (es : List Expr) (ps : List Param) {depth : Nat} {w : Walk},
    Explained options.maxDepth (depth + Expr.argLevels functions options.maxDepth ps es)
      (depth + Expr.heightAll es) (exprs functions options (depth + 1) es) w
  | [], _, _, _ => Attempt.failsWithin_of_ok rfl
  | e :: es, ps, depth, w => by
    rw [Expr.argLevels, Expr.heightAll]
    refine .bind ((explained_expr e).mono (by omega) (by omega)) fun _ w₁ _ => ?_
    exact (explained_exprs es ps.tail).mono (by omega) (by omega)

end

mutual

theorem explained_stmt : ∀ (s : Stmt) {depth : Nat} {w : Walk},
    Explained options.maxDepth (s.reach (Expr.levels functions options.maxDepth) depth)
      (s.reach Expr.height depth) (stmt functions options depth s) w
  | .expr e, depth, w | .ret e _, depth, w =>
    .bind (explained_check (Nat.le_add_right _ _) (Nat.le_add_right _ _)) fun _ _ _ => explained_expr e
  | .decl _ body _, depth, w => by
    rw [Stmt.reach, Stmt.reach]
    refine .bind (explained_check (Nat.le_max_left _ _) (Nat.le_max_left _ _)) fun _ w₁ _ => ?_
    exact (explained_stmts body).mono (Nat.le_max_right _ _) (Nat.le_max_right _ _)

theorem explained_stmts : ∀ (ss : List Stmt) {depth : Nat} {w : Walk},
    Explained options.maxDepth (Stmt.reachAll (Expr.levels functions options.maxDepth) depth ss)
      (Stmt.reachAll Expr.height depth ss) (stmts functions options depth ss) w
  | [], _, _ => Attempt.failsWithin_of_ok rfl
  | s :: ss, depth, w => by
    rw [Stmt.reachAll, Stmt.reachAll]
    refine .bind ((explained_stmt s).mono (Nat.le_max_left _ _) (Nat.le_max_left _ _)) fun _ w₁ _ => ?_
    exact (explained_stmts ss).mono (Nat.le_max_right _ _) (Nat.le_max_right _ _)

end

/-- The depth that is reached in a block explains where the walk through it fails. -/
theorem explained_topLevel : ∀ (ss : List Stmt) {w : Walk},
    Explained options.maxDepth (Stmt.reachTopAll (Expr.levels functions options.maxDepth) ss)
      (Stmt.reachTopAll Expr.height ss) (topLevel functions options ss) w
  | [], _ => Attempt.failsWithin_of_ok rfl
  | s :: ss, w => by
    rw [topLevel_cons, Stmt.reachTopAll, Stmt.reachTopAll]
    refine .bind (Explained.mono ?_ (Nat.le_max_left _ _) (Nat.le_max_left _ _)) fun _ w₁ _ => ?_
    · cases s with
      | expr | ret => exact .bind (explained_stmt _) fun _ _ _ => Attempt.failsWithin_of_ok rfl
      | decl _ body _ => exact .bind (explained_stmts body) fun _ _ _ => Attempt.failsWithin_of_ok rfl
    · exact (explained_topLevel ss).mono (Nat.le_max_right _ _) (Nat.le_max_right _ _)

end Hoist

/-! ## Whole blocks -/

namespace Block

variable {block : Block} {functions : FunctionTable} {options : Options}

/-- All errors that a block reports are explained. -/
theorem explains_session {err : CompileError} (herr : err ∈ (compileBlock functions options block).errors) :
    (block.session functions options).Explains options.maxDepth
      (block.levels functions options.maxDepth) block.depth err := by
  rcases hrun : Hoist.topLevel functions options block.stmts { session := .start } with ⟨e | _, w⟩
  · obtain ⟨hsession, herrors⟩ := session_of_error (congrArg Prod.fst hrun)
    have hwalk : block.walk functions options = w := congrArg Prod.snd hrun
    rw [herrors, List.mem_singleton] at herr
    subst herr
    rw [hsession, hwalk]
    exact (Hoist.explained_topLevel block.stmts err w hrun).recalls (Session.recalls_note w.session _)
  · obtain ⟨hsession, herrors⟩ := session_of_ok (congrArg Prod.fst hrun)
    rw [herrors] at herr
    rw [hsession]
    exact Session.explains_compileDecls block.decls _ (fun d hd => mem_exprs_of_mem_decls hd)
      (fun d hd => ⟨reachAll_body_le _ hd, reachAll_body_le _ hd⟩) err herr

/-- A block that is too deep ends with the walk. -/
theorem hoist_error_of_depth (functions : FunctionTable) (h : options.maxDepth < block.depth) :
    ∃ err, (Session.hoist functions options block .start).1 = .error err := by
  rw [hoist_eq]
  cases hrun : (Hoist.topLevel functions options block.stmts { session := .start }).1 with
  | error err => exact ⟨err, rfl⟩
  | ok _ =>
    have hreach : block.depth ≤ options.maxDepth :=
      Hoist.reach_le_of_topLevel block.stmts (Prod.ext hrun rfl)
    omega

end Block

/-- A block that is deeper than the limit ends with one error, before any declared function.  In a block
that is not, only the code of wrappers can be too deep: where an error says so, a wrapper was abandoned with
it, and the limit does not admit one more level for each constant that is wrapped.  So there is no such
error if no known function has a parameter that is a function, nor if the limit is twice the depth. -/
theorem nesting_ceiling (functions : FunctionTable) (options : Options) (block : Block) :
    (options.maxDepth < block.depth → ∃ err,
      (Session.hoist functions options block .start).1 = .error err ∧
      (compileBlock functions options block).errors = [err] ∧
      (compileBlock functions options block).module.declaredFunctions = []) ∧
    (block.depth ≤ options.maxDepth →
      ∀ err ∈ (compileBlock functions options block).errors, err.isTooDeep = true →
        options.maxDepth < block.levels functions options.maxDepth ∧
        ∃ id, Event.abandoned (Gen.wrapperName id) err ∈
          (compileBlock functions options block).journal) ∧
    (block.depth ≤ options.maxDepth → functions.FirstOrder →
      ∀ err ∈ (compileBlock functions options block).errors, err.isTooDeep = false) ∧
    (2 * block.depth ≤ options.maxDepth →
      ∀ err ∈ (compileBlock functions options block).errors, err.isTooDeep = false) := by
  have hexplained (hdepth : block.depth ≤ options.maxDepth) :
      ∀ err ∈ (compileBlock functions options block).errors, err.isTooDeep = true →
        options.maxDepth < block.levels functions options.maxDepth ∧
        ∃ id, Event.abandoned (Gen.wrapperName id) err ∈
          (compileBlock functions options block).journal := by
    intro err herr hdeep
    rw [Block.journal_compileBlock]
    obtain ⟨hlevels, hheight | habandoned⟩ := Block.explains_session herr hdeep
    · omega
    · exact ⟨hlevels, habandoned⟩
  have hnone (hdepth : block.depth ≤ options.maxDepth)
      (hlevels : block.levels functions options.maxDepth ≤ options.maxDepth) :
      ∀ err ∈ (compileBlock functions options block).errors, err.isTooDeep = false := by
    intro err herr
    rw [← Bool.not_eq_true]
    intro hdeep
    have hlt := (hexplained hdepth err herr hdeep).1
    omega
  refine ⟨fun hdepth => ?_, hexplained, fun hdepth hfirst => hnone hdepth ?_, fun hdepth => hnone ?_ ?_⟩
  · obtain ⟨err, hhoist⟩ := Block.hoist_error_of_depth functions hdepth
    obtain ⟨-, -, houtcomes⟩ := block.session_outcomes functions options
    rw [hhoist] at houtcomes
    rw [Block.module_compileBlock]
    exact ⟨err, hhoist, houtcomes⟩
  · rw [Block.levels_eq_depth hfirst]
    exact hdepth
  · omega
  · exact (block.levels_le_two_mul functions options.maxDepth).trans hdepth

/-- The functions that `deepDecl` refers to, where `apply` takes a string. -/
def stringFunctions : FunctionTable :=
  .ofList [⟨"g", [], .int, "Main", false⟩, ⟨"apply", [⟨"a", .string⟩], .int, "Main", false⟩,
    ⟨"k", [⟨"a", .int⟩], .int, "Main", false⟩]

/-- The call `k(apply(5))` is two levels deep, and three with the wrapper of its constant.  With one level
the walk fails, with two the wrapper does, and four are enough.  Where `apply` takes a string, there is no
wrapper, and with two levels the call is refused, but not as too deep. -/
theorem nesting_ceiling_wrapping :
    (Block.depth ⟨[deepDecl]⟩ = 2 ∧ Block.levels wrappingFunctions 2 ⟨[deepDecl]⟩ = 3) ∧
    (compileBlock wrappingFunctions { maxDepth := 1 } ⟨[deepDecl]⟩).module.declaredFunctions = [] ∧
    (∃ err ∈ (compileBlock wrappingFunctions { maxDepth := 2 } ⟨[deepDecl]⟩).errors, ∃ id,
      Event.abandoned (Gen.wrapperName id) err ∈
        (compileBlock wrappingFunctions { maxDepth := 2 } ⟨[deepDecl]⟩).journal) ∧
    (∃ err, (compileBlock stringFunctions { maxDepth := 2 } ⟨[deepDecl]⟩).errors = [err] ∧
      err.isTooDeep = false) ∧
    ∀ err ∈ (compileBlock wrappingFunctions { maxDepth := 4 } ⟨[deepDecl]⟩).errors,
      err.isTooDeep = false := by
  have hdepth : Block.depth ⟨[deepDecl]⟩ = 2 := by decide
  have hlevels : Block.levels wrappingFunctions 2 ⟨[deepDecl]⟩ = 3 := by decide +kernel
  have hfailed : ∃ err ∈ (compileBlock wrappingFunctions { maxDepth := 2 } ⟨[deepDecl]⟩).errors,
      err.isTooDeep = true := by
    decide +kernel
  have hrefused : (compileBlock stringFunctions { maxDepth := 2 } ⟨[deepDecl]⟩).errors.length = 1 := by
    decide +kernel
  have hfirstOrder : stringFunctions.FirstOrder := FunctionTable.firstOrder_ofList (by simp)
  obtain ⟨hwalk, -, -⟩ := nesting_ceiling wrappingFunctions { maxDepth := 1 } ⟨[deepDecl]⟩
  obtain ⟨-, hwrapper, -⟩ := nesting_ceiling wrappingFunctions { maxDepth := 2 } ⟨[deepDecl]⟩
  obtain ⟨-, -, hfirst, -⟩ := nesting_ceiling stringFunctions { maxDepth := 2 } ⟨[deepDecl]⟩
  obtain ⟨-, -, -, hnone⟩ := nesting_ceiling wrappingFunctions { maxDepth := 4 } ⟨[deepDecl]⟩
  obtain ⟨_, -, -, hdeclared⟩ := hwalk (by rw [hdepth]; decide)
  obtain ⟨err, herr, hdeep⟩ := hfailed
  obtain ⟨-, habandoned⟩ := hwrapper (by rw [hdepth]) err herr hdeep
  obtain ⟨err', herr'⟩ := List.length_eq_one_iff.1 hrefused
  have hshallow := hfirst (by rw [hdepth]) hfirstOrder err' (by rw [herr']; exact List.mem_singleton_self _)
  exact ⟨⟨hdepth, hlevels⟩, hdeclared, ⟨err, herr, habandoned⟩, ⟨err', herr', hshallow⟩,
    hnone (by rw [hdepth])⟩

end BlockCompiler
