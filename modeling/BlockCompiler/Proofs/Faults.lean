import BlockCompiler.Proofs.Accounting

/-!
# Internal errors

The compiler reports an internal error where it finds itself in a state that it did not foresee.  Most
of these states cannot come up.  `InputFault` lists the exceptions, which a block and a table of known
functions bring about.

* `Block.Admits` admits an error that is not internal, or is one of those.
* `Frame.Has` is the balance of the operand stack.  An expression adds one type to it, a bare call of a
  function that returns nothing adds none, and `Gen.ends_expr` is the induction on expressions.
* `LambdaTable.Covers` says that anonymous functions are compiled before they are used.  The walk brings
  that about from the inside out: `Hoist.ends_expr` and its kin.
* A function is pending while its body is compiled, so that it can be given its code:
  `Session.ends_compileWith`.

None of this depends on the texts of expressions.
-/

namespace BlockCompiler

/-! ## Faults that a block brings about -/

/-- Whether an expression is a bare call of a function that returns nothing. -/
def Expr.CallsUnit (functions : FunctionTable) (e : Expr) : Prop :=
  ∃ callee args text span s, e = .call callee args text span ∧
    functions.get? callee.name = some s ∧ s.result = .unit

/-- The operands that an expression may leave above others: one value, or none after a bare call of a
function that returns nothing. -/
def Expr.Leaves (functions : FunctionTable) (e : Expr) (ts us : List Ty) : Prop :=
  us = ts ∧ e.CallsUnit functions ∨ ∃ t, us = t :: ts

/-- The internal errors that a block and a table of known functions bring about. -/
inductive InputFault (functions : FunctionTable) (options : Options) (block : Block) :
    CompileError → Prop where
  /-- A declared function that has to return a value has no body. -/
  | emptyBody {d : Decl} {s : Signature} (hd : d ∈ block.decls)
    (hs : functions.get? d.name.name = some s) (hresult : s.result ≠ .unit) (hbody : d.body = []) :
    InputFault functions options block ⟨.internal (.noValueLeft s.result) s.name, d.span⟩
  /-- The body of a declared function that has to return a value ends in a call that gives none. -/
  | unitCall {d : Decl} {s : Signature} {init : List Stmt} {e : Expr} (hd : d ∈ block.decls)
    (hs : functions.get? d.name.name = some s) (hresult : s.result ≠ .unit)
    (hbody : d.body = init ++ [.expr e]) (he : e.CallsUnit functions) :
    InputFault functions options block ⟨.internal (.noValueLeft s.result) s.name, e.span⟩
  /-- A function is called with more arguments than an operand can count. -/
  | arguments {callee : Ident} {args : List Expr} {text : String} {span : Span} {s : Signature}
    (hcall : Expr.call callee args text span ∈ block.exprs)
    (hs : functions.get? callee.name = some s) (harity : args.length = s.arity)
    (hmany : 255 < args.length) :
    InputFault functions options block ⟨.internal .tooManyArguments text, span⟩
  /-- A declared function has more arguments than there are slots. -/
  | slots {d : Decl} {s : Signature} (hd : d ∈ block.decls)
    (hs : functions.get? d.name.name = some s) (hmany : 65536 < s.arity) :
    InputFault functions options block ⟨.internal .tooManySlots s.name, d.span⟩
  /-- An argument is to be wrapped into a function with more arguments than there are slots. -/
  | wrapperSlots {callee : Ident} {args : List Expr} {text : String} {span : Span} {s : Signature}
    {p : Param} {e : Expr} {params : List Ty} {result : Ty} (id : Nat)
    (hcall : Expr.call callee args text span ∈ block.exprs)
    (hs : functions.get? callee.name = some s) (harg : (p, e) ∈ s.params.zip args)
    (hp : p.ty = .fn params result) (hmany : 65536 < params.length) :
    InputFault functions options block
      ⟨.internal .tooManySlots (Gen.wrapperSignature id params result options.owner).name, e.span⟩

/-- Whether an error is not internal, or is brought about by the block. -/
def Block.Admits (block : Block) (functions : FunctionTable) (options : Options)
    (err : CompileError) : Prop :=
  err.isInternal = true → InputFault functions options block err

theorem Block.admits_of_not_internal {block : Block} {functions : FunctionTable}
    {options : Options} {err : CompileError} (h : err.isInternal = false) :
    block.Admits functions options err := by
  intro h'
  rw [h] at h'
  cases h'

/-! ## Errors of static checks -/

/-- Whether an error is one that the checks find which look at the source only. -/
def CompileError.isStatic (e : CompileError) : Bool :=
  match e.cause with
  | .unknownIdentifier _ | .pairTypeMismatch _ _ | .nonConstantExpression _ | .nestingTooDeep _ => true
  | _ => false

theorem Block.admits_of_isStatic {block : Block} {functions : FunctionTable} {options : Options}
    {err : CompileError} (h : err.isStatic = true) : block.Admits functions options err := by
  obtain ⟨cause, span⟩ := err
  cases cause with
  | internal => cases h
  | _ => exact admits_of_not_internal rfl

theorem ensureDepth_isStatic {maxDepth depth : Nat} {span : Span} {err : CompileError}
    (h : ensureDepth maxDepth depth span = .error err) : err.isStatic = true := by
  unfold ensureDepth at h
  split at h
  · cases h
    rfl
  · cases h

theorem resolve_isStatic {functions : FunctionTable} {callee : Ident} {err : CompileError}
    (h : resolve functions callee = .error err) : err.isStatic = true := by
  unfold resolve at h
  split at h
  · cases h
  · cases h
    rfl

theorem Ty.pairOf_isStatic {t u : Ty} {span : Span} {err : CompileError}
    (h : Ty.pairOf t u span = .error err) : err.isStatic = true := by
  unfold Ty.pairOf at h
  split at h
  · split at h <;> cases h
  · cases h
    rfl

theorem except_bind_eq_error {α β : Type} {x : Except CompileError α}
    {f : α → Except CompileError β} {err : CompileError} :
    (x >>= f) = .error err ↔ x = .error err ∨ ∃ a, x = .ok a ∧ f a = .error err := by
  cases x <;> simp [bind, Except.bind]

namespace Expr

theorem ensureConstant_isStatic {functions : FunctionTable} {maxDepth : Nat} {e : Expr}
    {err : CompileError} (h : e.ensureConstant functions maxDepth = .error err) :
    err.isStatic = true := by
  unfold ensureConstant at h
  split at h
  · cases h
  · cases h
    rfl

/-- Finding a type looks at the source only. -/
theorem inferAt_isStatic {ctx : TypingContext} {err : CompileError} : ∀ (e : Expr)
    {scope : Scope} {depth : Nat}, e.inferAt ctx scope depth = .error err → err.isStatic = true
  | literal value text span, scope, depth, h => by
    rw [inferAt, except_bind_eq_error] at h
    obtain h | ⟨_, _, h⟩ := h
    · exact ensureDepth_isStatic h
    · cases h
  | pair first second text span, scope, depth, h => by
    rw [inferAt, except_bind_eq_error] at h
    obtain h | ⟨_, _, h⟩ := h
    · exact ensureDepth_isStatic h
    obtain h | ⟨_, _, h⟩ := except_bind_eq_error.1 h
    · exact inferAt_isStatic first h
    obtain h | ⟨_, _, h⟩ := except_bind_eq_error.1 h
    · exact inferAt_isStatic second h
    obtain h | ⟨_, _, h⟩ := except_bind_eq_error.1 h
    · exact Ty.pairOf_isStatic h
    · cases h
  | var name, scope, depth, h => by
    rw [inferAt, except_bind_eq_error] at h
    obtain h | ⟨_, _, h⟩ := h
    · exact ensureDepth_isStatic h
    unfold inferName at h
    split at h
    · cases h
    · split at h <;> cases h
      rfl
  | placeholder span, scope, depth, h => by
    rw [inferAt, except_bind_eq_error] at h
    obtain h | ⟨_, _, h⟩ := h
    · exact ensureDepth_isStatic h
    · cases h
  | lambda body text span, scope, depth, h => by
    rw [inferAt, except_bind_eq_error] at h
    obtain h | ⟨_, _, h⟩ := h
    · exact ensureDepth_isStatic h
    obtain h | ⟨_, _, h⟩ := except_bind_eq_error.1 h
    · exact inferAt_isStatic body h
    · cases h
  | call callee args text span, scope, depth, h => by
    rw [inferAt, except_bind_eq_error] at h
    obtain h | ⟨_, _, h⟩ := h
    · exact ensureDepth_isStatic h
    obtain h | ⟨_, _, h⟩ := except_bind_eq_error.1 h
    · exact resolve_isStatic h
    · cases h

end Expr

/-! ## The operand stack -/

/-- The frame of a function at its place, with operands of these types on the stack. -/
structure Frame.Has (fr : Frame) (s : Signature) (site : Span) (ts : List Ty) : Prop where
  signature : fr.signature = s
  site : fr.site = site
  operands : fr.operands.types = ts

namespace Gen

/-- Whether a step in the generation of code ends well. -/
abbrev Ends {α : Type} (ctx : CodeContext) (block : Block) (x : Gen α) (w : Workbench)
    (Q : α → Workbench → Prop) : Prop :=
  Attempt.Ends (block.Admits ctx.functions ctx.options) x w Q

/-- Whether a step ends well on any stack of operands and leaves the stack as it was. -/
def Balanced {α : Type} (ctx : CodeContext) (block : Block) (x : Gen α) : Prop :=
  ∀ ⦃s site ts w⦄, w.frame.Has s site ts → Ends ctx block x w fun _ w' => w'.frame.Has s site ts

section Steps

variable {α : Type} {ctx : CodeContext} {block : Block} {s : Signature} {site : Span} {ts : List Ty}
  {w : Workbench}

theorem ends_fail {err : CompileError} {Q : α → Workbench → Prop} (h : err.isInternal = false) :
    Ends ctx block (.fail err : Gen α) w Q :=
  Block.admits_of_not_internal h

theorem ends_emit (h : w.frame.Has s site ts) (f : Emitter → Emitter) :
    Ends ctx block (emit f) w fun _ w' => w'.frame.Has s site ts :=
  ⟨h.signature, h.site, h.operands⟩

theorem ends_emitPooled (h : w.frame.Has s site ts) (f : Emitter → Pool → Emitter × Pool) :
    Ends ctx block (emitPooled f) w fun _ w' => w'.frame.Has s site ts :=
  ⟨h.signature, h.site, h.operands⟩

theorem ends_pushTy (h : w.frame.Has s site ts) (t : Ty) :
    Ends ctx block (pushTy t) w fun _ w' => w'.frame.Has s site (t :: ts) :=
  ⟨h.signature, h.site, congrArg (t :: ·) h.operands⟩

/-- A type that is there can be taken. -/
theorem ends_popTy {t : Ty} (h : w.frame.Has s site (t :: ts)) (context : String) (span : Span) :
    Ends ctx block (popTy context span) w fun _ w' => w'.frame.Has s site ts := by
  have hpop : w.frame.operands.pop context span = .ok (t, ⟨ts⟩) := by
    simp [TypeStack.pop, h.operands]
  unfold Ends Attempt.Ends popTy
  rw [hpop]
  exact ⟨h.signature, h.site, rfl⟩

theorem ends_bindFunction (h : w.frame.Has s site ts) (s' : Signature) :
    Ends ctx block (bindFunction s') w fun _ w' => w'.frame.Has s site (s'.toTy :: ts) :=
  .bind (ends_emitPooled h _) fun _ _ h => ends_pushTy h _

theorem ends_setLine (h : w.frame.Has s site ts) (line : Nat) :
    Ends ctx block (setLine ctx line) w fun _ w' => w'.frame.Has s site ts := by
  unfold setLine
  split
  · exact ends_emit h _
  · exact h

theorem ends_infer (h : w.frame.Has s site ts) (e : Expr) :
    Ends ctx block (infer ctx e) w fun _ w' => w'.frame.Has s site ts := by
  refine Attempt.ends_of_run (fun hrun => ?_) fun hrun => ?_
  · rw [(infer_eq_ok hrun).1]
    exact h
  · simp only [infer, Attempt.bind_run, frame, Attempt.ofExcept] at hrun
    split at hrun
    next => cases hrun
    next heq =>
      cases hrun
      have hinfer := (Prod.mk.inj heq).1
      exact Block.admits_of_isStatic (Expr.inferAt_isStatic e hinfer)

theorem ends_frame : Ends ctx block frame w fun fr w' => fr = w.frame ∧ w' = w := ⟨rfl, rfl⟩

/-- A step one level deeper ends as the step itself does. -/
theorem ends_nested {P : List Ty → Prop} {span : Span} {x : Gen Unit} (h : w.frame.Has s site ts)
    (hx : ∀ {w : Workbench}, w.frame.Has s site ts →
      Ends ctx block x w fun _ w' => ∃ us, P us ∧ w'.frame.Has s site us) :
    Ends ctx block (nested ctx span x) w fun _ w' => ∃ us, P us ∧ w'.frame.Has s site us := by
  refine .bind ends_frame fun fr w₁ hframe => ?_
  obtain ⟨rfl, rfl⟩ := hframe
  refine .bind (Attempt.ends_ofExcept fun herr => ?_) fun _ w₂ hdepth => ?_
  · exact Block.admits_of_isStatic (ensureDepth_isStatic herr)
  obtain ⟨-, rfl⟩ := hdepth
  have hdeeper : Ends ctx block (modifyFrame fun fr => { fr with depth := fr.depth + 1 }) w₂
      fun _ w' => w'.frame.Has s site ts := ⟨h.signature, h.site, h.operands⟩
  refine .bind hdeeper fun _ w₃ hw₃ => .ending ((hx hw₃).mono fun _ w₄ hw₄ => ?_)
  obtain ⟨us, hus, hhas⟩ := hw₄
  exact ⟨us, hus, hhas.signature, hhas.site, hhas.operands⟩

/-- Code that leaves at most one value becomes an operand, which is taken at once. -/
theorem balanced_operand {e : Expr} {code : Gen Unit}
    (hcode : ∀ ⦃s site ts w⦄, w.frame.Has s site ts → Ends ctx block code w fun _ w' =>
      ∃ us, e.Leaves ctx.functions ts us ∧ w'.frame.Has s site us) :
    Balanced ctx block (operand e code) := by
  intro s site ts w h
  refine .bind ends_frame fun fr w₁ hframe => ?_
  obtain ⟨rfl, rfl⟩ := hframe
  refine .bind (hcode h) fun _ w₂ hw₂ => .bind ends_frame fun fr w₃ hframe => ?_
  obtain ⟨rfl, rfl⟩ := hframe
  have hbefore : w₁.frame.operands.size = ts.length := by rw [TypeStack.size, h.operands]
  obtain ⟨us, ⟨rfl, -⟩ | ⟨t, rfl⟩, hus⟩ := hw₂
  · rw [if_pos (by rw [hbefore, TypeStack.size, hus.operands])]
    refine .bind (ends_emit hus _) fun _ _ hw => .bind (ends_pushTy hw _) fun _ _ hw => ?_
    exact ends_popTy hw _ _
  · rw [if_neg (by rw [hbefore, TypeStack.size, hus.operands, List.length_cons]; omega)]
    exact ends_popTy hus _ _

end Steps

end Gen

/-! ## Expressions -/

/-- Whether the functions made for all anonymous functions in a list are recorded. -/
def LambdaTable.Covers (t : LambdaTable) (es : List Expr) : Prop :=
  ∀ ⦃body text span⦄, Expr.lambda body text span ∈ es → ∃ s, t.get? text = some s

theorem LambdaTable.Covers.of_subset {t : LambdaTable} {es es' : List Expr} (h : t.Covers es)
    (hsub : es' ⊆ es) : t.Covers es' :=
  fun _ _ _ he => h (hsub he)

namespace Gen

section Leaves

variable {ctx : CodeContext} {block : Block} {s : Signature} {site : Span} {ts : List Ty}
  {w : Workbench}

theorem ends_literal (h : w.frame.Has s site ts) (value : Literal) :
    Ends ctx block (literal value) w fun _ w' => w'.frame.Has s site (value.ty :: ts) := by
  cases value with
  | int | real | string => exact .bind (ends_emitPooled h _) fun _ _ hw => ends_pushTy hw _
  | bool | unit => exact .bind (ends_emit h _) fun _ _ hw => ends_pushTy hw _

theorem ends_loadVar (h : w.frame.Has s site ts) (v : LocalVar) :
    Ends ctx block (loadVar v) w fun _ w' => w'.frame.Has s site (v.ty :: ts) :=
  .bind (ends_emit h _) fun _ _ hw => ends_pushTy hw _

theorem ends_reference (h : w.frame.Has s site ts) (ident : Ident) :
    Ends ctx block (reference ctx ident) w fun _ w' => ∃ t, w'.frame.Has s site (t :: ts) := by
  refine .bind ends_frame fun fr w₁ hframe => ?_
  obtain ⟨rfl, rfl⟩ := hframe
  split
  · exact (ends_loadVar h _).mono fun _ _ hw => ⟨_, hw⟩
  · split
    · exact (ends_bindFunction h _).mono fun _ _ hw => ⟨_, hw⟩
    · exact ends_fail rfl

theorem ends_placeholder (h : w.frame.Has s site ts) (span : Span) :
    Ends ctx block (placeholder span) w fun _ w' => ∃ t, w'.frame.Has s site (t :: ts) := by
  refine .bind ends_frame fun fr w₁ hframe => ?_
  obtain ⟨rfl, rfl⟩ := hframe
  split
  · split
    · exact (ends_loadVar h _).mono fun _ _ hw => ⟨_, hw⟩
    · exact ends_fail rfl
  · exact ends_fail rfl

/-- An anonymous function that is recorded can be used. -/
theorem ends_lambda (h : w.frame.Has s site ts) {text : String}
    (hcovered : ∃ s', ctx.lambdas.get? text = some s') (span : Span) :
    Ends ctx block (lambda ctx text span) w fun _ w' => ∃ t, w'.frame.Has s site (t :: ts) := by
  obtain ⟨s', hs'⟩ := hcovered
  unfold lambda
  rw [hs']
  exact (ends_bindFunction h _).mono fun _ _ hw => ⟨_, hw⟩

theorem ends_pair (h : w.frame.Has s site ts) {first second : Expr} {span : Span}
    {firstValue secondValue : Gen Ty} (hfirst : Balanced ctx block firstValue)
    (hsecond : Balanced ctx block secondValue) :
    Ends ctx block (pair ctx first second span firstValue secondValue) w
      fun _ w' => ∃ t, w'.frame.Has s site (t :: ts) := by
  refine .bind (ends_infer h _) fun a _ h => .bind (ends_infer h _) fun b w₁ h => ?_
  refine .bind (Attempt.ends_ofExcept fun herr => ?_) fun ty w₂ hty => ?_
  · exact Block.admits_of_isStatic (Ty.pairOf_isStatic herr)
  obtain ⟨-, rfl⟩ := hty
  refine .bind (ends_emit h _) fun _ _ h => .bind (ends_emit h _) fun _ _ h => ?_
  refine .bind (hfirst h).discard fun _ _ h => .bind (hsecond h).discard fun _ _ h => ?_
  refine .bind (ends_emit h _) fun _ _ h => ?_
  exact (ends_pushTy h _).mono fun _ _ hw => ⟨_, hw⟩

theorem ends_callee (h : w.frame.Has s site ts) (ident : Ident) (argCount : Nat) (span : Span) :
    Ends ctx block (callee ctx ident argCount span) w fun s' w' =>
      w'.frame.Has s site ts ∧ ctx.functions.get? ident.name = some s' ∧ argCount = s'.arity := by
  refine Attempt.ends_of_run (fun hrun => ?_) fun hrun => ?_
  · obtain ⟨rfl, hs', harity⟩ := callee_eq_ok hrun
    exact ⟨h, hs', harity⟩
  · simp only [callee, Attempt.bind_run, Attempt.ofExcept] at hrun
    split at hrun
    next =>
      split at hrun
      next => cases hrun
      next =>
        cases hrun
        exact Block.admits_of_not_internal rfl
    next heq =>
      cases hrun
      exact Block.admits_of_isStatic (resolve_isStatic (Prod.mk.inj heq).1)

theorem ends_finishCall (h : w.frame.Has s site ts) (s' : Signature) {argCount : Nat}
    {text : String} {span : Span} (hmany : 255 < argCount →
      InputFault ctx.functions ctx.options block ⟨.internal .tooManyArguments text, span⟩) :
    Ends ctx block (finishCall s' argCount text span) w fun _ w' =>
      ∃ us, (us = ts ∧ s'.result = .unit ∨ ∃ t, us = t :: ts) ∧ w'.frame.Has s site us := by
  unfold finishCall
  split
  next =>
    refine .bind (ends_emitPooled h _) fun _ w₁ h => ?_
    split
    next hunit => exact ⟨ts, .inl ⟨rfl, by simpa [Ty.isUnit] using hunit⟩, h⟩
    next => exact (ends_pushTy h _).mono fun _ _ hw => ⟨_, .inr ⟨_, rfl⟩, hw⟩
  next hcount => exact fun _ => hmany (by omega)

end Leaves

end Gen

/-! ## Functions -/

namespace Gen

section Functions

variable {ctx : CodeContext} {block : Block} {s : Signature} {site : Span} {w : Workbench}

theorem ends_ensureNoOperands (h : w.frame.Has s site []) (context : String) (span : Span) :
    Ends ctx block (ensureNoOperands context span) w fun _ w' => w'.frame.Has s site [] := by
  have hempty : w.frame.operands.ensureEmpty context span = .ok () := by
    simp [TypeStack.ensureEmpty, TypeStack.isEmpty, h.operands]
  unfold Ends Attempt.Ends ensureNoOperands
  rw [hempty]
  exact h

theorem ends_returnUnit {ts : List Ty} (h : w.frame.Has s site ts) :
    Ends ctx block returnUnit w fun _ w' => w'.frame.Has s site ts :=
  .bind (ends_emit h _) fun _ _ h => .bind (ends_emit h _) fun _ _ h => ends_emit h _

theorem ends_returnValue {text : String} {span : Span} {value : Gen Ty}
    (hvalue : Ends ctx block value w fun _ w' => w'.frame.Has s site []) :
    Ends ctx block (returnValue text span value) w fun _ w' => w'.frame.Has s site [] := by
  refine .bind hvalue fun actual w₁ h => .bind ends_frame fun fr w₂ hframe => ?_
  obtain ⟨rfl, rfl⟩ := hframe
  dsimp only
  split
  · split
    · exact .bind (ends_returnUnit h) fun _ _ h => ends_ensureNoOperands h _ _
    · exact .bind (ends_emit h _) fun _ _ h => ends_ensureNoOperands h _ _
  · exact ends_fail rfl

/-- What the last statement left is returned, if it left something or nothing has to be returned. -/
theorem ends_returnLeft {us : List Ty} {span : Span} (h : w.frame.Has s site us)
    (hleft : us = [] ∧ (s.result ≠ .unit →
        InputFault ctx.functions ctx.options block ⟨.internal (.noValueLeft s.result) s.name, span⟩) ∨
      ∃ t, us = [t]) :
    Ends ctx block (returnLeft span) w fun _ _ => True := by
  refine .bind ends_frame fun fr w₁ hframe => ?_
  obtain ⟨rfl, rfl⟩ := hframe
  dsimp only
  rw [h.operands, h.signature]
  rcases hleft with ⟨rfl, hnone⟩ | ⟨t, rfl⟩
  · dsimp only
    split
    next => exact .bind (ends_emit h _) fun _ _ h => (ends_emit h _).mono fun _ _ _ => trivial
    next hunit => exact fun _ => hnone fun heq => hunit (by rw [heq]; rfl)
  · refine .bind (ends_popTy h _ _) fun actual _ h => ?_
    split
    · exact (ends_emit h _).mono fun _ _ _ => trivial
    · split
      · exact (ends_returnUnit h).mono fun _ _ _ => trivial
      · exact ends_fail rfl

/-- A parameter gets a slot, if there is one left. -/
theorem ends_declareParam {ts : List Ty} (h : w.frame.Has s site ts) (p : Param)
    (hfull : 65536 ≤ w.frame.scope.size →
      InputFault ctx.functions ctx.options block ⟨.internal .tooManySlots s.name, site⟩) :
    Ends ctx block (declareParam ctx p) w fun _ w' =>
      w'.frame.Has s site ts ∧ w'.frame.scope.size = w.frame.scope.size + 1 := by
  refine .bind ends_frame fun fr w₁ hframe => ?_
  obtain ⟨rfl, rfl⟩ := hframe
  have hdeclare : Ends ctx block (scope (Scope.declare p.name p.ty w₁.frame.signature.name
      w₁.frame.site)) w₁ fun _ w' =>
        w'.frame.Has s site ts ∧ w'.frame.scope.size = w₁.frame.scope.size + 1 := by
    rw [h.signature, h.site]
    rcases w₁ with ⟨session, fr⟩
    unfold Ends Attempt.Ends scope Scope.declare
    dsimp only
    split_ifs with hsame hfree
    · exact Block.admits_of_not_internal rfl
    · exact ⟨⟨h.signature, h.site, h.operands⟩, Scope.size_push _ _ _⟩
    · exact fun _ => hfull (Nat.le_of_not_lt hfree)
  refine .bind hdeclare.discard fun _ w₂ hw₂ => ?_
  split
  · exact ⟨⟨hw₂.1.signature, hw₂.1.site, hw₂.1.operands⟩, hw₂.2⟩
  · exact hw₂

theorem ends_declareParams {ts : List Ty} (hfull : 65536 < s.arity →
      InputFault ctx.functions ctx.options block ⟨.internal .tooManySlots s.name, site⟩) :
    ∀ (ps : List Param) {w : Workbench}, w.frame.Has s site ts →
      w.frame.scope.size + ps.length ≤ s.arity →
      Ends ctx block (declareParams ctx ps) w fun _ w' => w'.frame.Has s site ts
  | [], w, h, _ => h
  | p :: ps, w, h, hsize => by
    rw [List.length_cons] at hsize
    refine .bind (ends_declareParam h p fun hslots => hfull (by omega)) fun _ w' hw' => ?_
    exact ends_declareParams hfull ps hw'.1 (by omega)

/-- A body ends well between its labels if it does so without operands. -/
theorem ends_framed {S : Session} {depth : Nat} {code : Gen Unit}
    (hfull : 65536 < s.arity →
      InputFault ctx.functions ctx.options block ⟨.internal .tooManySlots s.name, site⟩)
    (hcode : ∀ {w : Workbench}, w.frame.Has s site [] → Ends ctx block code w fun _ _ => True) :
    Ends ctx block (framed ctx code) ⟨S, .start s site depth⟩ fun _ _ => True := by
  have hstart : (Frame.start s site depth).Has s site [] := ⟨rfl, rfl, rfl⟩
  refine .bind ends_frame fun fr w₁ hframe => ?_
  obtain ⟨rfl, rfl⟩ := hframe
  have hsize : (Frame.start s site depth).scope.size + s.params.length ≤ s.arity := by
    show 0 + s.params.length ≤ s.params.length
    omega
  refine .bind (ends_declareParams hfull _ hstart hsize) fun _ w₂ h => ?_
  have hlabel {w : Workbench} : Ends ctx block label w fun _ w' =>
      w'.frame.Has w.frame.signature w.frame.site w.frame.operands.types := ⟨rfl, rfl, rfl⟩
  refine .bind hlabel fun start w₃ h₃ => ?_
  rw [h.signature, h.site, h.operands] at h₃
  refine .bind (hcode h₃) fun _ w₄ _ => .bind hlabel fun stop w₅ _ => ?_
  split
  · exact trivial
  · exact trivial

theorem ends_returnBody {S : Session} {depth : Nat} {text : String} {span : Span} {value : Gen Ty}
    (hfull : 65536 < s.arity →
      InputFault ctx.functions ctx.options block ⟨.internal .tooManySlots s.name, site⟩)
    (hvalue : Balanced ctx block value) :
    Ends ctx block (returnBody ctx text span value) ⟨S, .start s site depth⟩ fun _ _ => True := by
  refine ends_framed hfull fun h => .bind (ends_setLine h _) fun _ _ h => ?_
  exact (ends_returnValue (hvalue h)).mono fun _ _ _ => trivial

end Functions

end Gen

/-- A function ends well if its body does: it is pending until then, so it can be given its code. -/
theorem Session.ends_compileWith {ctx : CodeContext} {block : Block} {s : Signature}
    {flags : EntryFlags} {site : Span} {depth : Nat} {body : Gen Unit}
    (hmakes : Gen.KeepsSession MakesUp body)
    (hbody : ∀ {S : Session}, Gen.Ends ctx block body ⟨S, .start s site depth⟩ fun _ _ => True)
    (S : Session) :
    Attempt.Ends (block.Admits ctx.functions ctx.options) (compileWith s flags site depth body) S
      fun _ _ => True := by
  refine Attempt.ends_of_run (fun _ => trivial) fun hrun => ?_
  cases functionRun (fun w => (hmakes w).grows) hrun with
  | taken hdecl =>
    unfold Registry.declare at hdecl
    split at hdecl <;> cases hdecl
    exact Block.admits_of_not_internal rfl
  | failed _ heq _ => exact hbody.admits_of_run heq

/-- A function that returns the value of one expression. -/
theorem Session.ends_compileReturn {ctx : CodeContext} {block : Block} {s : Signature}
    {flags : EntryFlags} {site : Span} {depth : Nat} {e : Expr} (he : e ∈ block.exprs)
    (hvalue : Gen.Balanced ctx block (Gen.value ctx e)) (hfull : 65536 < s.arity →
      InputFault ctx.functions ctx.options block ⟨.internal .tooManySlots s.name, site⟩)
    (text : String) (span : Span) (S : Session) :
    Attempt.Ends (block.Admits ctx.functions ctx.options)
      (compileWith s flags site depth (Gen.returnBody ctx text span (Gen.value ctx e))) S
      fun _ _ => True :=
  ends_compileWith ((Gen.stable_makesUp ctx block).value he).returnBody
    (Gen.ends_returnBody hfull hvalue) S

/-! ## Arguments and calls -/

namespace Gen

section Promotion

variable {ctx : CodeContext} {block : Block} {s : Signature} {site : Span} {ts : List Ty}
  {w : Workbench} {e : Expr}
  (hvalue : Balanced ctx block (value ctx e))

include hvalue

/-- The wrapper of a constant ends well if the constant does and the wrapper has few parameters. -/
theorem ends_promote (he : e ∈ block.exprs) {params : List Ty} (result : Ty)
    (hfull : ∀ id, 65536 < params.length → InputFault ctx.functions ctx.options block
      ⟨.internal .tooManySlots (wrapperSignature id params result ctx.options.owner).name, e.span⟩)
    (h : w.frame.Has s site ts) :
    Ends ctx block (promote ctx e params result (value ctx e)) w
      fun _ w' => ∃ t, w'.frame.Has s site (t :: ts) := by
  have hslots (id : Nat) : 65536 < (wrapperSignature id params result ctx.options.owner).arity →
      InputFault ctx.functions ctx.options block ⟨.internal .tooManySlots
        (wrapperSignature id params result ctx.options.owner).name, e.span⟩ :=
    fun hmany => hfull id (by simpa [Signature.arity, wrapperSignature] using hmany)
  have hbind {S : Session} {s' : Signature} : Ends ctx block (bindFunction s') ⟨S, w.frame⟩
      fun _ w' => w'.frame.Has s site (s'.toTy :: ts) :=
    ends_bindFunction (w := ⟨S, w.frame⟩) h s'
  refine Attempt.ends_of_run (fun hrun => ?_) fun hrun => ?_
  · cases promotion hrun with
    | reused _ hrun | wrapped _ _ _ _ hrun =>
      cases hrun
      exact ⟨_, hbind⟩
  · cases promotion hrun with
    | reused _ hrun | wrapped _ _ _ _ hrun => cases hrun
    | refused _ hconst =>
      exact Block.admits_of_isStatic (Expr.ensureConstant_isStatic hconst)
    | failed _ _ hs hrun =>
      subst hs
      exact (Session.ends_compileReturn he hvalue (hslots _) _ _ _).admits_of_run hrun

theorem balanced_argument (he : e ∈ block.exprs) (callee : Signature) (position : Nat)
    {formal : Param}
    (hfull : ∀ {params result} id, formal.ty = .fn params result → 65536 < params.length →
      InputFault ctx.functions ctx.options block
        ⟨.internal .tooManySlots (wrapperSignature id params result ctx.options.owner).name, e.span⟩) :
    Balanced ctx block (argument ctx callee position formal e (value ctx e)) := by
  intro s site ts w h
  refine .bind (ends_infer h _) fun actual w₁ h => ?_
  dsimp only
  split
  · exact (hvalue h).discard
  · split
    next params result hty =>
      split
      next =>
        refine .bind (ends_promote hvalue he result (fun id => hfull id hty) h) fun _ w₂ hw₂ => ?_
        obtain ⟨t, hw₂⟩ := hw₂
        exact (ends_popTy hw₂ _ _).discard
      next => exact ends_fail rfl
    next => exact ends_fail rfl

end Promotion

mutual

/-- An expression ends well if it is one of the block's and its anonymous functions are recorded. -/
theorem ends_expr {ctx : CodeContext} {block : Block} : ∀ e ∈ block.exprs,
    ctx.lambdas.Covers e.subexprs → ∀ ⦃s site ts w⦄, w.frame.Has s site ts →
      Ends ctx block (expr ctx e) w fun _ w' =>
        ∃ us, e.Leaves ctx.functions ts us ∧ w'.frame.Has s site us
  | .literal value text span, _, _, s, site, ts, w, h =>
    ends_nested h fun hw => (ends_literal hw value).mono fun _ _ hw' => ⟨_, .inr ⟨_, rfl⟩, hw'⟩
  | .pair first second text span, he, hcovers, s, site, ts, w, h => by
    have hfirst := ends_expr first (Block.first_mem_exprs he)
      (hcovers.of_subset fun _ he' => by simp [Expr.subexprs, he'])
    have hsecond := ends_expr second (Block.second_mem_exprs he)
      (hcovers.of_subset fun _ he' => by simp [Expr.subexprs, he'])
    refine ends_nested h fun hw => ?_
    exact (ends_pair hw (balanced_operand hfirst) (balanced_operand hsecond)).mono
      fun _ _ ⟨t, hw'⟩ => ⟨_, .inr ⟨t, rfl⟩, hw'⟩
  | .var ident, _, _, s, site, ts, w, h =>
    ends_nested h fun hw => (ends_reference hw ident).mono fun _ _ ⟨t, hw'⟩ =>
      ⟨_, .inr ⟨t, rfl⟩, hw'⟩
  | .placeholder span, _, _, s, site, ts, w, h =>
    ends_nested h fun hw => (ends_placeholder hw span).mono fun _ _ ⟨t, hw'⟩ =>
      ⟨_, .inr ⟨t, rfl⟩, hw'⟩
  | .lambda body text span, _, hcovers, s, site, ts, w, h =>
    have hcovered := hcovers (Expr.mem_subexprs_self _)
    ends_nested h fun hw => (ends_lambda hw hcovered span).mono fun _ _ ⟨t, hw'⟩ =>
      ⟨_, .inr ⟨t, rfl⟩, hw'⟩
  | .call ident args text span, he, hcovers, s, site, ts, w, h => by
    refine ends_nested h fun hw => .bind (ends_callee hw ident _ span) fun s' w₁ hw₁ => ?_
    obtain ⟨hw₁, hs', harity⟩ := hw₁
    have hargs := balanced_arguments args (fun _ => Block.arg_mem_exprs he)
      (hcovers.of_subset fun _ he' => by simp [Expr.subexprs, he']) s' 0 s'.params
      fun harg _ _ id hp hmany => .wrapperSlots id he hs' harg hp hmany
    refine .bind (hargs hw₁) fun _ w₂ hw₂ => ?_
    refine (ends_finishCall hw₂ s' fun hmany => .arguments he hs' harity hmany).mono ?_
    rintro _ w' ⟨us, ⟨rfl, hunit⟩ | hus, hw'⟩
    · exact ⟨_, .inl ⟨rfl, _, _, _, _, s', rfl, hs', hunit⟩, hw'⟩
    · exact ⟨us, .inr hus, hw'⟩

/-- Arguments are taken at once. -/
theorem balanced_arguments {ctx : CodeContext} {block : Block} : ∀ es : List Expr,
    (∀ e ∈ es, e ∈ block.exprs) → ctx.lambdas.Covers (Expr.subexprsAll es) →
    ∀ (callee : Signature) (position : Nat) (formals : List Param),
      (∀ {p e}, (p, e) ∈ formals.zip es → ∀ params result id, p.ty = .fn params result →
        65536 < params.length → InputFault ctx.functions ctx.options block
          ⟨.internal .tooManySlots (wrapperSignature id params result ctx.options.owner).name,
            e.span⟩) →
      Balanced ctx block (arguments ctx callee position formals es)
  | [], _, _, _, _, _, _ => fun _ _ _ _ h => h
  | _ :: _, _, _, _, _, [], _ => fun _ _ _ _ h => h
  | e :: es, hes, hcovers, callee, position, formal :: formals, hfull => by
    have hexpr := ends_expr e (hes e (by simp))
      (hcovers.of_subset fun _ he' => by simp [Expr.subexprsAll, he'])
    have hrest := balanced_arguments es (fun e' he' => hes e' (by simp [he']))
      (hcovers.of_subset fun _ he' => by simp [Expr.subexprsAll, he']) callee (position + 1) formals
      fun harg => hfull (by simp [harg])
    intro s site ts w h
    refine .bind (balanced_argument (balanced_operand hexpr) (hes e (by simp)) callee position ?_ h)
      fun _ w₁ hw₁ => hrest hw₁
    exact fun {params result} => hfull (by simp) params result

end

/-- The value of an expression is taken at once. -/
theorem balanced_value {ctx : CodeContext} {block : Block} {e : Expr} (he : e ∈ block.exprs)
    (hcovers : ctx.lambdas.Covers e.subexprs) : Balanced ctx block (value ctx e) :=
  balanced_operand (ends_expr e he hcovers)

/-! ## Bodies -/

/-- Between two statements the stack is emptied. -/
theorem ends_dropOperands {ctx : CodeContext} {block : Block} {s : Signature} {site : Span}
    {ts : List Ty} {w : Workbench} (h : w.frame.Has s site ts) :
    Ends ctx block dropOperands w fun _ w' => w'.frame.Has s site [] :=
  ⟨h.signature, h.site, rfl⟩

/-- The statements of a body end well, if a body without a value is excused. -/
theorem ends_stmts {ctx : CodeContext} {block : Block} {s : Signature} {site : Span} :
    ∀ ss : List Stmt, (∀ e ∈ Stmt.exprsAll ss, e ∈ block.exprs) →
    ctx.lambdas.Covers (Stmt.exprsAll ss) →
    (ss = [] → s.result ≠ .unit →
      InputFault ctx.functions ctx.options block ⟨.internal (.noValueLeft s.result) s.name, site⟩) →
    (∀ init e, ss = init ++ [.expr e] → e.CallsUnit ctx.functions → s.result ≠ .unit →
      InputFault ctx.functions ctx.options block ⟨.internal (.noValueLeft s.result) s.name, e.span⟩) →
    ∀ {w : Workbench}, w.frame.Has s site [] → Ends ctx block (stmts ctx ss) w fun _ _ => True
  | [], _, _, hempty, _, w, h => by
    refine .bind ends_frame fun fr w₁ hframe => ?_
    obtain ⟨rfl, rfl⟩ := hframe
    rw [h.site]
    exact ends_returnLeft h (.inl ⟨rfl, hempty rfl⟩)
  | st :: rest, hss, hcovers, _, hcall, w, h => by
    have hhead {e : Expr} (he : e ∈ st.exprs) : e ∈ block.exprs :=
      hss e (List.mem_append_left _ he)
    have hheadCovers : ctx.lambdas.Covers st.exprs :=
      hcovers.of_subset fun _ he => List.mem_append_left _ he
    have hstmt {w : Workbench} (h : w.frame.Has s site []) : Ends ctx block (stmt ctx st) w
        fun _ w' => ∃ us, w'.frame.Has s site us ∧
          (st.isRet = false → ∃ e, st = .expr e ∧ e.Leaves ctx.functions [] us) := by
      cases st with
      | expr e =>
        refine (ends_expr e (hhead e.mem_subexprs_self) hheadCovers h).mono ?_
        rintro _ w' ⟨us, hus, hw'⟩
        exact ⟨us, hw', fun _ => ⟨e, rfl, hus⟩⟩
      | ret e span =>
        have hvalue := balanced_value (hhead e.mem_subexprs_self) hheadCovers
        exact (ends_returnValue (hvalue h)).mono fun _ _ hw' => ⟨[], hw', fun hret => nomatch hret⟩
      | decl => exact ends_fail rfl
    refine .bind (ends_setLine h _) fun _ w₁ h => .bind (hstmt h) fun _ w₂ hw₂ => ?_
    obtain ⟨us, h, hleft⟩ := hw₂
    cases rest with
    | nil =>
      dsimp only
      split
      next => exact trivial
      next hret =>
        obtain ⟨e, rfl, hus⟩ := hleft (by simpa using hret)
        refine ends_returnLeft h (hus.imp (fun hcalls => ⟨hcalls.1, fun hresult => ?_⟩) id)
        exact hcall [] e rfl hcalls.2 hresult
    | cons st' rest =>
      refine .bind (ends_dropOperands h) fun _ w₃ h => ?_
      refine ends_stmts (st' :: rest) (fun e he => hss e (List.mem_append_right _ he))
        (hcovers.of_subset fun _ he => List.mem_append_right _ he) (fun hnil => nomatch hnil) ?_ h
      intro init e hinit
      exact hcall (st :: init) e (by rw [hinit]; rfl)

end Gen

/-- A declared function ends well: if it leaves no value or has too many arguments, that is because of
the block and the known functions. -/
theorem Session.ends_compileDecl {ctx : CodeContext} {block : Block} {d : Decl}
    (hd : d ∈ block.decls) (hcovers : ctx.lambdas.Covers block.exprs) (S : Session) :
    Attempt.Ends (block.Admits ctx.functions ctx.options) (compileDecl ctx d) S
      fun _ _ => True := by
  have hexprs : ∀ e ∈ Stmt.exprsAll d.body, e ∈ block.exprs := Block.mem_exprs_of_mem_decls hd
  refine .bind (Attempt.ends_ofExcept fun herr => ?_) fun s S₁ hS₁ => ?_
  · exact Block.admits_of_isStatic (resolve_isStatic herr)
  obtain ⟨hresolve, rfl⟩ := hS₁
  have hs := Expr.resolve_eq_ok.1 hresolve
  have hmakes : Gen.KeepsSession MakesUp (Gen.body ctx d.body) := fun w =>
    ((Gen.stable_makesUp ctx block).body hexprs w).choose_spec
  refine ends_compileWith hmakes (Gen.ends_framed (.slots hd hs) fun h => ?_) S₁
  exact Gen.ends_stmts d.body hexprs (hcovers.of_subset hexprs)
    (fun hbody hresult => .emptyBody hd hs hresult hbody)
    (fun _ _ hbody hcalls hresult => .unitCall hd hs hresult hbody hcalls) h

/-! ## Anonymous functions -/

/-- Texts that are recorded stay recorded. -/
def LambdaTable.Extends (t t' : LambdaTable) : Prop :=
  ∀ ⦃text s⦄, t.get? text = some s → ∃ s', t'.get? text = some s'

theorem LambdaTable.Extends.refl (t : LambdaTable) : t.Extends t := fun _ s hs => ⟨s, hs⟩

theorem LambdaTable.Extends.trans {t t' t'' : LambdaTable} (h : t.Extends t')
    (h' : t'.Extends t'') : t.Extends t'' := by
  intro text s hs
  obtain ⟨s', hs'⟩ := h hs
  exact h' hs'

theorem LambdaTable.Covers.extends {t t' : LambdaTable} {es : List Expr} (h : t.Covers es)
    (ht : t.Extends t') : t'.Covers es := by
  intro body text span he
  obtain ⟨s, hs⟩ := h he
  exact ht hs

theorem LambdaTable.extends_insert (t : LambdaTable) (text : String) (s : Signature) :
    t.Extends (t.insert text s) := by
  intro text' s' hs'
  rw [get?_insert]
  split
  · exact ⟨s, rfl⟩
  · exact ⟨s', hs'⟩

/-- What the walk does to its table: texts stay, and the anonymous functions of these expressions are
recorded. -/
def LambdaTable.Meets (t t' : LambdaTable) (es : List Expr) : Prop := t.Extends t' ∧ t'.Covers es

theorem LambdaTable.Meets.append {t t' t'' : LambdaTable} {es es' : List Expr} (h : t.Meets t' es)
    (h' : t'.Meets t'' es') : t.Meets t'' (es ++ es') := by
  refine ⟨h.1.trans h'.1, fun body text span he => ?_⟩
  rcases List.mem_append.1 he with he | he
  · exact (h.2.extends h'.1) he
  · exact h'.2 he

theorem LambdaTable.Meets.of_no_lambda {t : LambdaTable} {es : List Expr}
    (hes : ∀ body text span, Expr.lambda body text span ∉ es) : t.Meets t es :=
  ⟨.refl t, fun _ _ _ he => absurd he (hes _ _ _)⟩

namespace Hoist

variable {block : Block} {functions : FunctionTable} {options : Options}

/-- Whether a step of the walk ends well and meets these expressions. -/
abbrev Meets (block : Block) (functions : FunctionTable) (options : Options) (x : Hoist Unit)
    (es : List Expr) : Prop :=
  ∀ w, Attempt.Ends (block.Admits functions options) x w fun _ w' => w.table.Meets w'.table es

theorem Meets.bind {x y : Hoist Unit} {es es' : List Expr}
    (hx : Meets block functions options x es) (hy : Meets block functions options y es') :
    Meets block functions options (x >>= fun _ => y) (es ++ es') :=
  fun w => .bind (hx w) fun _ w₁ hw₁ => (hy w₁).mono fun _ _ hw₂ => hw₁.append hw₂

/-- A step behind a check of the depth. -/
theorem Meets.checked {x : Hoist Unit} {es : List Expr} (hx : Meets block functions options x es)
    (depth : Nat) (span : Span) :
    Meets block functions options
      (Attempt.ofExcept (ensureDepth options.maxDepth depth span) >>= fun _ => x) es := by
  intro w
  refine .bind (Attempt.ends_ofExcept fun herr => ?_) fun _ w₁ hw₁ => ?_
  · exact Block.admits_of_isStatic (ensureDepth_isStatic herr)
  · obtain ⟨-, rfl⟩ := hw₁
    exact hx w₁

/-- A function is made for an anonymous function, if those in its body are recorded. -/
theorem ends_lambda {body : Expr} {text : String} {span : Span}
    (he : Expr.lambda body text span ∈ block.exprs) {w : Walk}
    (hcovers : w.table.Covers body.subexprs) :
    Attempt.Ends (block.Admits functions options) (lambda functions options body text span) w
      fun _ w' => w.table.Extends w'.table ∧ ∃ s, w'.table.get? text = some s := by
  have hbody := Block.body_mem_exprs he
  have hvalue : Gen.Balanced ⟨functions, options, w.table⟩ block
      (Gen.value ⟨functions, options, w.table⟩ body) := Gen.balanced_value hbody hcovers
  refine Attempt.ends_of_run (fun hrun => ?_) fun hrun => ?_
  · cases meeting hrun with
    | recorded hs => exact ⟨.refl _, _, hs⟩
    | identity | compiled =>
      exact ⟨LambdaTable.extends_insert _ _ _, _, by rw [LambdaTable.get?_insert, if_pos rfl]⟩
  · cases meeting hrun with
    | untyped _ htype => exact Block.admits_of_isStatic (Expr.inferAt_isStatic body htype)
    | failed _ _ hs hcompiled =>
      subst hs
      refine (Session.ends_compileReturn hbody hvalue ?_ _ _ _).admits_of_run hcompiled
      intro hmany
      simp [Signature.arity, lambdaSignature] at hmany

mutual

theorem meets_expr : ∀ e ∈ block.exprs, ∀ depth,
    Meets block functions options (expr functions options depth e) e.subexprs
  | .literal _ _ span, _, depth | .var _, _, depth | .placeholder span, _, depth => by
    intro w
    refine (Attempt.ends_ofExcept fun herr => ?_).mono fun _ w₁ hw₁ => ?_
    · exact Block.admits_of_isStatic (ensureDepth_isStatic herr)
    · rw [hw₁.2]
      exact .of_no_lambda fun _ _ _ he => by simp [Expr.subexprs] at he
  | .pair first second text span, he, depth => by
    have hfirst := meets_expr first (Block.first_mem_exprs he) (depth + 1)
    have hsecond := meets_expr second (Block.second_mem_exprs he) (depth + 1)
    intro w
    refine ((hfirst.bind hsecond).checked depth span w).mono fun _ w' hw' => ⟨hw'.1, ?_⟩
    intro body text' span' he'
    exact hw'.2 (by simpa [Expr.subexprs] using he')
  | .lambda body text span, he, depth => by
    have hbody := meets_expr body (Block.body_mem_exprs he) (depth + 1)
    have hboth : Meets block functions options
        (expr functions options (depth + 1) body >>= fun _ =>
          lambda functions options body text span) (Expr.lambda body text span).subexprs := by
      intro w
      refine .bind (hbody w) fun _ w₁ hw₁ => (ends_lambda he hw₁.2).mono fun _ w₂ hw₂ => ?_
      refine ⟨hw₁.1.trans hw₂.1, fun body' text' span' he' => ?_⟩
      rw [Expr.subexprs] at he'
      rcases List.mem_cons.1 he' with heq | he'
      · cases heq
        exact hw₂.2
      · exact (hw₁.2.extends hw₂.1) he'
    exact hboth.checked depth span
  | .call callee args text span, he, depth => by
    have hargs := meets_exprs args (fun _ => Block.arg_mem_exprs he) (depth + 1)
    intro w
    refine (hargs.checked depth span w).mono fun _ w' hw' => ⟨hw'.1, ?_⟩
    intro body text' span' he'
    exact hw'.2 (by simpa [Expr.subexprs] using he')

theorem meets_exprs : ∀ es : List Expr, (∀ e ∈ es, e ∈ block.exprs) → ∀ depth,
    Meets block functions options (exprs functions options depth es) (Expr.subexprsAll es)
  | [], _, _ => fun _ => .of_no_lambda fun _ _ _ he => nomatch he
  | e :: es, hes, depth =>
    (meets_expr e (hes e (by simp)) depth).bind
      (meets_exprs es (fun e' he' => hes e' (by simp [he'])) depth)

end

mutual

theorem meets_stmt : ∀ s : Stmt, (∀ e ∈ s.exprs, e ∈ block.exprs) → ∀ depth,
    Meets block functions options (stmt functions options depth s) s.exprs
  | .expr e, hs, depth =>
    (meets_expr e (hs e e.mem_subexprs_self) depth).checked depth e.span
  | .ret e span, hs, depth => (meets_expr e (hs e e.mem_subexprs_self) depth).checked depth span
  | .decl _ body span, hs, depth => (meets_stmts body hs (depth + 1)).checked depth span

theorem meets_stmts : ∀ ss : List Stmt, (∀ e ∈ Stmt.exprsAll ss, e ∈ block.exprs) → ∀ depth,
    Meets block functions options (stmts functions options depth ss) (Stmt.exprsAll ss)
  | [], _, _ => fun _ => .of_no_lambda fun _ _ _ he => nomatch he
  | s :: ss, hss, depth =>
    (meets_stmt s (fun e he => hss e (List.mem_append_left _ he)) depth).bind
      (meets_stmts ss (fun e he => hss e (List.mem_append_right _ he)) depth)

end

/-- The walk through a block ends well, and records all anonymous functions. -/
theorem meets_topLevel : ∀ ss : List Stmt, (∀ e ∈ Stmt.exprsAll ss, e ∈ block.exprs) →
    Meets block functions options (topLevel functions options ss) (Stmt.exprsAll ss)
  | [], _ => fun _ => .of_no_lambda fun _ _ _ he => nomatch he
  | .decl _ body _ :: ss, hss =>
    (meets_stmts body (fun e he => hss e (List.mem_append_left _ he)) 0).bind
      (meets_topLevel ss fun e he => hss e (List.mem_append_right _ he))
  | .expr e :: ss, hss =>
    (meets_stmt (.expr e) (fun e he => hss e (List.mem_append_left _ he)) 0).bind
      (meets_topLevel ss fun e he => hss e (List.mem_append_right _ he))
  | .ret e span :: ss, hss =>
    (meets_stmt (.ret e span) (fun e he => hss e (List.mem_append_left _ he)) 0).bind
      (meets_topLevel ss fun e he => hss e (List.mem_append_right _ he))

end Hoist

/-! ## Whole blocks -/

/-- Declared functions report only errors that the block admits. -/
theorem Session.admits_compileDecls (ctx : CodeContext) {block : Block}
    (hcovers : ctx.lambdas.Covers block.exprs) : ∀ (ds : List Decl), ds ⊆ block.decls →
    ∀ (S : Session), ∀ err ∈ (S.compileDecls ctx ds).2,
      block.Admits ctx.functions ctx.options err
  | [], _, _, _, herr => nomatch herr
  | d :: ds, hds, S, err, herr => by
    have hrest : ds ⊆ block.decls := fun _ hd => hds (List.mem_cons_of_mem _ hd)
    have hends := ends_compileDecl (hds List.mem_cons_self) hcovers S
    rcases hrun : compileDecl ctx d S with ⟨e | _, S'⟩ <;> simp only [compileDecls, hrun] at herr
    · rcases List.mem_cons.1 herr with rfl | herr
      · exact hends.admits_of_run hrun
      · exact admits_compileDecls ctx hcovers ds hrest _ err herr
    · exact admits_compileDecls ctx hcovers ds hrest S' err herr

/-- Every internal error that a compilation reports was brought about by the block and the known
functions.  No operand is missing or left over, no anonymous function is missing, and no function is
given code that it cannot be given. -/
theorem internal_errors_from_input {functions : FunctionTable} {options : Options} {block : Block}
    {err : CompileError} (herr : err ∈ (compileBlock functions options block).errors)
    (hinternal : err.isInternal = true) : InputFault functions options block err := by
  suffices hadmits : block.Admits functions options err from hadmits hinternal
  have hwalk : Hoist.Meets block functions options (Hoist.topLevel functions options block.stmts)
      block.exprs := Hoist.meets_topLevel block.stmts fun _ he => he
  have hends := hwalk { session := .start }
  unfold compileBlock at herr
  rw [Block.hoist_eq] at herr
  rcases hrun : Hoist.topLevel functions options block.stmts { session := .start } with
    ⟨e | _, w⟩ <;> simp only [hrun] at herr
  · obtain rfl := List.mem_singleton.1 herr
    exact hends.admits_of_run hrun
  · have hcovers : (block.walk functions options).table.Covers block.exprs := by
      unfold Attempt.Ends at hends
      simp only [hrun] at hends
      rw [Block.walk, hrun]
      exact hends.2
    exact Session.admits_compileDecls ⟨functions, options, (block.walk functions options).table⟩
      hcovers block.decls (List.Subset.refl _) _ err herr

/-- A block that declares a function without a body. -/
def emptyBlock : Block := ⟨[.decl ⟨"f", default⟩ [] default]⟩

theorem internal_errors_from_input_emptyBlock :
    (⟨.internal (.noValueLeft (.fn [.real] .real)) "f", default⟩ : CompileError) ∈
        (compileBlock identityFunctions {} emptyBlock).errors ∧
      InputFault identityFunctions {} emptyBlock
        ⟨.internal (.noValueLeft (.fn [.real] .real)) "f", default⟩ := by
  have herr : (⟨.internal (.noValueLeft (.fn [.real] .real)) "f", default⟩ : CompileError) ∈
      (compileBlock identityFunctions {} emptyBlock).errors := by
    decide +kernel
  exact ⟨herr, internal_errors_from_input herr rfl⟩

end BlockCompiler
