import BlockCompiler.Proofs.FrameGrowth
import BlockCompiler.Proofs.NestingCeiling
import BlockCompiler.Proofs.Returns

/-!
# What a type error leaves behind

The types of a pair are checked before its code is written, and so is the type of an argument.  But a
call writes the code of one argument before it checks the next one, and a pair is begun before the calls
in it are checked.  So an expression that a check refuses may have left code and constants behind.  This
file says exactly when it has not.

* `Expr.front` says what comes first when an expression is compiled: a check that refuses it, an
  instruction, or the wrapper of an argument.  It follows the first argument of a call, the first argument
  of that, and so on.
* `Gen.Starts` says what each of these does to a workbench, and `Gen.starts_expr` is the induction on
  expressions.  What comes later only adds to it: that is `Gen.Grows`.
* `type_error_leaves` is the result: a refused expression leaves everything as it was, one that begins
  with an instruction leaves code, and one that begins with a wrapper leaves what the wrapper's own code
  left.

A block of refused expressions adds no constants: see `Session.pool_compileDecls_of_refused`.
-/

namespace BlockCompiler

/-- Whether an error says that types do not fit. -/
def CompileError.isTypeError (e : CompileError) : Bool :=
  match e.cause with
  | .pairTypeMismatch _ _ | .argumentTypeMismatch _ _ _ _ _ | .nonConstantExpression _ => true
  | _ => false

theorem CompileError.not_tooDeep_of_isTypeError {e : CompileError} (h : e.isTypeError = true) :
    e.isTooDeep = false := by
  obtain ⟨cause, span⟩ := e
  cases cause <;> first | rfl | cases h

namespace Attempt

variable {σ α β : Type} {x : Attempt σ α} {f : α → Attempt σ β} {s s' : σ}

theorem bind_of_error {err : CompileError} (h : x s = (.error err, s')) :
    (x >>= f) s = (.error err, s') := by
  rw [bind_run, h]

theorem bind_of_ok {a : α} (h : x s = (.ok a, s')) : (x >>= f) s = f a s' := by
  rw [bind_run, h]

end Attempt

/-! ## What comes first -/

/-- What comes first when an expression is compiled. -/
inductive Expr.Front where
  /-- A check refuses the expression. -/
  | refused (err : CompileError)
  /-- An instruction is written. -/
  | writes
  /-- The wrapper of an argument is compiled. -/
  | wraps (arg : Expr)

/-- A check before an instruction. -/
def Expr.Front.ofCheck {α : Type} : Except CompileError α → Front
  | .error err => .refused err
  | .ok _ => .writes

/-- What types depend on where a scope is in view. -/
def CodeContext.typing (ctx : CodeContext) (scope : Scope) : TypingContext :=
  ⟨ctx.functions, scope, ctx.lambdas, ctx.options.maxDepth⟩

/-- The type of a pair of expressions, before its code is written. -/
def TypingContext.pairType (ctx : TypingContext) (first second : Expr) (span : Span) :
    Except CompileError Ty := do
  let a ← first.infer ctx
  let b ← second.infer ctx
  Ty.pairOf a.ty b.ty span

/-- The function that a call calls, before the code of its arguments is written. -/
def FunctionTable.calleeOf (functions : FunctionTable) (ident : Ident) (argCount : Nat) (span : Span) :
    Except CompileError Signature := do
  let s ← resolve functions ident
  if argCount = s.arity then .ok s
  else .error ⟨.argumentCountMismatch s.name s.arity argCount, span⟩

namespace Expr

section Front

variable (ctx : CodeContext) (scope : Scope) (wrapper? : String → Option Signature)

/-- What comes first when a constant is promoted. -/
def promotionFront (e : Expr) (params : List Ty) (result : Ty) : Front :=
  match wrapper? (Gen.wrapperKey (.fn params result) e.text) with
  | some _ => .writes
  | none =>
    match e.ensureConstant ctx.functions ctx.options.maxDepth with
    | .error err => .refused err
    | .ok _ => .wraps e

/-- What comes first when the first argument of a call is compiled, given the same for its own code. -/
def argumentFront (callee : Signature) (formal : Param) (e : Expr) (own : Front) : Front :=
  match e.infer (ctx.typing scope) with
  | .error err => .refused err
  | .ok typing =>
    if typing.ty = formal.ty then own
    else
      let mismatch : Front := .refused
        ⟨.argumentTypeMismatch callee.name 0 formal.name formal.ty.render typing.ty.render, e.span⟩
      match formal.ty with
      | .fn params result =>
        if result = typing.ty then promotionFront ctx wrapper? e params result else mismatch
      | _ => mismatch

mutual

/-- What comes first when an expression is compiled that is not nested too deeply. -/
def front : Expr → Front
  | .literal _ _ _ => .writes
  | .pair first second _ span => .ofCheck ((ctx.typing scope).pairType first second span)
  | .var ident => .ofCheck (inferName ctx.functions scope ident)
  | .placeholder span =>
    if (scope.get? placeholderText).any (·.ty = .real) then .writes
    else .refused ⟨.unknownIdentifier placeholderText, span⟩
  | .lambda _ text span =>
    match ctx.lambdas.get? text with
    | some _ => .writes
    | none => .refused ⟨.internal .lambdaNotHoisted text, span⟩
  | .call ident args _ span =>
    match ctx.functions.calleeOf ident args.length span with
    | .error err => .refused err
    | .ok s => argumentsFront s s.params args
termination_by structural e => e

/-- What comes first when a call is compiled whose callee is known. -/
def argumentsFront (s : Signature) (formals : List Param) : List Expr → Front
  | [] => .writes
  | e :: _ =>
    match formals with
    | [] => .writes
    | formal :: _ => argumentFront ctx scope wrapper? s formal e (front e)
termination_by structural es => es

end

end Front

end Expr

namespace Gen

open BlockCompiler.Expr (Front)

variable {α β : Type} {ctx : CodeContext} {w : Workbench} {f : Front}

/-! ## Checks -/

theorem infer_eq (e : Expr) (w : Workbench) :
    infer ctx e w = ((e.infer (ctx.typing w.frame.scope)).map Typing.ty, w) := by
  show (Attempt.ofExcept (e.infer (ctx.typing w.frame.scope)) >>= _) w = _
  rw [Attempt.bind_run, Attempt.ofExcept]
  cases e.infer (ctx.typing w.frame.scope) <;> rfl

theorem callee_eq (ident : Ident) (argCount : Nat) (span : Span) (w : Workbench) :
    callee ctx ident argCount span w = (ctx.functions.calleeOf ident argCount span, w) := by
  unfold callee FunctionTable.calleeOf
  rw [Attempt.bind_run, Attempt.ofExcept]
  cases resolve ctx.functions ident with
  | error err => rfl
  | ok s =>
    dsimp only [bind, Except.bind]
    split <;> rfl

/-! ## What the first step does -/

/-- Whether the failure of a wrapper goes back to the code of the expression in it: that code failed with
the same error, and the pool is as it left it. -/
def FailsIn (ctx : CodeContext) (e : Expr) (p : Pool) (err : CompileError) (p' : Pool) : Prop :=
  ∃ w₀ w₁, expr ctx e w₀ = (.error err, w₁) ∧ w₀.session.pool = p ∧ w₁.session.pool = p'

/-- Whether a step begins in a way that was foretold, unless it fails because of its nesting.  Code that is
written stays. -/
def Starts (ctx : CodeContext) (x : Gen α) (w : Workbench) : Front → Prop
  | .refused err' => (x w).2 = w ∧
      ∃ err, (x w).1 = .error err ∧ (err = err' ∨ err.isTooDeep = true)
  | .writes => w.frame.emitter.offset < (x w).2.frame.emitter.offset ∨
      (x w).2 = w ∧ ∃ err, (x w).1 = .error err ∧ err.isTooDeep = true
  | .wraps e => w.frame.emitter.offset < (x w).2.frame.emitter.offset ∨
      (x w).2.frame = w.frame ∧ ∃ err, (x w).1 = .error err ∧
        (err.isTypeError = true → FailsIn ctx e w.session.pool err (x w).2.session.pool)

theorem Starts.of_eq {x y : Gen α} (h : Starts ctx y w f) (heq : x w = y w) : Starts ctx x w f := by
  unfold Starts at h ⊢
  rwa [heq]

theorem starts_refused {x : Gen α} {err : CompileError} (h : x w = (.error err, w)) :
    Starts ctx x w (.refused err) := by
  rw [Starts, h]
  exact ⟨rfl, err, rfl, .inl rfl⟩

theorem starts_of_tooDeep {x : Gen α} {err : CompileError} (h : x w = (.error err, w))
    (hdeep : err.isTooDeep = true) : Starts ctx x w f := by
  have htype : err.isTypeError ≠ true := fun htype => by
    rw [CompileError.not_tooDeep_of_isTypeError htype] at hdeep
    cases hdeep
  cases f with
  | refused => exact ⟨by rw [h], err, by rw [h], .inr hdeep⟩
  | writes => exact .inr ⟨by rw [h], err, by rw [h], hdeep⟩
  | wraps => exact .inr ⟨by rw [h], err, by rw [h], fun h => absurd h htype⟩

/-- Looking at the frame comes before anything else. -/
theorem starts_frame {k : Frame → Gen α} (h : Starts ctx (k w.frame) w f) :
    Starts ctx (frame >>= k) w f :=
  h.of_eq rfl

theorem starts_emit {g : Emitter → Emitter} (hg : Emitter.Extends g) : Starts ctx (emit g) w .writes :=
  .inl (hg.offset_lt w.frame.emitter)

theorem starts_emitPooled {g : Emitter → Pool → Emitter × Pool}
    (hg : ∀ p, Emitter.Extends fun e => (g e p).1) : Starts ctx (emitPooled g) w .writes :=
  .inl ((hg w.session.pool).offset_lt w.frame.emitter)

/-- What comes later only adds to what came first. -/
theorem Starts.bind {x : Gen α} {k : α → Gen β} (h : Starts ctx x w f) (hk : ∀ a, Grows (k a)) :
    Starts ctx (x >>= k) w f := by
  rcases hrun : x w with ⟨err | a, w₁⟩
  · have hbind : (x >>= k) w = (.error err, w₁) := by rw [Attempt.bind_run, hrun]
    unfold Starts at h ⊢
    rw [hrun] at h
    rw [hbind]
    cases f with
    | refused | writes | wraps => simpa using h
  · have hbind : (x >>= k) w = k a w₁ := by rw [Attempt.bind_run, hrun]
    have hlater : w₁.frame.emitter.offset ≤ ((x >>= k) w).2.frame.emitter.offset :=
      hbind ▸ (hk a w₁).offset_le
    unfold Starts at h
    rw [hrun] at h
    cases f with
    | refused err => exact nomatch h.2.choose_spec.1
    | writes | wraps =>
      rcases h with hlt | ⟨-, err, herr, -⟩
      · exact .inl (Nat.lt_of_lt_of_le hlt hlater)
      · cases herr

theorem Starts.discard {x : Gen α} (h : Starts ctx x w f) : Starts ctx (discard x) w f :=
  h.bind fun _ => grows_pure _

theorem Starts.operand {e : Expr} {code : Gen Unit} (h : Starts ctx code w f) :
    Starts ctx (operand e code) w f := by
  refine Starts.of_eq (h.bind fun _ => .bind grows_frame fun fr => ?_) rfl
  split
  · exact .bind (grows_emit Emitter.extends_unit) fun _ =>
      .bind (grows_pushTy _) fun _ => grows_popTy _ _
  · exact grows_popTy _ _

theorem isTooDeep_of_ensureDepth {limit depth : Nat} {span : Span} {err : CompileError}
    (h : ensureDepth limit depth span = .error err) : err.isTooDeep = true := by
  unfold ensureDepth at h
  split at h <;> cases h
  rfl

/-- The level of an expression is given back, so that a step that changed nothing one level deeper has
changed nothing. -/
theorem Starts.nested {span : Span} {x : Gen α}
    (h : Starts ctx x { w with frame.depth := w.frame.depth + 1 } f) :
    Starts ctx (nested ctx span x) w f := by
  have hcheck {r : Except CompileError Unit}
      (hr : ensureDepth ctx.options.maxDepth w.frame.depth span = r) :
      (Attempt.ofExcept (ensureDepth ctx.options.maxDepth w.frame.depth span) : Gen Unit) w = (r, w) :=
    congrArg (·, w) hr
  cases hdepth : ensureDepth ctx.options.maxDepth w.frame.depth span with
  | error err =>
    have hrun : Gen.nested ctx span x w = (.error err, w) :=
      (Attempt.bind_of_ok rfl).trans (Attempt.bind_of_error (hcheck hdepth))
    exact starts_of_tooDeep hrun (isTooDeep_of_ensureDepth hdepth)
  | ok _ =>
    have hrun : Gen.nested ctx span x w =
        (x.ending fun w => { w with frame.depth := w.frame.depth - 1 })
          { w with frame.depth := w.frame.depth + 1 } :=
      (Attempt.bind_of_ok rfl).trans ((Attempt.bind_of_ok (hcheck hdepth)).trans (Attempt.bind_of_ok rfl))
    unfold Starts at h ⊢
    rw [hrun, Attempt.ending]
    rcases hx : x { w with frame.depth := w.frame.depth + 1 } with ⟨r, w₁⟩
    rw [hx] at h
    cases f with
    | refused err =>
      obtain ⟨rfl, herr⟩ := h
      exact ⟨rfl, herr⟩
    | writes =>
      rcases h with h | ⟨rfl, herr⟩
      · exact .inl h
      · exact .inr ⟨rfl, herr⟩
    | wraps e =>
      obtain ⟨S₁, fr₁⟩ := w₁
      rcases h with h | ⟨rfl, herr⟩
      · exact .inl h
      · exact .inr ⟨rfl, herr⟩

/-! ## Expressions -/

theorem starts_bindFunction (s : Signature) : Starts ctx (bindFunction s) w .writes :=
  (starts_emitPooled fun _ => Emitter.extends_write _ _ _).bind fun _ => grows_pushTy _

theorem starts_literal (value : Literal) : Starts ctx (literal value) w .writes := by
  cases value with
  | int | real | string =>
    exact (starts_emitPooled (Emitter.extends_constant _)).bind fun _ => grows_pushTy _
  | bool v => exact (starts_emit (Emitter.extends_bool v)).bind fun _ => grows_pushTy _
  | unit => exact (starts_emit Emitter.extends_unit).bind fun _ => grows_pushTy _

theorem starts_loadVar (v : LocalVar) : Starts ctx (loadVar v) w .writes :=
  (starts_emit (Emitter.extends_load _ _)).bind fun _ => grows_pushTy _

theorem starts_reference (ident : Ident) :
    Starts ctx (reference ctx ident) w (.ofCheck (inferName ctx.functions w.frame.scope ident)) := by
  refine starts_frame ?_
  unfold inferName
  cases w.frame.scope.get? ident.name with
  | some v => exact starts_loadVar v
  | none =>
    cases ctx.functions.get? ident.name with
    | some s => exact starts_bindFunction s
    | none => exact starts_refused rfl

theorem starts_placeholder (span : Span) :
    Starts ctx (placeholder span) w
      (if (w.frame.scope.get? Expr.placeholderText).any (·.ty = Ty.real) then .writes
      else .refused ⟨.unknownIdentifier Expr.placeholderText, span⟩) := by
  refine starts_frame ?_
  let unknown : Gen Unit := .fail ⟨.unknownIdentifier Expr.placeholderText, span⟩
  cases w.frame.scope.get? Expr.placeholderText with
  | some v =>
    by_cases hv : v.ty = Ty.real
    · simpa [hv] using starts_loadVar v
    · have hunknown : Starts ctx unknown w
          (.refused ⟨.unknownIdentifier Expr.placeholderText, span⟩) := starts_refused rfl
      simpa [hv] using hunknown
  | none => exact starts_refused rfl

theorem starts_lambda (text : String) (span : Span) :
    Starts ctx (lambda ctx text span) w
      (match ctx.lambdas.get? text with
        | some _ => .writes
        | none => .refused ⟨.internal .lambdaNotHoisted text, span⟩) := by
  unfold lambda
  cases ctx.lambdas.get? text with
  | some s => exact starts_bindFunction s
  | none => exact starts_refused rfl

/-- The first instruction of a pair is written as soon as its type is known. -/
theorem starts_pair {first second : Expr} {span : Span} {firstValue secondValue : Gen Ty}
    (hfirst : Grows firstValue) (hsecond : Grows secondValue) :
    Starts ctx (pair ctx first second span firstValue secondValue) w
      (.ofCheck ((ctx.typing w.frame.scope).pairType first second span)) := by
  unfold pair TypingContext.pairType
  cases ha : first.infer (ctx.typing w.frame.scope) with
  | error err =>
    have hrun : infer ctx first w = (.error err, w) := by rw [infer_eq, ha]; rfl
    exact starts_refused (Attempt.bind_of_error hrun)
  | ok a =>
    have hrun : infer ctx first w = (.ok a.ty, w) := by rw [infer_eq, ha]; rfl
    refine Starts.of_eq ?_ (Attempt.bind_of_ok hrun)
    cases hb : second.infer (ctx.typing w.frame.scope) with
    | error err =>
      have hrun : infer ctx second w = (.error err, w) := by rw [infer_eq, hb]; rfl
      exact starts_refused (Attempt.bind_of_error hrun)
    | ok b =>
      have hrun : infer ctx second w = (.ok b.ty, w) := by rw [infer_eq, hb]; rfl
      refine Starts.of_eq ?_ (Attempt.bind_of_ok hrun)
      show Starts ctx _ w (.ofCheck (Ty.pairOf a.ty b.ty span))
      cases hty : Ty.pairOf a.ty b.ty span with
      | error err => exact starts_refused rfl
      | ok ty =>
        have hnew : Starts ctx (emit (·.newPair (.ofTy ty))) w .writes :=
          starts_emit (Emitter.extends_newPair _)
        exact (hnew.bind fun _ => grows_fill hfirst hsecond ty).of_eq rfl

/-! ## Wrappers that fail -/

/-- Whether a step never fails because types do not fit. -/
abbrev Typeless (x : Gen α) : Prop :=
  ∀ w, Attempt.FailsWithin (fun err _ => err.isTypeError = false) x w

theorem Typeless.bind {x : Gen α} {k : α → Gen β} (hx : Typeless x) (hk : ∀ a, Typeless (k a)) :
    Typeless (x >>= k) :=
  fun w => .bind (hx w) fun a w' _ => hk a w'

theorem typeless_frame : Typeless frame := fun _ => Attempt.failsWithin_of_ok rfl

theorem typeless_label : Typeless label := fun _ => Attempt.failsWithin_of_ok rfl

theorem typeless_pure (a : α) : Typeless (pure a) := fun _ => Attempt.failsWithin_of_ok rfl

theorem typeless_fail {err : CompileError} (h : err.isTypeError = false) :
    Typeless (.fail err : Gen α) := by
  intro w err' w' hrun
  cases hrun
  exact h

theorem typeless_modifyFrame (f : Frame → Frame) : Typeless (modifyFrame f) :=
  fun _ => Attempt.failsWithin_of_ok rfl

theorem typeless_popTy (context : String) (span : Span) : Typeless (popTy context span) := by
  intro w err w' hrun
  unfold popTy TypeStack.pop at hrun
  cases htypes : w.frame.operands.types <;> rw [htypes] at hrun <;> cases hrun
  rfl

theorem typeless_ensureNoOperands (context : String) (span : Span) :
    Typeless (ensureNoOperands context span) := by
  intro w err w' hrun
  unfold ensureNoOperands TypeStack.ensureEmpty at hrun
  split at hrun <;> cases hrun
  rfl

theorem typeless_declareParams : ∀ ps : List Param, Typeless (declareParams ctx ps)
  | [] => typeless_pure _
  | p :: ps => by
    have hscope (fr : Frame) :
        Typeless (scope (Scope.declare p.name p.ty fr.signature.name fr.site)) := by
      intro w err w' hrun
      unfold scope Scope.declare at hrun
      dsimp only at hrun
      split_ifs at hrun <;> cases hrun <;> rfl
    refine .bind (.bind typeless_frame fun fr =>
      .bind (fun w => (hscope fr w).discard) fun _ => ?_) fun _ => typeless_declareParams ps
    split
    · exact typeless_modifyFrame _
    · exact typeless_pure _

/-- What a return does after its value. -/
theorem typeless_return {text : String} {span : Span} (actual : Ty) : Typeless (do
    let s := (← frame).signature
    if s.result.acceptsAssign actual then
      if s.result.isUnit && !actual.isUnit then returnUnit else returnTop s.result
      ensureNoOperands text span
    else failReturn s actual span) := by
  refine .bind typeless_frame fun fr => ?_
  dsimp only
  split
  · split
    · exact .bind (fun _ => Attempt.failsWithin_of_ok rfl) fun _ => typeless_ensureNoOperands _ _
    · exact .bind (fun _ => Attempt.failsWithin_of_ok rfl) fun _ => typeless_ensureNoOperands _ _
  · exact typeless_fail rfl

/-- Whether the type errors of a step go back to the code of an expression. -/
def Blames (ctx : CodeContext) (e : Expr) (p : Pool) (x : Gen α) (w : Workbench) : Prop :=
  Attempt.FailsWithin (fun err w' => err.isTypeError = true → FailsIn ctx e p err w'.session.pool) x w

variable {e : Expr} {p : Pool}

theorem Typeless.blames {x : Gen α} (h : Typeless x) (w : Workbench) : Blames ctx e p x w :=
  fun err w' hrun htype => nomatch htype.symm.trans (h w err w' hrun)

theorem Blames.bind {x : Gen α} {k : α → Gen β} (hx : Blames ctx e p x w)
    (hk : ∀ a w', x w = (.ok a, w') → Blames ctx e p (k a) w') : Blames ctx e p (x >>= k) w :=
  Attempt.FailsWithin.bind hx hk

theorem blames_value (h : w.session.pool = p) : Blames ctx e p (value ctx e) w := by
  refine .bind (typeless_frame.blames w) fun before w₁ hframe => ?_
  cases hframe
  refine .bind (fun err w' hrun _ => ⟨_, _, hrun, h, rfl⟩) fun _ w₁ _ => Typeless.blames ?_ w₁
  refine .bind typeless_frame fun fr => ?_
  split
  · exact .bind (typeless_modifyFrame _) fun _ => .bind (typeless_modifyFrame _) fun _ => typeless_popTy _ _
  · exact typeless_popTy _ _

/-- A body that returns an expression fails with a type error only where the code of the expression does. -/
theorem blames_returnBody {S : Session} {s : Signature} {site span : Span} {depth : Nat} {text : String}
    (h : S.pool = p) :
    Blames ctx e p (returnBody ctx text span (value ctx e)) ⟨S, .start s site depth⟩ := by
  refine .bind (typeless_frame.blames _) fun fr w₁ hframe => ?_
  cases hframe
  refine .bind ((typeless_declareParams _).blames _) fun _ w₁ hparams => ?_
  obtain ⟨-, -, -, emitter, -, rfl⟩ := declareParams_eq_ok hparams
  refine .bind (typeless_label.blames _) fun start w₂ hlabel => ?_
  cases hlabel
  have hline : Typeless (setLine ctx span.line) := by
    unfold setLine
    split
    · exact typeless_modifyFrame _
    · exact typeless_pure _
  refine .bind ?_ fun _ w₃ _ => Typeless.blames ?_ w₃
  · refine .bind (hline.blames _) fun _ w₃ hset => ?_
    have hpool : w₃.session.pool = p := by
      unfold setLine at hset
      split at hset <;> cases hset <;> exact h
    exact .bind (blames_value hpool) fun actual w₄ _ => (typeless_return actual).blames w₄
  · refine .bind typeless_label fun stop => ?_
    split
    · exact typeless_modifyFrame _
    · exact typeless_pure _

/-- So does the compilation of a function with this body. -/
theorem failsIn_compileWith {S S' : Session} {s : Signature} {flags : EntryFlags} {site : Span}
    {depth : Nat} {err : CompileError}
    (hrun : Session.compileWith s flags site depth (returnBody ctx e.text e.span (value ctx e)) S =
      (.error err, S')) (htype : err.isTypeError = true) : FailsIn ctx e S.pool err S'.pool := by
  have hgrows (w : Workbench) : w.session.registry.GrowsTo
      (returnBody ctx e.text e.span (value ctx e) w).2.session.registry :=
    ((growsTo_value ctx e).returnBody w).registry
  cases Session.functionRun hgrows hrun with
  | taken hdecl =>
    unfold Registry.declare at hdecl
    split at hdecl <;> cases hdecl
    cases htype
  | @failed r _ _ _ hbody =>
    exact blames_returnBody (S := { S with registry := r }.note (.declared s)) rfl err _ hbody htype

/-! ## Arguments -/

/-- A promoted constant begins with its check, and then its wrapper is compiled, if there is none. -/
theorem starts_promote (e : Expr) (params : List Ty) (result : Ty) :
    Starts ctx (promote ctx e params result (value ctx e)) w
      (e.promotionFront ctx w.session.wrapper? params result) := by
  have hbound {S : Session} {s : Signature}
      (heq : promote ctx e params result (value ctx e) w = bindFunction s ⟨S, w.frame⟩) :
      w.frame.emitter.offset <
        (promote ctx e params result (value ctx e) w).2.frame.emitter.offset := by
    have hbind : Starts ctx (bindFunction s) ⟨S, w.frame⟩ .writes := starts_bindFunction s
    rw [heq]
    exact hbind.resolve_right fun h => nomatch h.2
  have hrun := promote_eq ctx e params result (value ctx e) w
  unfold Expr.promotionFront
  cases hkey : w.session.wrapper? (wrapperKey (.fn params result) e.text) with
  | some s =>
    rw [hkey] at hrun
    exact .inl (hbound hrun)
  | none =>
    rw [hkey] at hrun
    cases hconst : e.ensureConstant ctx.functions ctx.options.maxDepth with
    | error err =>
      rw [hconst] at hrun
      exact starts_refused hrun
    | ok _ =>
      rw [hconst] at hrun
      dsimp only at hrun
      split at hrun
      next err S hcompiled =>
        refine .inr ⟨by rw [hrun], err, by rw [hrun], fun htype => ?_⟩
        rw [hrun]
        have hfails := failsIn_compileWith hcompiled htype
        exact hfails
      next S hcompiled => exact .inl (hbound hrun)

/-- The first argument of a call begins with the check of its type. -/
theorem starts_argument {e : Expr} {f : Front} (hown : Starts ctx (value ctx e) w f) (s : Signature)
    (formal : Param) :
    Starts ctx (argument ctx s 0 formal e (value ctx e)) w
      (e.argumentFront ctx w.frame.scope w.session.wrapper? s formal f) := by
  unfold argument Expr.argumentFront
  cases hty : e.infer (ctx.typing w.frame.scope) with
  | error err =>
    have hrun : infer ctx e w = (.error err, w) := by rw [infer_eq, hty]; rfl
    exact starts_refused (Attempt.bind_of_error hrun)
  | ok typing =>
    have hrun : infer ctx e w = (.ok typing.ty, w) := by rw [infer_eq, hty]; rfl
    refine Starts.of_eq ?_ (Attempt.bind_of_ok hrun)
    dsimp only
    by_cases hsame : typing.ty = formal.ty
    · rw [if_pos hsame, if_pos hsame]
      exact hown.discard
    · rw [if_neg hsame, if_neg hsame]
      cases formal.ty with
      | fn params result =>
        dsimp only
        by_cases hresult : result = typing.ty
        · rw [if_pos hresult, if_pos hresult]
          exact (starts_promote e params result).bind fun _ => (grows_popTy _ _).discard
        · rw [if_neg hresult, if_neg hresult]
          exact starts_refused rfl
      | _ => exact starts_refused rfl

/-- What follows the callee of a call. -/
theorem starts_call {ident : Ident} {args : List Expr} {text : String} {span : Span} {f : Signature → Front}
    (hargs : ∀ s, args.length = s.arity → Starts ctx (do
      arguments ctx s 0 s.params args
      finishCall s args.length text span) w (f s)) :
    Starts ctx (do
      let s ← callee ctx ident args.length span
      arguments ctx s 0 s.params args
      finishCall s args.length text span) w
      (match ctx.functions.calleeOf ident args.length span with
        | .error err => .refused err
        | .ok s => f s) := by
  have hrun : callee ctx ident args.length span w = _ := callee_eq ident args.length span w
  cases hcallee : ctx.functions.calleeOf ident args.length span with
  | error err =>
    rw [hcallee] at hrun
    exact starts_refused (Attempt.bind_of_error hrun)
  | ok s =>
    rw [hcallee] at hrun
    exact (hargs s (callee_eq_ok hrun).2.2).of_eq (Attempt.bind_of_ok hrun)

/-- A call without arguments begins with its own instruction. -/
theorem starts_finishCall (s : Signature) (text : String) (span : Span) :
    Starts ctx (finishCall s 0 text span) w .writes := by
  unfold finishCall
  rw [if_pos (by decide)]
  refine (starts_emitPooled fun _ => Emitter.extends_write _ _ _).bind fun _ => ?_
  split
  · exact grows_pure _
  · exact grows_pushTy _

/-- An expression begins in the way that is foretold. -/
theorem starts_expr (ctx : CodeContext) : ∀ (e : Expr) (w : Workbench),
    Starts ctx (expr ctx e) w (e.front ctx w.frame.scope w.session.wrapper?)
  | .literal value _ _, _ => (starts_literal value).nested
  | .pair first second _ _, w =>
    (starts_pair (grows_value ctx first) (grows_value ctx second)).nested
  | .var ident, _ => (starts_reference ident).nested
  | .placeholder span, _ => (starts_placeholder span).nested
  | .lambda _ text span, _ => (starts_lambda text span).nested
  | .call ident args text span, w => by
    refine Starts.nested (starts_call fun s harity => ?_)
    cases args with
    | nil => exact (starts_finishCall s text span).of_eq rfl
    | cons e es =>
      cases hformals : s.params with
      | nil => rw [Signature.arity, hformals] at harity; cases harity
      | cons formal formals =>
        have hown := (starts_expr ctx e { w with frame.depth := w.frame.depth + 1 }).operand (e := e)
        have hfirst := (starts_argument hown s formal).bind fun _ =>
          grows_arguments ctx es s 1 formals
        exact hfirst.bind fun _ => grows_finishCall s _ text span

/-- A refused expression fails and leaves everything as it was. -/
theorem expr_of_refused {e : Expr} {err : CompileError}
    (h : e.front ctx w.frame.scope w.session.wrapper? = .refused err) :
    ∃ err', expr ctx e w = (.error err', w) := by
  have hstarts := starts_expr ctx e w
  rw [h] at hstarts
  obtain ⟨hsame, err', herr, -⟩ := hstarts
  exact ⟨err', Prod.ext herr hsame⟩

/-! ## Whole functions -/

/-- A statement that consists of a refused expression fails as well. -/
theorem stmt_of_refused {st : Stmt} {e : Expr} (hst : st = .expr e ∨ ∃ span, st = .ret e span)
    {err : CompileError} (h : e.front ctx w.frame.scope w.session.wrapper? = .refused err) :
    ∃ err', stmt ctx st w = (.error err', w) := by
  obtain ⟨err', hrun⟩ := expr_of_refused h
  rcases hst with rfl | ⟨span, rfl⟩
  · exact ⟨err', hrun⟩
  · exact ⟨err', Attempt.bind_of_error (value_of_error hrun)⟩

theorem setLine_eq (ctx : CodeContext) (line : Nat) (w : Workbench) :
    ∃ emitter, setLine ctx line w = (.ok (), { w with frame.emitter := emitter }) := by
  unfold setLine
  split
  · exact ⟨_, rfl⟩
  · exact ⟨w.frame.emitter, rfl⟩

/-- A body whose code fails in any case without touching the session fails as well. -/
theorem framed_of_fails {S : Session} {s : Signature} {site : Span} {depth : Nat} {code : Gen Unit}
    (hcode : ∀ w, w.frame.scope = .ofParams s.params → w.session = S →
      ∃ err w', code w = (.error err, w') ∧ w'.session = S) :
    ∃ err w', framed ctx code ⟨S, .start s site depth⟩ = (.error err, w') ∧ w'.session = S := by
  show ∃ err w', (declareParams ctx s.params >>= _) ⟨S, .start s site depth⟩ = (.error err, w') ∧ _
  rcases hparams : declareParams ctx s.params ⟨S, .start s site depth⟩ with ⟨err | _, w₁⟩
  · have hkept : KeepsSession Eq (declareParams ctx s.params) := keepsSession_declareParams ctx _
    exact ⟨err, w₁, Attempt.bind_of_error hparams, (hkept.of_run hparams).symm⟩
  · obtain ⟨-, -, -, emitter, -, hw₁⟩ := declareParams_eq_ok hparams
    obtain ⟨err, w', hrun, hsession⟩ := hcode (label w₁).2 (by rw [hw₁]; rfl) (by rw [hw₁]; rfl)
    refine ⟨err, w', (Attempt.bind_of_ok hparams).trans ?_, hsession⟩
    exact (Attempt.bind_of_ok rfl).trans (Attempt.bind_of_error hrun)

/-- A body that consists of a refused expression fails and leaves the session as it was. -/
theorem body_of_refused {S : Session} {s : Signature} {site : Span} {depth : Nat} {st : Stmt} {e : Expr}
    (hst : st = .expr e ∨ ∃ span, st = .ret e span) {err : CompileError}
    (h : e.front ctx (.ofParams s.params) S.wrapper? = .refused err) :
    ∃ err' w', body ctx [st] ⟨S, .start s site depth⟩ = (.error err', w') ∧ w'.session = S := by
  refine framed_of_fails fun w hscope hsession => ?_
  obtain ⟨emitter, hline⟩ := setLine_eq ctx st.span.line w
  have hfront : e.front ctx w.frame.scope w.session.wrapper? = .refused err := by
    rw [hscope, hsession, h]
  obtain ⟨err', hstmt⟩ := stmt_of_refused (w := { w with frame.emitter := emitter }) hst hfront
  refine ⟨err', _, (Attempt.bind_of_ok hline).trans (Attempt.bind_of_error hstmt), hsession⟩

end Gen

/-- Whether a declared function consists of one expression, which a check refuses before anything is
written. -/
def Decl.IsRefused (ctx : CodeContext) (wrapper? : String → Option Signature) (d : Decl) : Prop :=
  ∃ st e, d.body = [st] ∧ (st = .expr e ∨ ∃ span, st = .ret e span) ∧
    ∀ s, ctx.functions.get? d.name.name = some s →
      ∃ err, e.front ctx (.ofParams s.params) wrapper? = .refused err

namespace Session

/-- Such a function adds no constant and remembers no wrapper. -/
theorem compileDecl_of_refused {ctx : CodeContext} {d : Decl} {S S' : Session}
    {r : Except CompileError Unit} (h : d.IsRefused ctx S.wrapper?) (hrun : compileDecl ctx d S = (r, S')) :
    S'.pool = S.pool ∧ S'.wrappers = S.wrappers := by
  obtain ⟨st, e, hbody, hst, hfront⟩ := h
  rw [compileDecl, hbody, Attempt.bind_run] at hrun
  cases hresolve : resolve ctx.functions d.name with
  | error err =>
    simp only [hresolve, Attempt.ofExcept] at hrun
    cases hrun
    exact ⟨rfl, rfl⟩
  | ok s =>
    simp only [hresolve, Attempt.ofExcept, compileWith_eq] at hrun
    obtain ⟨err, hfront⟩ := hfront s (Expr.resolve_eq_ok.1 hresolve)
    split at hrun
    next =>
      cases hrun
      exact ⟨rfl, rfl⟩
    next registry _ =>
      have hfails : ∃ err' w, Gen.body ctx [st] ⟨{ S with registry }.note (.declared s),
          .start s d.span 0⟩ = (.error err', w) ∧ w.session = { S with registry }.note (.declared s) :=
        Gen.body_of_refused hst hfront
      obtain ⟨err', w, hbodyrun, hsession⟩ := hfails
      rw [hbodyrun] at hrun
      cases hrun
      rw [hsession]
      exact ⟨rfl, rfl⟩

/-- A list of such functions neither. -/
theorem pool_compileDecls_of_refused {ctx : CodeContext} : ∀ (ds : List Decl) (S : Session),
    (∀ d ∈ ds, d.IsRefused ctx S.wrapper?) → (S.compileDecls ctx ds).1.pool = S.pool
  | [], S, _ => rfl
  | d :: ds, S, h => by
    rcases hrun : compileDecl ctx d S with ⟨r, S'⟩
    obtain ⟨hpool, hwrappers⟩ := compileDecl_of_refused (h d List.mem_cons_self) hrun
    have hrest : ∀ d ∈ ds, d.IsRefused ctx S'.wrapper? := by
      intro d hd
      rw [show S'.wrapper? = S.wrapper? from funext fun key => by rw [wrapper?, wrapper?, hwrappers]]
      exact h d (List.mem_cons_of_mem _ hd)
    rw [compileDecls, hrun]
    cases r with
    | ok _ => exact (pool_compileDecls_of_refused ds S' hrest).trans hpool
    | error err =>
      exact (pool_compileDecls_of_refused ds (S'.note (.functionFailed d.name.name err)) hrest).trans hpool

end Session

/-- The walk through a block without anonymous functions changes nothing. -/
theorem Block.walk_of_no_lambda {block : Block}
    (h : ∀ body text span, .lambda body text span ∉ block.exprs)
    (functions : FunctionTable) (options : Options) :
    block.walk functions options = { session := .start } := by
  have hkeeps : Attempt.Keeps Eq (Hoist.topLevel functions options block.stmts) :=
    Hoist.topLevel_keeps (fun _ _ _ he => absurd he (h _ _ _)) block.stmts fun _ he => he
  exact (hkeeps { session := .start }).symm

/-- A block without anonymous functions whose functions are all refused has no constants. -/
theorem Block.constants_of_refused {block : Block} {functions : FunctionTable} {options : Options}
    (hlambdas : ∀ body text span, .lambda body text span ∉ block.exprs)
    (h : ∀ d ∈ block.decls, d.IsRefused ⟨functions, options, .empty⟩ fun _ => none) :
    (compileBlock functions options block).module.pool = .empty := by
  have hwalk := block.walk_of_no_lambda hlambdas functions options
  rw [Block.module_compileBlock, Session.toModule, Block.session, Block.hoist_eq, hwalk]
  split
  next lambdas S hhoist =>
    split at hhoist <;> cases hhoist
    refine Session.pool_compileDecls_of_refused block.decls _ fun d hd => ?_
    have hnone : (Session.start.note (.hoisted LambdaTable.empty.size)).wrapper? = fun _ => none := by
      funext key
      simp [Session.wrapper?, Session.start, Session.note]
    exact hnone ▸ h d hd
  next err S hhoist =>
    split at hhoist <;> cases hhoist
    rfl

/-- What an expression with a type error leaves behind depends on what comes first.  If that is the check
that fails, nothing has changed.  If it is an instruction, that instruction stays.  If it is the wrapper of
an argument, either the argument was done and its instruction stays, or the error is that of the wrapper's
own code, and the frame is as before and the pool as that code left it.  A block without anonymous functions
whose functions all consist of an expression of the first kind has no constants. -/
theorem type_error_leaves (functions : FunctionTable) (options : Options) :
    (∀ (lambdas : LambdaTable) {e : Expr} {w w' : Workbench} {err : CompileError},
      Gen.expr ⟨functions, options, lambdas⟩ e w = (.error err, w') → err.isTypeError = true →
        match e.front ⟨functions, options, lambdas⟩ w.frame.scope w.session.wrapper? with
        | .refused err' => err = err' ∧ w' = w
        | .writes => w.frame.emitter.offset < w'.frame.emitter.offset
        | .wraps arg => w.frame.emitter.offset < w'.frame.emitter.offset ∨
            w'.frame = w.frame ∧
              Gen.FailsIn ⟨functions, options, lambdas⟩ arg w.session.pool err w'.session.pool) ∧
    ∀ {block : Block},
      (∀ body text span, .lambda body text span ∉ block.exprs) →
      (∀ d ∈ block.decls, d.IsRefused ⟨functions, options, .empty⟩ fun _ => none) →
        (compileBlock functions options block).module.pool = .empty := by
  refine ⟨fun lambdas {e w w' err} hrun htype => ?_, Block.constants_of_refused⟩
  have hstarts := Gen.starts_expr ⟨functions, options, lambdas⟩ e w
  have hdeep : err.isTooDeep ≠ true := by
    rw [CompileError.not_tooDeep_of_isTypeError htype]
    decide
  unfold Gen.Starts at hstarts
  rw [hrun] at hstarts
  cases hfront : e.front ⟨functions, options, lambdas⟩ w.frame.scope w.session.wrapper? with
  | refused err' =>
    rw [hfront] at hstarts
    obtain ⟨hsame, err, herr, hcause⟩ := hstarts
    cases herr
    exact ⟨hcause.resolve_right hdeep, hsame⟩
  | writes =>
    rw [hfront] at hstarts
    refine hstarts.resolve_right fun ⟨_, err, herr, htooDeep⟩ => ?_
    cases herr
    exact hdeep htooDeep
  | wraps arg =>
    rw [hfront] at hstarts
    refine hstarts.imp_right fun ⟨hframe, err, herr, hfails⟩ => ?_
    cases herr
    exact ⟨hframe, hfails htype⟩

/-- The pair `(1,2.0)`, which no type fits. -/
def mixedPair : Expr :=
  .pair (.literal (.int 1) "1" default) (.literal (.real ⟨0x4000000000000000⟩) "2.0" default)
    "(1,2.0)" default

/-- A call with that pair as its second argument. -/
def mixedCall : Expr :=
  .call ⟨"add", default⟩ [.literal (.int 1) "1" default, mixedPair] "add(1,(1,2.0))" default

/-- A block whose only function consists of the pair. -/
def mixedBlock : Block := ⟨[.decl ⟨"f", default⟩ [.expr mixedPair] default]⟩

/-- The functions that may be called. -/
def mixedContext : CodeContext :=
  ⟨.ofList [⟨"f", [], .int, "Main", false⟩,
    ⟨"add", [⟨"a", .int⟩, ⟨"b", .int⟩], .int, "Main", false⟩], {}, .empty⟩

/-- The pair by itself leaves nothing, but the call has written its first argument by then. -/
theorem type_error_leaves_mixedCall :
    let bench : Workbench := ⟨.start, .start ⟨"f", [], .int, "Main", false⟩ default 0⟩
    let run := Gen.expr mixedContext mixedCall bench
    run.1 = .error ⟨.pairTypeMismatch "Int" "Real", default⟩ ∧
      bench.frame.emitter.offset < run.2.frame.emitter.offset ∧
      run.2.session.pool.constants = #[.int 1] ∧
      (compileBlock mixedContext.functions {} mixedBlock).module.pool = .empty := by
  intro bench run
  have herror : run.1 = .error ⟨.pairTypeMismatch "Int" "Real", default⟩ := by decide +kernel
  obtain ⟨hexpr, hblock⟩ := type_error_leaves mixedContext.functions mixedContext.options
  refine ⟨herror, ?_, by decide +kernel, hblock ?_ ?_⟩
  · exact hexpr mixedContext.lambdas (Prod.ext herror rfl : run = (_, run.2)) rfl
  · intro body text span hmem
    simp [mixedBlock, mixedPair, Block.exprs, Stmt.exprsAll, Stmt.exprs, Expr.subexprs] at hmem
  · intro d hd
    rw [show mixedBlock.decls = [⟨⟨"f", default⟩, [.expr mixedPair], default⟩] from rfl] at hd
    rw [List.mem_singleton.1 hd]
    exact ⟨_, mixedPair, rfl, .inl rfl, fun s _ => ⟨_, rfl⟩⟩

end BlockCompiler
