import BlockCompiler.Proofs.Growth
import BlockCompiler.Proofs.Slots
import BlockCompiler.Proofs.Translation

/-!
# Generated code follows the rules

What a run of the code generator writes is the translation of what it was given.

* `Gen.Wrote w w' ms ts` says what happened between two states of a workbench: the instructions `ms`
  were written, operands of the types `ts` were left, and the rest of the frame is as before.
* `Gen.expr_wrote`, `Gen.value_wrote` and `Gen.arguments_wrote` say that a run that succeeds wrote a
  translation.  The instructions were written in pieces, with numbers of the pool of that moment, and
  other functions were compiled in between; that the pool only grows puts the pieces together.
* `Gen.body_compiled` and `Gen.returnBody_compiled` say the same of whole functions.
-/

namespace BlockCompiler

/-- What code depends on in the state of a workbench. -/
def Workbench.env (ctx : CodeContext) (w : Workbench) : CodeEnv :=
  ⟨ctx.functions, w.frame.scope, ctx.lambdas.get?, w.session.wrapper?⟩

/-- The signatures of anonymous functions are those of expressions of the block: they take a real,
and their result is the type of the expression's body. -/
def Block.TypesLambdas (block : Block) (functions : FunctionTable)
    (lambdas : String → Option Signature) : Prop :=
  ∀ ⦃body text span s⦄, Expr.lambda body text span ∈ block.exprs → lambdas text = some s →
    s.params = [lambdaParam] ∧ body.typeOf functions .empty = some s.result

/-- Texts of the block tell its expressions apart, and its anonymous functions are known by their
types. -/
structure CodeContext.Fits (ctx : CodeContext) (block : Block) : Prop where
  faithful : block.TextFaithful
  lambdas : block.TypesLambdas ctx.functions ctx.lambdas.get?

namespace Gen

/-- Between two states, `ms` was written and operands of the types `ts` were left on top. -/
structure Wrote (w w' : Workbench) (ms : List Emitted) (ts : List Ty) : Prop where
  frame : w'.frame = { w.frame with
    emitter := w.frame.emitter.writeAll w'.session.pool ms
    operands := ⟨ts ++ w.frame.operands.types⟩ }
  interned : AllInterned ms w'.session.pool
  pool : w.session.pool.GrowsTo w'.session.pool
  wrappers : ∀ {key s}, w.session.wrapper? key = some s → w'.session.wrapper? key = some s

variable {ctx : CodeContext} {block : Block} {w w₁ w₂ w' : Workbench} {ms ns : List Emitted}
  {ts us : List Ty}

theorem Wrote.refl (w : Workbench) : Wrote w w [] [] :=
  ⟨rfl, .nil _, .refl _, id⟩

theorem Wrote.trans (h : Wrote w w₁ ms ts) (h' : Wrote w₁ w₂ ns us) :
    Wrote w w₂ (ms ++ ns) (us ++ ts) := by
  refine ⟨?_, (h.interned.mono h'.pool).append h'.interned, h.pool.trans h'.pool,
    fun hs => h'.wrappers (h.wrappers hs)⟩
  have hms := w.frame.emitter.writeAll_eq_of_growsTo h.interned h'.pool
  rw [h'.frame, h.frame, Emitter.writeAll_append, hms]
  simp

theorem Wrote.env_growsTo (h : Wrote w w' ms ts) : (w.env ctx).GrowsTo (w'.env ctx) := by
  refine ⟨rfl, ?_, id, h.wrappers⟩
  show w'.frame.scope = w.frame.scope
  rw [h.frame]

/-! ## Single steps -/

/-- An instruction without a constant. -/
theorem wrote_emit {f : Emitter → Emitter} {i : Instr} (hi : i.constant? = none)
    (hf : ∀ (e : Emitter) (p : Pool), f e = e.writeInstr p (.of i))
    (h : emit f w = (.ok (), w')) : Wrote w w' [.of i] [] := by
  cases h
  refine ⟨?_, ?_, .refl _, id⟩
  · show { w.frame with emitter := f w.frame.emitter } = _
    rw [hf w.frame.emitter w.session.pool]
    rfl
  · intro m hm
    obtain rfl := List.mem_singleton.1 hm
    exact Instr.interned_of_constant?_eq_none hi _

/-- An instruction with a constant. -/
theorem wrote_emitPooled {f : Emitter → Pool → Emitter × Pool} {m : Emitted} {c : Constant}
    (hm : m.instr.constant? = some c)
    (hf : ∀ (e : Emitter) (p : Pool), f e p = (e.writeInstr (p.add c).1 m, (p.add c).1))
    (h : emitPooled f w = (.ok (), w')) : Wrote w w' [m] [] := by
  cases h
  refine ⟨?_, ?_, ?_, id⟩
  · show { w.frame with emitter := (f w.frame.emitter w.session.pool).1 } = _
    simp only [hf]
    rfl
  · intro n hn
    obtain rfl := List.mem_singleton.1 hn
    simp only [hf]
    exact Instr.interned_add hm _
  · simp only [hf]
    exact Pool.growsTo_add _ _

theorem wrote_pushTy {t : Ty} (h : pushTy t w = (.ok (), w')) : Wrote w w' [] [t] := by
  cases h
  exact ⟨rfl, .nil _, .refl _, id⟩

theorem wrote_literal {value : Literal} (h : literal value w = (.ok (), w')) :
    Wrote w w' [.of value.instr] [value.ty] := by
  cases value with
  | int v =>
    obtain ⟨_, w₁, hcode, hpush⟩ := Attempt.bind_eq_ok.1 h
    exact (wrote_emitPooled rfl (fun e p => e.constant_eq p _) hcode).trans (wrote_pushTy hpush)
  | real v =>
    obtain ⟨_, w₁, hcode, hpush⟩ := Attempt.bind_eq_ok.1 h
    exact (wrote_emitPooled rfl (fun e p => e.constant_eq p _) hcode).trans (wrote_pushTy hpush)
  | bool v =>
    obtain ⟨_, w₁, hcode, hpush⟩ := Attempt.bind_eq_ok.1 h
    exact (wrote_emit rfl (fun e p => e.bool_eq p v) hcode).trans (wrote_pushTy hpush)
  | string v =>
    obtain ⟨_, w₁, hcode, hpush⟩ := Attempt.bind_eq_ok.1 h
    exact (wrote_emitPooled rfl (fun e p => e.constant_eq p _) hcode).trans (wrote_pushTy hpush)
  | unit =>
    obtain ⟨_, w₁, hcode, hpush⟩ := Attempt.bind_eq_ok.1 h
    exact (wrote_emit rfl (fun e p => e.unit_eq p) hcode).trans (wrote_pushTy hpush)

theorem wrote_loadVar {v : LocalVar} (h : loadVar v w = (.ok (), w')) :
    Wrote w w' [.of (.load (.ofTy v.ty) v.slot)] [v.ty] := by
  obtain ⟨_, w₁, hcode, hpush⟩ := Attempt.bind_eq_ok.1 h
  exact (wrote_emit rfl (fun e p => e.load_eq p _ _) hcode).trans (wrote_pushTy hpush)

theorem wrote_bindFunction {s : Signature} (h : bindFunction s w = (.ok (), w')) :
    Wrote w w' [.of (.bind s.toValue)] [s.toTy] := by
  obtain ⟨_, w₁, hcode, hpush⟩ := Attempt.bind_eq_ok.1 h
  exact (wrote_emitPooled rfl (fun e p => e.bind_eq p _) hcode).trans (wrote_pushTy hpush)

theorem wrote_finishCall {s : Signature} {text : String} {span : Span}
    (h : finishCall s s.arity text span w = (.ok (), w')) :
    s.arity < 256 ∧ Wrote w w' [.call s] s.value?.toList := by
  unfold finishCall at h
  split at h
  next harity =>
    refine ⟨harity, ?_⟩
    obtain ⟨_, w₁, hcode, hpush⟩ := Attempt.bind_eq_ok.1 h
    have hcall := wrote_emitPooled (m := .call s) rfl (fun e p => e.call_eq p s) hcode
    unfold Signature.value?
    split at hpush
    next hu =>
      cases hpush
      simpa [hu] using hcall
    next hu => simpa [hu] using hcall.trans (wrote_pushTy hpush)
  next => cases Attempt.fail_ne_ok h

/-- The type on top is taken, and nothing else happens. -/
theorem wrote_popTy {t : Ty} {context : String} {span : Span} {u : Ty}
    (h : Wrote w w₁ ms [u]) (hpop : popTy context span w₁ = (.ok t, w')) :
    t = u ∧ w'.session = w₁.session ∧ Wrote w w' ms [] := by
  have htypes : w₁.frame.operands.types = u :: w.frame.operands.types := by
    rw [h.frame]
    rfl
  simp only [popTy, TypeStack.pop, htypes, Prod.mk.injEq, Except.ok.injEq] at hpop
  obtain ⟨rfl, rfl⟩ := hpop
  refine ⟨rfl, rfl, ?_, h.interned, h.pool, h.wrappers⟩
  simp only [h.frame]
  rfl

/-! ## Steps around code -/

/-- A translation that was written one level deeper was written. -/
theorem wrote_nested {e : Expr} {span : Span} {x : Gen Unit}
    (h : nested ctx span x w = (.ok (), w'))
    (hx : ∀ {w₀ w₁}, x w₀ = (.ok (), w₁) →
      ∃ ms t?, ExprCode (w₁.env ctx) e ms t? ∧ Wrote w₀ w₁ ms t?.toList) :
    ∃ ms t?, ExprCode (w'.env ctx) e ms t? ∧ Wrote w w' ms t?.toList := by
  obtain ⟨fr, _, hframe, hguarded⟩ := Attempt.bind_eq_ok.1 h
  cases hframe
  obtain ⟨_, _, hdepth, hdeep⟩ := Attempt.bind_eq_ok.1 hguarded
  obtain ⟨-, rfl⟩ := Attempt.ofExcept_eq_ok.1 hdepth
  obtain ⟨_, w₀, hdeeper, hending⟩ := Attempt.bind_eq_ok.1 hdeep
  cases hdeeper
  obtain ⟨w₁, hrun, rfl⟩ := Attempt.ending_eq_ok.1 hending
  obtain ⟨ms, t?, hms, hwrote⟩ := hx hrun
  refine ⟨ms, t?, hms, ?_, hwrote.interned, hwrote.pool, hwrote.wrappers⟩
  simp only [hwrote.frame]
  rfl

/-- The value of an operand is what its code leaves, or else the unit value. -/
theorem wrote_operand {e : Expr} {code : Gen Unit} {t : Ty}
    (h : operand e code w = (.ok t, w'))
    (hcode : ∀ {w₁}, code w = (.ok (), w₁) →
      ∃ ms t?, ExprCode (w₁.env ctx) e ms t? ∧ Wrote w w₁ ms t?.toList) :
    ∃ ms, OperandCode (w'.env ctx) e ms t ∧ Wrote w w' ms [] := by
  obtain ⟨before, _, hbefore, hrest⟩ := Attempt.bind_eq_ok.1 h
  cases hbefore
  obtain ⟨_, w₁, hrun, hrest⟩ := Attempt.bind_eq_ok.1 hrest
  obtain ⟨fr, _, hframe, hrest⟩ := Attempt.bind_eq_ok.1 hrest
  cases hframe
  obtain ⟨ms, t?, hms, hwrote⟩ := hcode hrun
  have hsize : w₁.frame.operands.size = t?.toList.length + w.frame.operands.size := by
    simp [hwrote.frame, TypeStack.size]
  cases t? with
  | some u =>
    rw [if_neg (by rw [hsize]; simp)] at hrest
    obtain ⟨rfl, hsession, hdone⟩ := wrote_popTy hwrote hrest
    have henv : (w₁.env ctx).GrowsTo (w'.env ctx) := by
      refine ⟨rfl, ?_, id, ?_⟩
      · show w'.frame.scope = w₁.frame.scope
        rw [hdone.frame, hwrote.frame]
      · show ∀ {key s}, w₁.session.wrapper? key = some s → w'.session.wrapper? key = some s
        rw [hsession]
        exact id
    exact ⟨ms, .value (ExprCode.mono henv e hms), hdone⟩
  | none =>
    rw [if_pos (by rw [hsize]; simp)] at hrest
    obtain ⟨_, w₂, hemit, hrest⟩ := Attempt.bind_eq_ok.1 hrest
    obtain ⟨_, w₃, hpush, hpop⟩ := Attempt.bind_eq_ok.1 hrest
    have hunit := (wrote_emit rfl (fun e p => e.unit_eq p) hemit).trans (wrote_pushTy hpush)
    obtain ⟨rfl, _, hpopped⟩ := wrote_popTy hunit hpop
    refine ⟨ms ++ [.of .unit], ?_, hwrote.trans hpopped⟩
    exact .unit (ExprCode.mono hpopped.env_growsTo e hms)

/-- A promoted constant becomes the function value over its wrapper. -/
theorem wrote_promote (hfaithful : block.TextFaithful) {e : Expr} (he : e ∈ block.exprs)
    {params : List Ty} {result : Ty} (ht : e.typeOf ctx.functions w.frame.scope = some result)
    (h : promote ctx e params result (value ctx e) w = (.ok (), w')) :
    ∃ s, w'.session.wrapper? (wrapperKey (.fn params result) e.text) = some s ∧
      Wrote w w' [.of (.bind s.toValue)] [s.toTy] := by
  have hstable := stable_evolves ctx hfaithful
  have hevolves := hstable.promote e he (hstable.value he) params ht w
  rw [InvImage, h] at hevolves
  have hwrote {S : Session} {s : Signature} (hb : bindFunction s ⟨S, w.frame⟩ = (.ok (), w')) :
      Wrote w w' [.of (.bind s.toValue)] [s.toTy] := by
    have hbind := wrote_bindFunction hb
    exact ⟨hbind.frame, hbind.interned, hevolves.pool, hevolves.wrapper?_eq_some⟩
  rw [promote_eq] at h
  split at h
  next s hs => exact ⟨s, hevolves.wrapper?_eq_some hs, hwrote h⟩
  next hnone =>
    split at h
    next => cases h
    next =>
      dsimp only at h
      split at h
      next => cases h
      next S hrun =>
        refine ⟨_, (wrote_bindFunction h).wrappers ?_, hwrote h⟩
        simp [Session.wrapper?, Session.rememberWrapper]

/-! ## Leaves -/

theorem wrote_reference {ident : Ident} (h : reference ctx ident w = (.ok (), w')) :
    ∃ ms t?, ExprCode (w'.env ctx) (.var ident) ms t? ∧ Wrote w w' ms t?.toList := by
  obtain ⟨fr, _, hframe, hrest⟩ := Attempt.bind_eq_ok.1 h
  cases hframe
  cases hv : w.frame.scope.get? ident.name with
  | some v =>
    simp only [hv] at hrest
    have hload := wrote_loadVar hrest
    refine ⟨_, some v.ty, .arg ?_, hload⟩
    show w'.frame.scope.get? ident.name = some v
    rw [hload.frame, hv]
  | none =>
    simp only [hv] at hrest
    cases hs : ctx.functions.get? ident.name with
    | some s =>
      simp only [hs] at hrest
      have hbind := wrote_bindFunction hrest
      refine ⟨_, some s.toTy, .function ?_ hs, hbind⟩
      show w'.frame.scope.get? ident.name = none
      rw [hbind.frame, hv]
    | none =>
      simp only [hs] at hrest
      cases Attempt.fail_ne_ok hrest

theorem wrote_placeholder {span : Span} (h : placeholder span w = (.ok (), w')) :
    ∃ ms t?, ExprCode (w'.env ctx) (.placeholder span) ms t? ∧ Wrote w w' ms t?.toList := by
  obtain ⟨fr, _, hframe, hrest⟩ := Attempt.bind_eq_ok.1 h
  cases hframe
  cases hv : w.frame.scope.get? Expr.placeholderText with
  | some v =>
    simp only [hv] at hrest
    split at hrest
    next hreal =>
      have hload := wrote_loadVar hrest
      refine ⟨_, some v.ty, .placeholder span ?_ hreal, hload⟩
      show w'.frame.scope.get? Expr.placeholderText = some v
      rw [hload.frame, hv]
    next => cases Attempt.fail_ne_ok hrest
  | none =>
    simp only [hv] at hrest
    cases Attempt.fail_ne_ok hrest

theorem wrote_lambda (hlambdas : block.TypesLambdas ctx.functions ctx.lambdas.get?) {body : Expr}
    {text : String} {span : Span} (he : Expr.lambda body text span ∈ block.exprs)
    (h : lambda ctx text span w = (.ok (), w')) :
    ∃ ms t?, ExprCode (w'.env ctx) (.lambda body text span) ms t? ∧
      Wrote w w' ms t?.toList := by
  unfold lambda at h
  cases hs : ctx.lambdas.get? text with
  | some s =>
    simp only [hs] at h
    obtain ⟨hparams, hbody⟩ := hlambdas he hs
    have htypes : s.paramTypes = [.real] := by
      rw [Signature.paramTypes, hparams]
      rfl
    exact ⟨_, some s.toTy, .lambda span hs htypes hbody, wrote_bindFunction h⟩
  | none =>
    simp only [hs] at h
    cases Attempt.fail_ne_ok h

/-! ## Calls and pairs -/

theorem wrote_pair {first second : Expr} {text : String} {span : Span}
    (h : pair ctx first second span (value ctx first) (value ctx second) w = (.ok (), w'))
    (hfirst : ∀ {t w w'}, value ctx first w = (.ok t, w') →
      ∃ ms, OperandCode (w'.env ctx) first ms t ∧ Wrote w w' ms [])
    (hsecond : ∀ {t w w'}, value ctx second w = (.ok t, w') →
      ∃ ms, OperandCode (w'.env ctx) second ms t ∧ Wrote w w' ms []) :
    ∃ ms t?, ExprCode (w'.env ctx) (.pair first second text span) ms t? ∧
      Wrote w w' ms t?.toList := by
  obtain ⟨a, _, ha, hrest₁⟩ := Attempt.bind_eq_ok.1 h
  obtain ⟨rfl, ha⟩ := infer_eq_ok ha
  obtain ⟨b, _, hb, hrest₂⟩ := Attempt.bind_eq_ok.1 hrest₁
  obtain ⟨rfl, hb⟩ := infer_eq_ok hb
  obtain ⟨ty, _, hty, hrest₃⟩ := Attempt.bind_eq_ok.1 hrest₂
  obtain ⟨hpaired, rfl⟩ := Attempt.ofExcept_eq_ok.1 hty
  obtain ⟨rfl, rfl⟩ := Ty.pairOf_eq_ok.1 hpaired
  obtain ⟨_, w₁, hnew, hrest₄⟩ := Attempt.bind_eq_ok.1 hrest₃
  obtain ⟨_, w₂, hdup, hrest₅⟩ := Attempt.bind_eq_ok.1 hrest₄
  obtain ⟨_, w₃, hx, hrest₆⟩ := Attempt.bind_eq_ok.1 hrest₅
  obtain ⟨_, w₄, hy, hrest₇⟩ := Attempt.bind_eq_ok.1 hrest₆
  obtain ⟨_, w₅, hinit, hpush⟩ := Attempt.bind_eq_ok.1 hrest₇
  obtain ⟨t, hx⟩ := Attempt.discard_eq_ok.1 hx
  obtain ⟨u, hy⟩ := Attempt.discard_eq_ok.1 hy
  obtain ⟨ms, hms, hwrote⟩ := hfirst hx
  obtain ⟨ns, hns, hwrote'⟩ := hsecond hy
  have hstart := (wrote_emit rfl (fun e p => e.newPair_eq p _) hnew).trans
    (wrote_emit rfl (fun e p => e.dup_eq p) hdup)
  have hstop := (wrote_emit rfl (fun e p => e.initPair_eq p _) hinit).trans (wrote_pushTy hpush)
  have ht : first.typeOf ctx.functions w₃.frame.scope = some t := hms.typeOf
  have hu : second.typeOf ctx.functions w₄.frame.scope = some u := hns.typeOf
  rw [hwrote.frame, hstart.frame, ha] at ht
  rw [hwrote'.frame, hwrote.frame, hstart.frame, hb] at hu
  obtain rfl := Option.some.inj ht
  obtain rfl := Option.some.inj hu
  have hms' := hms.mono (hwrote'.env_growsTo.trans hstop.env_growsTo)
  have hns' := hns.mono hstop.env_growsTo
  refine ⟨_, some a.paired, .pair text span hms' hns', ?_⟩
  have hall := ((hstart.trans hwrote).trans hwrote').trans hstop
  simpa using hall

/-! ## Expressions -/

section Expressions

variable (hctx : ctx.Fits block)

include hctx

theorem wrote_argument {e : Expr} (he : e ∈ block.exprs) {callee : Signature} {position : Nat}
    {formal : Param} (h : argument ctx callee position formal e (value ctx e) w = (.ok (), w'))
    (hvalue : ∀ {t w₁}, value ctx e w = (.ok t, w₁) →
      ∃ ms, OperandCode (w₁.env ctx) e ms t ∧ Wrote w w₁ ms []) :
    ∃ ms, Wrote w w' ms [] ∧ ∀ {env' : CodeEnv} {ps es ns}, (w'.env ctx).GrowsTo env' →
      ArgsCode env' ps es ns → ArgsCode env' (formal :: ps) (e :: es) (ms ++ ns) := by
  obtain ⟨actual, w₀, hactual, hrest⟩ := Attempt.bind_eq_ok.1 h
  obtain ⟨rfl, htype⟩ := infer_eq_ok hactual
  dsimp only at hrest
  split at hrest
  next heq =>
    obtain ⟨t, hrun⟩ := Attempt.discard_eq_ok.1 hrest
    obtain ⟨ms, hms, hwrote⟩ := hvalue hrun
    refine ⟨ms, hwrote, fun henv hargs => .value ?_ hargs⟩
    have ht : e.typeOf ctx.functions w'.frame.scope = some t := hms.typeOf
    rw [hwrote.frame, htype] at ht
    obtain rfl := Option.some.inj ht
    rw [← heq]
    exact hms.mono henv
  next =>
    cases hformal : formal.ty with
    | fn params result =>
      rw [hformal] at hrest
      dsimp only at hrest
      split at hrest
      next hresult =>
        obtain ⟨_, w₁, hpromote, hpop⟩ := Attempt.bind_eq_ok.1 hrest
        obtain ⟨t, hpop⟩ := Attempt.discard_eq_ok.1 hpop
        have hpromoted := htype
        rw [← hresult] at hpromoted
        obtain ⟨s, hs, hwrote⟩ := wrote_promote hctx.faithful he hpromoted hpromote
        obtain ⟨-, hsession, hpopped⟩ := wrote_popTy hwrote hpop
        refine ⟨_, hpopped, fun henv hargs => .wrapped hformal ?_ (henv.wrappers ?_) hargs⟩
        · have hscope : w'.frame.scope = w₀.frame.scope := by rw [hpopped.frame]
          rw [henv.functions, henv.scope, hresult, ← htype]
          show e.typeOf ctx.functions w'.frame.scope = _
          rw [hscope]
        · show w'.session.wrapper? _ = some s
          rw [hsession, hformal]
          exact hs
      next => cases Attempt.fail_ne_ok hrest
    | _ =>
      rw [hformal] at hrest
      cases Attempt.fail_ne_ok hrest

mutual

/-- A run that compiles an expression writes a translation of it. -/
theorem expr_wrote : ∀ e ∈ block.exprs, ∀ {w w' : Workbench}, expr ctx e w = (.ok (), w') →
    ∃ ms t?, ExprCode (w'.env ctx) e ms t? ∧ Wrote w w' ms t?.toList
  | .literal value text span, _, _, _, h => wrote_nested h fun hrun =>
    ⟨_, some value.ty, .literal value text span, wrote_literal hrun⟩
  | .pair first second _ _, he, _, _, h => wrote_nested h fun hrun =>
    wrote_pair hrun
      (fun hx => wrote_operand hx fun hcode => expr_wrote first (Block.first_mem_exprs he) hcode)
      (fun hy => wrote_operand hy fun hcode => expr_wrote second (Block.second_mem_exprs he) hcode)
  | .var _, _, _, _, h => wrote_nested h fun hrun => wrote_reference hrun
  | .placeholder _, _, _, _, h => wrote_nested h fun hrun => wrote_placeholder hrun
  | .lambda _ _ _, he, _, _, h => wrote_nested h fun hrun => wrote_lambda hctx.lambdas he hrun
  | .call ident args text span, he, _, _, h => wrote_nested h fun {w₀ w₁} hrun => by
    obtain ⟨s, _, hcallee, hrest⟩ := Attempt.bind_eq_ok.1 hrun
    obtain ⟨rfl, hs, hcount⟩ := callee_eq_ok hcallee
    obtain ⟨_, w₂, hargs, hfinish⟩ := Attempt.bind_eq_ok.1 hrest
    rw [hcount] at hfinish
    obtain ⟨ms, hms, hwrote⟩ := arguments_wrote args (fun e => Block.arg_mem_exprs he)
      hcount hargs
    obtain ⟨harity, hcall⟩ := wrote_finishCall hfinish
    refine ⟨ms ++ [.call s], s.value?, .call text span hs harity ?_, ?_⟩
    · exact ArgsCode.mono hcall.env_growsTo args hms
    · simpa using hwrote.trans hcall

/-- A run that compiles arguments, one for each parameter, writes a translation of them. -/
theorem arguments_wrote : ∀ es : List Expr, (∀ e ∈ es, e ∈ block.exprs) →
    ∀ {s : Signature} {position : Nat} {ps : List Param} {w w' : Workbench},
      es.length = ps.length → arguments ctx s position ps es w = (.ok (), w') →
        ∃ ms, ArgsCode (w'.env ctx) ps es ms ∧ Wrote w w' ms []
  | [], _, _, _, ps, w, w', hlength, h => by
    cases h
    rw [List.length_nil, eq_comm, List.length_eq_zero_iff] at hlength
    subst hlength
    exact ⟨[], .nil, .refl _⟩
  | e :: es, hes, _, _, [], w, w', hlength, h => by simp at hlength
  | e :: es, hes, s, position, p :: ps, w, w', hlength, h => by
    have he := hes e (by simp)
    obtain ⟨_, w₁, hargument, hrest⟩ := Attempt.bind_eq_ok.1 h
    have hvalue {t : Ty} {w₂ : Workbench} (hrun : value ctx e w = (.ok t, w₂)) :
        ∃ ms, OperandCode (w₂.env ctx) e ms t ∧ Wrote w w₂ ms [] :=
      wrote_operand hrun fun hcode => expr_wrote e he hcode
    obtain ⟨ms, hwrote, hcons⟩ := wrote_argument hctx he hargument hvalue
    obtain ⟨ns, hargs, hwrote'⟩ := arguments_wrote es (fun e' he' => hes e' (by simp [he']))
      (by simpa using hlength) hrest
    exact ⟨ms ++ ns, hcons hwrote'.env_growsTo hargs, hwrote.trans hwrote'⟩

end

/-- A run that compiles an operand writes a translation of it. -/
theorem value_wrote {e : Expr} (he : e ∈ block.exprs) {t : Ty}
    (h : value ctx e w = (.ok t, w')) :
    ∃ ms, OperandCode (w'.env ctx) e ms t ∧ Wrote w w' ms [] :=
  wrote_operand h fun hcode => expr_wrote hctx e he hcode

end Expressions

/-! ## Returns -/

theorem wrote_returnTop {t : Ty} (h : returnTop t w = (.ok (), w')) :
    Wrote w w' [.of (.ret (.ofTy t))] [] :=
  wrote_emit rfl (fun e p => e.ret_eq p _) h

theorem wrote_returnUnit (h : returnUnit w = (.ok (), w')) :
    Wrote w w' [.of .pop, .of .unit, .of (.ret (.ofTy .unit))] [] := by
  obtain ⟨_, w₁, hpop, hrest⟩ := Attempt.bind_eq_ok.1 h
  obtain ⟨_, w₂, hunit, hret⟩ := Attempt.bind_eq_ok.1 hrest
  exact ((wrote_emit rfl (fun e p => e.pop_eq p) hpop).trans
    (wrote_emit rfl (fun e p => e.unit_eq p) hunit)).trans (wrote_returnTop hret)

theorem wrote_returnValue {e : Expr} {text : String} {span : Span}
    (h : returnValue text span (value ctx e) w = (.ok (), w'))
    (hvalue : ∀ {t w₁}, value ctx e w = (.ok t, w₁) →
      ∃ ms, OperandCode (w₁.env ctx) e ms t ∧ Wrote w w₁ ms []) :
    ∃ ms t, OperandCode (w'.env ctx) e ms t ∧
      w.frame.signature.result.acceptsAssign t = true ∧
      Wrote w w' (ms ++ returnCode w.frame.signature.result t) [] := by
  obtain ⟨t, w₁, hrun, hrest⟩ := Attempt.bind_eq_ok.1 h
  obtain ⟨ms, hms, hwrote⟩ := hvalue hrun
  obtain ⟨fr, _, hframe, hreturn⟩ := Attempt.bind_eq_ok.1 hrest
  cases hframe
  have hresult : w₁.frame.signature = w.frame.signature := by rw [hwrote.frame]
  rw [hresult] at hreturn
  dsimp only at hreturn
  have hensure {w₂ : Workbench} (h : ensureNoOperands text span w₂ = (.ok (), w')) : w₂ = w' :=
    congrArg Prod.snd h
  split at hreturn
  next haccepts =>
    refine ⟨ms, t, ?_⟩
    unfold returnCode
    split at hreturn
    next hunit =>
      obtain ⟨_, w₂, hret, hempty⟩ := Attempt.bind_eq_ok.1 hreturn
      obtain rfl := hensure hempty
      have hwrote' := wrote_returnUnit hret
      rw [if_pos hunit]
      exact ⟨hms.mono hwrote'.env_growsTo, haccepts, hwrote.trans hwrote'⟩
    next hunit =>
      obtain ⟨_, w₂, hret, hempty⟩ := Attempt.bind_eq_ok.1 hreturn
      obtain rfl := hensure hempty
      have hwrote' := wrote_returnTop hret
      rw [if_neg hunit]
      exact ⟨hms.mono hwrote'.env_growsTo, haccepts, hwrote.trans hwrote'⟩
  next => cases Attempt.fail_ne_ok hreturn

/-- The return of what a last expression left is that of a return statement. -/
theorem wrote_returnLeft {e : Expr} {span : Span} {t? : Option Ty}
    (hempty : w.frame.operands.types = []) (hms : ExprCode (w₁.env ctx) e ms t?)
    (hwrote : Wrote w w₁ ms t?.toList) (h : returnLeft span w₁ = (.ok (), w')) :
    ∃ ns t, OperandCode (w'.env ctx) e ns t ∧
      w.frame.signature.result.acceptsAssign t = true ∧
      Wrote w w' (ns ++ returnCode w.frame.signature.result t) [] := by
  obtain ⟨fr, _, hframe, hreturn⟩ := Attempt.bind_eq_ok.1 h
  cases hframe
  have hresult : w₁.frame.signature = w.frame.signature := by rw [hwrote.frame]
  have htypes : w₁.frame.operands.types = t?.toList := by
    rw [hwrote.frame]
    simp [hempty]
  rw [hresult] at hreturn
  cases t? with
  | none =>
    rw [Option.toList_none] at htypes
    simp only [htypes] at hreturn
    split at hreturn
    next hunit =>
      obtain ⟨_, w₂, hpush, hret⟩ := Attempt.bind_eq_ok.1 hreturn
      have hwrote₁ := wrote_emit (i := .unit) rfl (fun e p => e.unit_eq p) hpush
      have hwrote₂ := wrote_returnTop hret
      have heq : w.frame.signature.result = .unit := by
        simpa [Ty.isUnit] using hunit
      refine ⟨ms ++ [.of .unit], .unit, .unit ?_, ?_, ?_⟩
      · exact ExprCode.mono (hwrote₁.env_growsTo.trans hwrote₂.env_growsTo) e hms
      · rw [heq]
        rfl
      · rw [heq]
        exact (hwrote.trans hwrote₁).trans hwrote₂
    next => cases Attempt.fail_ne_ok hreturn
  | some t =>
    rw [Option.toList_some] at htypes
    simp only [htypes] at hreturn
    obtain ⟨actual, w₂, hpop, hrest⟩ := Attempt.bind_eq_ok.1 hreturn
    obtain ⟨rfl, hsession, hpopped⟩ := wrote_popTy hwrote hpop
    have henv : w₂.env ctx = w₁.env ctx := by
      rw [Workbench.env, Workbench.env, hsession, hpopped.frame, hwrote.frame]
    have hcode {ns : List Emitted} (hret : Wrote w₂ w' ns []) :
        OperandCode (w'.env ctx) e ms actual := by
      refine .value (ExprCode.mono ?_ e hms)
      rw [← henv]
      exact hret.env_growsTo
    refine ⟨ms, actual, ?_⟩
    unfold returnCode
    split at hrest
    next hactual =>
      have hret := wrote_returnTop hrest
      rw [if_neg (by simp [hactual])]
      exact ⟨hcode hret, by simp [Ty.acceptsAssign, hactual], hpopped.trans hret⟩
    next hactual =>
      split at hrest
      next hunit =>
        have hret := wrote_returnUnit hrest
        have heq : w.frame.signature.result = .unit := by
          simpa [Ty.acceptsDiscarding, Ty.isUnit] using hunit
        rw [heq] at hactual ⊢
        rw [if_pos (by simp [Ty.isUnit, hactual])]
        exact ⟨hcode hret, by simp [Ty.acceptsAssign, Ty.acceptsDiscarding, Ty.isUnit],
          hpopped.trans hret⟩
      next => cases Attempt.fail_ne_ok hrest

/-- What a statement left is dropped, one instruction for each value. -/
theorem wrote_dropOperands {t? : Option Ty} (hempty : w.frame.operands.types = [])
    (hwrote : Wrote w w₁ ms t?.toList) (h : dropOperands w₁ = (.ok (), w')) :
    Wrote w w' (ms ++ t?.toList.map (fun _ => .of .pop)) [] ∧
      w'.frame.operands.types = [] ∧ w'.env ctx = w₁.env ctx := by
  cases h
  have htypes : w₁.frame.operands.types = t?.toList := by
    rw [hwrote.frame]
    simp [hempty]
  refine ⟨⟨?_, hwrote.interned.append ?_, hwrote.pool, hwrote.wrappers⟩, rfl, rfl⟩
  · show { w₁.frame with
      emitter := w₁.frame.operands.types.foldl (fun e _ => e.pop) w₁.frame.emitter
      operands := {} } = _
    rw [htypes, hwrote.frame, hempty, Emitter.writeAll_append]
    cases t? <;> rfl
  · intro m hm
    obtain ⟨_, _, rfl⟩ := List.mem_map.1 hm
    exact Instr.interned_of_constant?_eq_none rfl _

/-! ## Bodies -/

/-- Between two states of one function, the code of `ms` was appended. -/
structure Coded (w w' : Workbench) (ms : List Emitted) : Prop where
  code : w'.frame.emitter.chunk.code.toList =
    w.frame.emitter.chunk.code.toList ++ codeBytes w'.session.pool (instrs ms)
  interned : AllInterned ms w'.session.pool
  pool : w.session.pool.GrowsTo w'.session.pool
  wrappers : ∀ {key s}, w.session.wrapper? key = some s → w'.session.wrapper? key = some s
  scope : w'.frame.scope = w.frame.scope
  signature : w'.frame.signature = w.frame.signature

theorem Wrote.coded (h : Wrote w w' ms ts) : Coded w w' ms := by
  refine ⟨?_, h.interned, h.pool, h.wrappers, by rw [h.frame], by rw [h.frame]⟩
  rw [h.frame]
  exact Emitter.code_writeAll _ _ _

theorem Coded.trans (h : Coded w w₁ ms) (h' : Coded w₁ w₂ ns) : Coded w w₂ (ms ++ ns) := by
  refine ⟨?_, (h.interned.mono h'.pool).append h'.interned, h.pool.trans h'.pool,
    fun hs => h'.wrappers (h.wrappers hs), h'.scope.trans h.scope, h'.signature.trans h.signature⟩
  have hms := codeBytes_eq_of_growsTo h.interned.instrs h'.pool
  rw [h'.code, h.code, instrs_append, codeBytes_append, hms, List.append_assoc]

theorem Coded.env_growsTo (h : Coded w w' ms) : (w.env ctx).GrowsTo (w'.env ctx) :=
  ⟨rfl, h.scope, id, h.wrappers⟩

theorem coded_setLine {line : Nat} (h : setLine ctx line w = (.ok (), w')) :
    Coded w w' [] ∧ w'.frame.operands = w.frame.operands := by
  unfold setLine at h
  split at h
  · cases h
    exact ⟨⟨by simp; rfl, .nil _, .refl _, id, rfl, rfl⟩, rfl⟩
  · cases h
    exact ⟨⟨by simp, .nil _, .refl _, id, rfl, rfl⟩, rfl⟩

section Bodies

variable (hctx : ctx.Fits block)

include hctx

/-- A run that compiles the statements of a body writes a translation of them. -/
theorem stmts_coded : ∀ ss : List Stmt, (∀ e ∈ Stmt.exprsAll ss, e ∈ block.exprs) →
    ∀ {w w' : Workbench}, w.frame.operands.types = [] → stmts ctx ss w = (.ok (), w') →
      ∃ ms, BodyCode (w'.env ctx) w.frame.signature.result ss ms ∧ Coded w w' ms
  | [], _, w, w', hempty, h => by
    obtain ⟨fr, _, hframe, hreturn⟩ := Attempt.bind_eq_ok.1 h
    cases hframe
    obtain ⟨fr, _, hframe, hrest⟩ := Attempt.bind_eq_ok.1 hreturn
    cases hframe
    simp only [hempty] at hrest
    split at hrest
    next hunit =>
      obtain ⟨_, w₂, hpush, hret⟩ := Attempt.bind_eq_ok.1 hrest
      have hwrote₁ := wrote_emit (i := .unit) rfl (fun e p => e.unit_eq p) hpush
      have heq : w.frame.signature.result = .unit := by simpa [Ty.isUnit] using hunit
      exact ⟨_, .empty heq, (hwrote₁.trans (wrote_returnTop hret)).coded⟩
    next => cases Attempt.fail_ne_ok hrest
  | s :: rest, hss, w, w', hempty, h => by
    obtain ⟨_, w₁, hline, hrest₁⟩ := Attempt.bind_eq_ok.1 h
    obtain ⟨hcoded, hoperands⟩ := coded_setLine hline
    rw [← hoperands] at hempty
    rw [← hcoded.signature]
    obtain ⟨_, w₂, hstmt, hrest₂⟩ := Attempt.bind_eq_ok.1 hrest₁
    have hrests : ∀ e ∈ Stmt.exprsAll rest, e ∈ block.exprs := fun e he =>
      hss e (List.mem_append_right _ he)
    cases s with
    | decl ident body span => cases Attempt.fail_ne_ok hstmt
    | expr e =>
      have he : e ∈ block.exprs := hss e (List.mem_append_left _ e.mem_subexprs_self)
      obtain ⟨ms, t?, hms, hwrote⟩ := expr_wrote hctx e he hstmt
      cases rest with
      | nil =>
        obtain ⟨ns, t, hns, haccepts, hreturned⟩ := wrote_returnLeft hempty hms hwrote hrest₂
        exact ⟨_, .last hns haccepts, hcoded.trans hreturned.coded⟩
      | cons s' rest =>
        obtain ⟨_, w₃, hdrop, htail⟩ := Attempt.bind_eq_ok.1 hrest₂
        obtain ⟨hdropped, hempty', henv⟩ := wrote_dropOperands hempty hwrote hdrop
        obtain ⟨ns, hns, hcoded'⟩ := stmts_coded (s' :: rest) hrests hempty' htail
        rw [hdropped.coded.signature] at hns
        rw [← henv] at hms
        refine ⟨_, .exprThen (ExprCode.mono hcoded'.env_growsTo e hms) hns, ?_⟩
        exact hcoded.trans (hdropped.coded.trans hcoded')
    | ret e span =>
      have he : e ∈ block.exprs := hss e (List.mem_append_left _ e.mem_subexprs_self)
      obtain ⟨ms, t, hms, haccepts, hwrote⟩ := wrote_returnValue hstmt (value_wrote hctx he)
      cases rest with
      | nil =>
        cases hrest₂
        exact ⟨_, .ret span hms haccepts, hcoded.trans hwrote.coded⟩
      | cons s' rest =>
        obtain ⟨_, w₃, hdrop, htail⟩ := Attempt.bind_eq_ok.1 hrest₂
        have hnone : Wrote w₁ w₂ _ (none : Option Ty).toList := hwrote
        obtain ⟨hdropped, hempty', henv⟩ := wrote_dropOperands hempty hnone hdrop
        obtain ⟨ns, hns, hcoded'⟩ := stmts_coded (s' :: rest) hrests hempty' htail
        rw [hdropped.coded.signature] at hns
        rw [← henv] at hms
        refine ⟨_, .retThen span (hms.mono hcoded'.env_growsTo) haccepts hns, ?_⟩
        have hall := hcoded.trans (hdropped.coded.trans hcoded')
        simpa using hall

end Bodies

end Gen

/-! ## Functions -/

/-- A chunk is the code of a function with this signature and this body, where some anonymous
functions and some wrappers are known, and the numbers of constants are those of a pool. -/
structure CompiledFrom (functions : FunctionTable) (lambdas wrappers : String → Option Signature)
    (pool : Pool) (s : Signature) (body : List Stmt) (chunk : Chunk) : Prop where
  names : (s.params.map Param.name).Nodup
  arity : s.params.length ≤ Scope.slotLimit
  code : ∃ ms, BodyCode ⟨functions, .ofParams s.params, lambdas, wrappers⟩ s.result body ms ∧
    AllInterned ms pool ∧ chunk.code.toList = codeBytes pool (instrs ms)

/-- Code stays code of its body when more functions and more constants become known. -/
theorem CompiledFrom.mono {functions : FunctionTable} {l l' r r' : String → Option Signature}
    {p p' : Pool} {s : Signature} {body : List Stmt} {chunk : Chunk}
    (h : CompiledFrom functions l r p s body chunk)
    (hl : ∀ {text s}, l text = some s → l' text = some s)
    (hr : ∀ {key s}, r key = some s → r' key = some s) (hp : p.GrowsTo p') :
    CompiledFrom functions l' r' p' s body chunk := by
  obtain ⟨ms, hms, hinterned, hcode⟩ := h.code
  have henv : CodeEnv.GrowsTo ⟨functions, .ofParams s.params, l, r⟩
      ⟨functions, .ofParams s.params, l', r'⟩ := ⟨rfl, rfl, hl, hr⟩
  refine ⟨h.names, h.arity, ms, hms.mono henv, hinterned.mono hp, ?_⟩
  rw [hcode, codeBytes_eq_of_growsTo hinterned.instrs hp]

namespace Gen

variable {ctx : CodeContext} {block : Block} {S : Session} {s : Signature} {site : Span}
  {depth : Nat} {w' : Workbench}

private theorem code_ranges (vs : List LocalVar) (start stop : Nat) (e : Emitter) :
    (vs.foldl (fun e v => e.range (v.range start stop)) e).chunk.code = e.chunk.code := by
  induction vs generalizing e with
  | nil => rfl
  | cons v vs ih =>
    rw [List.foldl_cons, ih]
    rfl

/-- A run that compiles a whole function writes code of its body. -/
theorem framed_compiled {code : Gen Unit} {body : List Stmt}
    (h : framed ctx code ⟨S, .start s site depth⟩ = (.ok (), w'))
    (hcode : ∀ {w₁ w₂}, w₁.frame.operands.types = [] → code w₁ = (.ok (), w₂) →
      ∃ ms, BodyCode (w₂.env ctx) w₁.frame.signature.result body ms ∧ Coded w₁ w₂ ms) :
    CompiledFrom ctx.functions ctx.lambdas.get? w'.session.wrapper? w'.session.pool s body
      w'.frame.emitter.chunk := by
  obtain ⟨fr, _, hframe, hrest₁⟩ := Attempt.bind_eq_ok.1 h
  cases hframe
  obtain ⟨_, w₁, hparams, hrest₂⟩ := Attempt.bind_eq_ok.1 hrest₁
  obtain ⟨-, hnames, harity, emitter, hemitter, rfl⟩ := declareParams_eq_ok hparams
  obtain ⟨_, w₂, hstart, hrest₃⟩ := Attempt.bind_eq_ok.1 hrest₂
  cases hstart
  obtain ⟨_, w₃, hrun, hrest₄⟩ := Attempt.bind_eq_ok.1 hrest₃
  obtain ⟨_, w₄, hstop, hranges⟩ := Attempt.bind_eq_ok.1 hrest₄
  cases hstop
  obtain ⟨ms, hms, hcoded⟩ := hcode rfl hrun
  have hchunk : w'.session = w₃.session ∧
      w'.frame.emitter.chunk.code = w₃.frame.emitter.chunk.code := by
    split at hranges
    · cases hranges
      exact ⟨rfl, code_ranges _ _ _ _⟩
    · cases hranges
      exact ⟨rfl, rfl⟩
  have hscope : w₃.frame.scope = .ofParams s.params := hcoded.scope
  rw [Workbench.env, hscope] at hms
  rw [hchunk.1]
  refine ⟨hnames, ?_, ms, hms, hcoded.interned, ?_⟩
  · have := harity (by simp [Frame.start, Scope.size, Scope.empty])
    simpa [Frame.start, Scope.size, Scope.empty] using this
  · have hempty : emitter.chunk.code.toList = [] := by
      rw [hemitter]
      rfl
    have hlabel : emitter.label.1.chunk.code = emitter.chunk.code := rfl
    rw [hchunk.2, hcoded.code]
    simp [hlabel, hempty]

variable (hctx : ctx.Fits block)

include hctx

theorem body_compiled {ss : List Stmt} (hss : ∀ e ∈ Stmt.exprsAll ss, e ∈ block.exprs)
    (h : body ctx ss ⟨S, .start s site depth⟩ = (.ok (), w')) :
    CompiledFrom ctx.functions ctx.lambdas.get? w'.session.wrapper? w'.session.pool s ss
      w'.frame.emitter.chunk :=
  framed_compiled h fun hempty hrun => stmts_coded hctx ss hss hempty hrun

theorem returnBody_compiled {e : Expr} (he : e ∈ block.exprs) {span : Span}
    (h : returnBody ctx e.text span (value ctx e) ⟨S, .start s site depth⟩ = (.ok (), w')) :
    CompiledFrom ctx.functions ctx.lambdas.get? w'.session.wrapper? w'.session.pool s
      [.ret e span] w'.frame.emitter.chunk := by
  refine framed_compiled h fun {w₁ w₂} hempty hrun => ?_
  obtain ⟨_, w₃, hline, hreturn⟩ := Attempt.bind_eq_ok.1 hrun
  obtain ⟨hcoded, -⟩ := coded_setLine hline
  obtain ⟨ms, t, hms, haccepts, hwrote⟩ := wrote_returnValue hreturn (value_wrote hctx he)
  rw [hcoded.signature] at haccepts hwrote
  exact ⟨_, .ret span hms haccepts, hcoded.trans hwrote.coded⟩

end Gen

end BlockCompiler
