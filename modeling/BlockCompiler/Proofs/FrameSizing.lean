import BlockCompiler.Proofs.CodeInvariants
import BlockCompiler.Proofs.DebugRecords
import BlockCompiler.Proofs.OperandDepth
import BlockCompiler.Proofs.TypeAgreement

/-!
# Frames are as large as needed

The size of the operand stack that a frame asks for is what the emitter counted.  Three limits decide how
high it can get: a call has fewer than 256 arguments, expressions nest to a limited depth, and sizes that
no word can hold count as the largest one.

* `Gen.expr_lifts` is the recurrence.  An argument is computed on top of those before it and a pair keeps
  three operands below its second element, so a level adds 254 at most, and the height of an expression
  bounds what its code lifts the stack by.
* The height is bounded by the walk over the anonymous functions and not by the code generator.  A constant
  that was wrapped before is bound one level deeper than code may be generated, but the walk enters it.
* `SizedFor` says what is known of finished code, and `Session.Sized` that it is known of all code in a
  session.  It survives the growth of the pool, so that every step keeps it.
* `stack_size_exact` is the result for blocks.
-/

namespace BlockCompiler

namespace Gen

variable {ctx : CodeContext} {w w₁ w' : Workbench}

/-! ## Leaves -/

/-- An instruction that pushes a value, whose type is noted. -/
theorem Lifts.push {t : Ty} (h : Lifts ctx 1 0 (max 0 1) w w₁) (hpush : pushTy t w₁ = (.ok (), w')) :
    Lifts ctx 1 1 1 w w' :=
  (h.trans (lifts_pushTy hpush)).cast (by omega) (by omega) (by omega)

theorem lifts_emitUnit (h : emit (·.unit) w = (.ok (), w')) : Lifts ctx 1 0 (max 0 1) w w' :=
  lifts_emit (.plain rfl) rfl rfl (fun e p => e.unit_eq p) h

theorem lifts_constant {c : Constant} (h : emitPooled (·.constant c) w = (.ok (), w')) :
    Lifts ctx 1 0 (max 0 1) w w' :=
  lifts_emitPooled (.plain rfl) rfl rfl (fun e p => e.constant_eq p c) h

theorem lifts_literal {value : Literal} (h : literal value w = (.ok (), w')) :
    Lifts ctx 1 1 1 w w' := by
  cases value with
  | bool v =>
    obtain ⟨_, w₁, hcode, hpush⟩ := Attempt.bind_eq_ok.1 h
    exact (lifts_emit (.plain rfl) rfl rfl (fun e p => e.bool_eq p v) hcode).push hpush
  | unit =>
    obtain ⟨_, w₁, hcode, hpush⟩ := Attempt.bind_eq_ok.1 h
    exact (lifts_emitUnit hcode).push hpush
  | int v | real v | string v =>
    obtain ⟨_, w₁, hcode, hpush⟩ := Attempt.bind_eq_ok.1 h
    exact (lifts_constant hcode).push hpush

/-- An argument that the function has. -/
theorem lifts_loadVar {name : String} {v : LocalVar} (hv : w.frame.scope.get? name = some v)
    (h : loadVar v w = (.ok (), w')) : Lifts ctx 1 1 1 w w' := by
  obtain ⟨_, w₁, hcode, hpush⟩ := Attempt.bind_eq_ok.1 h
  exact (lifts_emit (.load hv) rfl rfl (fun e p => e.load_eq p _ _) hcode).push hpush

theorem lifts_bindFunction {s : Signature} (h : bindFunction s w = (.ok (), w')) :
    Lifts ctx 1 1 1 w w' := by
  obtain ⟨_, w₁, hcode, hpush⟩ := Attempt.bind_eq_ok.1 h
  exact (lifts_emitPooled (.plain rfl) rfl rfl (fun e p => e.bind_eq p _) hcode).push hpush

theorem lifts_reference {ident : Ident} (h : reference ctx ident w = (.ok (), w')) :
    Lifts ctx 1 1 1 w w' := by
  obtain ⟨fr, _, hframe, hrest⟩ := Attempt.bind_eq_ok.1 h
  cases hframe
  cases hv : w.frame.scope.get? ident.name with
  | some v =>
    simp only [hv] at hrest
    exact lifts_loadVar hv hrest
  | none =>
    simp only [hv] at hrest
    cases hs : ctx.functions.get? ident.name with
    | some s =>
      simp only [hs] at hrest
      exact lifts_bindFunction hrest
    | none =>
      simp only [hs] at hrest
      cases Attempt.fail_ne_ok hrest

theorem lifts_placeholder {span : Span} (h : placeholder span w = (.ok (), w')) :
    Lifts ctx 1 1 1 w w' := by
  obtain ⟨fr, _, hframe, hrest⟩ := Attempt.bind_eq_ok.1 h
  cases hframe
  cases hv : w.frame.scope.get? Expr.placeholderText with
  | some v =>
    simp only [hv] at hrest
    split at hrest
    next => exact lifts_loadVar hv hrest
    next => cases Attempt.fail_ne_ok hrest
  | none =>
    simp only [hv] at hrest
    cases Attempt.fail_ne_ok hrest

theorem lifts_lambda {text : String} {span : Span} (h : lambda ctx text span w = (.ok (), w')) :
    Lifts ctx 1 1 1 w w' := by
  unfold lambda at h
  cases hs : ctx.lambdas.get? text with
  | some s =>
    simp only [hs] at h
    exact lifts_bindFunction h
  | none =>
    simp only [hs] at h
    cases Attempt.fail_ne_ok h

/-! ## Steps around code -/

variable {lift : Int}

/-- The level of an expression is no matter of the stack. -/
theorem lifts_nested {span : Span} {x : Gen Unit} (h : nested ctx span x w = (.ok (), w'))
    (hx : ∀ {w₀ w₁}, x w₀ = (.ok (), w₁) → ∃ r : Nat, r ≤ 1 ∧ Lifts ctx r r lift w₀ w₁) :
    ∃ r : Nat, r ≤ 1 ∧ Lifts ctx r r lift w w' := by
  obtain ⟨fr, _, hframe, hguarded⟩ := Attempt.bind_eq_ok.1 h
  cases hframe
  obtain ⟨_, _, hdepth, hdeep⟩ := Attempt.bind_eq_ok.1 hguarded
  obtain ⟨-, rfl⟩ := Attempt.ofExcept_eq_ok.1 hdepth
  obtain ⟨_, w₀, hdeeper, hending⟩ := Attempt.bind_eq_ok.1 hdeep
  cases hdeeper
  obtain ⟨w₁, hrun, rfl⟩ := Attempt.ending_eq_ok.1 hending
  obtain ⟨r, hr, ms, hms, hdepth, hpeak⟩ := hx hrun
  obtain ⟨hemitter, hinterned, hproper, hpool, hscope, hoperands⟩ := hms
  exact ⟨r, hr, ms, ⟨hemitter, hinterned, hproper, hpool, hscope, hoperands⟩, hdepth, hpeak⟩

/-- An operand is one value, the unit value if its code leaves none. -/
theorem lifts_operand {e : Expr} {code : Gen Unit} {t : Ty} (hlift : 1 ≤ lift)
    (h : operand e code w = (.ok t, w'))
    (hcode : ∀ {w₁}, code w = (.ok (), w₁) → ∃ r : Nat, r ≤ 1 ∧ Lifts ctx r r lift w w₁) :
    Lifts ctx 1 0 lift w w' := by
  obtain ⟨before, _, hbefore, hrest⟩ := Attempt.bind_eq_ok.1 h
  cases hbefore
  obtain ⟨_, w₁, hrun, hrest⟩ := Attempt.bind_eq_ok.1 hrest
  obtain ⟨fr, _, hframe, hrest⟩ := Attempt.bind_eq_ok.1 hrest
  cases hframe
  obtain ⟨r, hr, hlifts⟩ := hcode hrun
  have hsize := hlifts.size_eq
  split at hrest
  next hsame =>
    obtain ⟨_, w₂, hunit, hrest⟩ := Attempt.bind_eq_ok.1 hrest
    obtain ⟨_, w₃, hpush, hpop⟩ := Attempt.bind_eq_ok.1 hrest
    have hpushed : Lifts ctx 1 1 1 w₁ w₃ := (lifts_emitUnit hunit).push hpush
    exact ((hlifts.trans hpushed).trans (lifts_popTy hpop)).cast (by omega) (by omega) (by omega)
  next hgrew =>
    exact (hlifts.trans (lifts_popTy hrest)).cast (by omega) (by omega) (by omega)

/-! ## Calls and pairs -/

/-- A promoted constant is one value: the function over its wrapper, whose own code is elsewhere. -/
theorem lifts_promote {e : Expr} {params : List Ty} {result : Ty}
    (h : promote ctx e params result (value ctx e) w = (.ok (), w')) : Lifts ctx 1 1 1 w w' := by
  cases promotion h with
  | reused hs hbind => exact (lifts_bindFunction hbind).of_pool (.refl _)
  | @wrapped s S _ _ _ _ _ hcompiled hbind =>
    have hcompile : Attempt.Keeps Session.GrowsTo (Session.compileWith s .synthetic e.span
        (w.frame.depth + 1) (returnBody ctx e.text e.span (value ctx e))) :=
      Session.growsTo_compileWith (growsTo_value ctx e).returnBody
    have hgrown := hcompile.of_run hcompiled
    exact (lifts_bindFunction hbind).of_pool hgrown.pool

theorem lifts_argument {e : Expr} {s : Signature} {position : Nat} {formal : Param} (hlift : 1 ≤ lift)
    (h : argument ctx s position formal e (value ctx e) w = (.ok (), w'))
    (hvalue : ∀ {t w₁}, value ctx e w = (.ok t, w₁) → Lifts ctx 1 0 lift w w₁) :
    Lifts ctx 1 0 lift w w' := by
  obtain ⟨actual, _, hinfer, hrest⟩ := Attempt.bind_eq_ok.1 h
  obtain ⟨rfl, -⟩ := infer_eq_ok hinfer
  dsimp only at hrest
  split at hrest
  next =>
    obtain ⟨t, hrun⟩ := Attempt.discard_eq_ok.1 hrest
    exact hvalue hrun
  next =>
    cases hformal : formal.ty with
    | fn params result =>
      rw [hformal] at hrest
      dsimp only at hrest
      split at hrest
      next =>
        obtain ⟨_, w₁, hpromote, hpop⟩ := Attempt.bind_eq_ok.1 hrest
        obtain ⟨t, hpop⟩ := Attempt.discard_eq_ok.1 hpop
        exact ((lifts_promote hpromote).trans (lifts_popTy hpop)).cast rfl rfl (by omega)
      next => cases Attempt.fail_ne_ok hrest
    | _ =>
      rw [hformal] at hrest
      cases Attempt.fail_ne_ok hrest

/-- A call takes its arguments, and leaves the result if there is one. -/
theorem lifts_finishCall {s : Signature} {text : String} {span : Span} (hs : ctx.functions.Knows s)
    (h : finishCall s s.arity text span w = (.ok (), w')) :
    s.arity < 256 ∧ ∃ r : Nat, r ≤ 1 ∧
      Lifts ctx (r - s.arity) r (max 0 (r - s.arity)) w w' := by
  unfold finishCall at h
  split at h
  next harity =>
    refine ⟨harity, ?_⟩
    obtain ⟨_, w₁, hcode, hpush⟩ := Attempt.bind_eq_ok.1 h
    have hcall := lifts_emitPooled (.call hs harity) rfl rfl (fun e p => e.call_eq p s) hcode
    have hcount : (UInt8.ofNat s.arity).toNat = s.arity := by
      rw [UInt8.toNat_ofNat', Nat.mod_eq_of_lt harity]
    simp only [Emitted.call, hcount] at hcall
    split at hpush
    next hunit =>
      cases hpush
      rw [if_pos hunit] at hcall
      exact ⟨0, Nat.zero_le 1, hcall⟩
    next hunit =>
      rw [if_neg hunit] at hcall
      exact ⟨1, Nat.le_refl 1, (hcall.trans (lifts_pushTy hpush)).cast (by omega) rfl (by omega)⟩
  next => cases Attempt.fail_ne_ok h

theorem lifts_pair {first second : Expr} {span : Span} {firstValue secondValue : Gen Ty}
    {lift' : Int} (h : pair ctx first second span firstValue secondValue w = (.ok (), w'))
    (hfirst : ∀ {t w w'}, firstValue w = (.ok t, w') → Lifts ctx 1 0 lift w w')
    (hsecond : ∀ {t w w'}, secondValue w = (.ok t, w') → Lifts ctx 1 0 lift' w w') :
    Lifts ctx 1 1 (max 4 (max (2 + lift) (3 + lift'))) w w' := by
  obtain ⟨a, _, ha, hrest₁⟩ := Attempt.bind_eq_ok.1 h
  obtain ⟨rfl, -⟩ := infer_eq_ok ha
  obtain ⟨b, _, hb, hrest₂⟩ := Attempt.bind_eq_ok.1 hrest₁
  obtain ⟨rfl, -⟩ := infer_eq_ok hb
  obtain ⟨ty, _, hty, hrest₃⟩ := Attempt.bind_eq_ok.1 hrest₂
  obtain ⟨-, rfl⟩ := Attempt.ofExcept_eq_ok.1 hty
  obtain ⟨_, w₁, hnew, hrest₄⟩ := Attempt.bind_eq_ok.1 hrest₃
  obtain ⟨_, w₂, hdup, hrest₅⟩ := Attempt.bind_eq_ok.1 hrest₄
  obtain ⟨_, w₃, hx, hrest₆⟩ := Attempt.bind_eq_ok.1 hrest₅
  obtain ⟨_, w₄, hy, hrest₇⟩ := Attempt.bind_eq_ok.1 hrest₆
  obtain ⟨_, w₅, hinit, hpush⟩ := Attempt.bind_eq_ok.1 hrest₇
  obtain ⟨t, hx⟩ := Attempt.discard_eq_ok.1 hx
  obtain ⟨u, hy⟩ := Attempt.discard_eq_ok.1 hy
  have hnew : Lifts ctx 1 0 (max 0 1) _ w₁ :=
    lifts_emit (.plain rfl) rfl rfl (fun e p => e.newPair_eq p _) hnew
  have hdup : Lifts ctx 1 0 (max 0 1) w₁ w₂ :=
    lifts_emit (.plain rfl) rfl rfl (fun e p => e.dup_eq p) hdup
  have hinit : Lifts ctx (-3) 0 (max 0 (-3)) w₄ w₅ :=
    lifts_emit (.plain rfl) rfl rfl (fun e p => e.initPair_eq p _) hinit
  have hvalues := ((hnew.trans hdup).trans (hfirst hx)).trans (hsecond hy)
  exact ((hvalues.trans hinit).trans (lifts_pushTy hpush)).cast rfl rfl (by omega)

/-! ## Expressions -/

mutual

/-- The code of an expression leaves one operand or none, and lifts the stack by 254 for each level of
expressions below it, and one. -/
theorem expr_lifts : ∀ (e : Expr) {w w' : Workbench}, expr ctx e w = (.ok (), w') →
    ∃ r : Nat, r ≤ 1 ∧ Lifts ctx r r (254 * e.height + 1) w w'
  | .literal _ _ _, _, _, h => lifts_nested h fun hrun =>
    ⟨1, Nat.le_refl 1, (lifts_literal hrun).cast rfl rfl (by omega)⟩
  | .pair first second _ _, _, _, h => lifts_nested h fun hrun => by
    have hpair := lifts_pair hrun
      (fun hx => lifts_operand (by omega) hx fun hcode => expr_lifts first hcode)
      (fun hy => lifts_operand (by omega) hy fun hcode => expr_lifts second hcode)
    refine ⟨1, Nat.le_refl 1, hpair.cast rfl rfl ?_⟩
    rw [Expr.height]
    omega
  | .var _, _, _, h => lifts_nested h fun hrun =>
    ⟨1, Nat.le_refl 1, (lifts_reference hrun).cast rfl rfl (by omega)⟩
  | .placeholder _, _, _, h => lifts_nested h fun hrun =>
    ⟨1, Nat.le_refl 1, (lifts_placeholder hrun).cast rfl rfl (by omega)⟩
  | .lambda _ _ _, _, _, h => lifts_nested h fun hrun =>
    ⟨1, Nat.le_refl 1, (lifts_lambda hrun).cast rfl rfl (by omega)⟩
  | .call ident args text span, _, _, h => lifts_nested h fun hrun => by
    obtain ⟨s, _, hcallee, hrest⟩ := Attempt.bind_eq_ok.1 hrun
    obtain ⟨rfl, hs, hcount⟩ := callee_eq_ok hcallee
    obtain ⟨_, w₂, hargs, hfinish⟩ := Attempt.bind_eq_ok.1 hrest
    rw [hcount] at hfinish
    have hlifts := arguments_lifts args hcount hargs
    have hlow := hlifts.net_le
    obtain ⟨harity, r, hr, hcall⟩ := lifts_finishCall (FunctionTable.knows_of_get? hs) hfinish
    refine ⟨r, hr, (hlifts.trans hcall).cast (by omega) (by omega) ?_⟩
    rw [Expr.height]
    omega

/-- The code of arguments, one for each parameter, leaves one operand each. -/
theorem arguments_lifts : ∀ (es : List Expr) {s : Signature} {position : Nat} {ps : List Param}
    {w w' : Workbench}, es.length = ps.length → arguments ctx s position ps es w = (.ok (), w') →
      Lifts ctx es.length 0 (max 0 (es.length + 254 * Expr.heightAll es - 254)) w w'
  | [], _, _, ps, w, _, _, h => by
    cases h
    exact (lifts_refl w).cast rfl rfl (by omega)
  | _ :: _, _, _, [], _, _, hlength, _ => by simp at hlength
  | e :: es, s, position, p :: ps, w, w', hlength, h => by
    obtain ⟨_, w₁, hargument, hrest⟩ := Attempt.bind_eq_ok.1 h
    have hhead : Lifts ctx 1 0 (254 * e.height + 1) w w₁ := by
      refine lifts_argument (by omega) hargument fun hrun => ?_
      exact lifts_operand (by omega) hrun fun hcode => expr_lifts e hcode
    have htail := arguments_lifts es (by simpa using hlength) hrest
    refine (hhead.trans htail).cast ?_ rfl ?_
    · rw [List.length_cons]
      omega
    · rw [Expr.heightAll, List.length_cons]
      omega

end

theorem value_lifts {e : Expr} {t : Ty} (h : value ctx e w = (.ok t, w')) :
    Lifts ctx 1 0 (254 * e.height + 1) w w' :=
  lifts_operand (by omega) h fun hcode => expr_lifts e hcode

/-! ## Returns and statements -/

theorem lifts_returnTop {t : Ty} (h : returnTop t w = (.ok (), w')) : Lifts ctx (-1) 0 0 w w' :=
  lifts_emit (.plain rfl) rfl rfl (fun e p => e.ret_eq p _) h

theorem lifts_returnUnit (h : returnUnit w = (.ok (), w')) : Lifts ctx (-1) 0 0 w w' := by
  obtain ⟨_, w₁, hpop, hrest⟩ := Attempt.bind_eq_ok.1 h
  obtain ⟨_, w₂, hunit, hret⟩ := Attempt.bind_eq_ok.1 hrest
  have hpop : Lifts ctx (-1) 0 (max 0 (-1)) w w₁ :=
    lifts_emit (.plain rfl) rfl rfl (fun e p => e.pop_eq p) hpop
  have hall := (hpop.trans (lifts_emitUnit hunit)).trans (lifts_returnTop hret)
  exact hall.cast rfl rfl (by omega)

/-- A return takes the value that it returns. -/
theorem lifts_returnValue {text : String} {span : Span} {value : Gen Ty}
    (h : returnValue text span value w = (.ok (), w'))
    (hvalue : ∀ {t w₁}, value w = (.ok t, w₁) → Lifts ctx 1 0 lift w w₁) :
    Lifts ctx 0 0 lift w w' := by
  obtain ⟨t, w₁, hrun, hrest⟩ := Attempt.bind_eq_ok.1 h
  have hvalue := hvalue hrun
  have hle := hvalue.net_le
  obtain ⟨fr, _, hframe, hreturn⟩ := Attempt.bind_eq_ok.1 hrest
  cases hframe
  dsimp only at hreturn
  have hensure {w₂ : Workbench} (h : ensureNoOperands text span w₂ = (.ok (), w')) : w₂ = w' :=
    congrArg Prod.snd h
  split at hreturn
  next =>
    have hret : Lifts ctx (-1) 0 0 w₁ w' := by
      split at hreturn
      next =>
        obtain ⟨_, w₂, hret, hempty⟩ := Attempt.bind_eq_ok.1 hreturn
        obtain rfl := hensure hempty
        exact lifts_returnUnit hret
      next =>
        obtain ⟨_, w₂, hret, hempty⟩ := Attempt.bind_eq_ok.1 hreturn
        obtain rfl := hensure hempty
        exact lifts_returnTop hret
    exact (hvalue.trans hret).cast rfl rfl (by omega)
  next => cases Attempt.fail_ne_ok hreturn

/-- A body that ends without a return statement returns the last operand, or pushes the unit value if
there is none. -/
theorem lifts_returnLeft (ctx : CodeContext) {span : Span} {r : Nat} (hr : r ≤ 1)
    (hsize : w.frame.operands.size = r) (h : returnLeft span w = (.ok (), w')) :
    ∃ net types, Lifts ctx net types (1 - r) w w' := by
  obtain ⟨fr, _, hframe, hreturn⟩ := Attempt.bind_eq_ok.1 h
  cases hframe
  obtain ⟨types, htypes⟩ : ∃ types, w.frame.operands.types = types := ⟨_, rfl⟩
  have hlength : types.length = r := by
    rw [← hsize, ← htypes]
    rfl
  simp only [htypes] at hreturn
  match types, hlength with
  | [], hlength =>
    dsimp only at hreturn
    split at hreturn
    next =>
      obtain ⟨_, w₁, hunit, hret⟩ := Attempt.bind_eq_ok.1 hreturn
      refine ⟨_, _, ((lifts_emitUnit hunit).trans (lifts_returnTop hret)).cast rfl rfl ?_⟩
      simp only [List.length_nil] at hlength
      omega
    next => cases Attempt.fail_ne_ok hreturn
  | [u], hlength =>
    obtain ⟨actual, w₁, hpop, hrest⟩ := Attempt.bind_eq_ok.1 hreturn
    have hret : Lifts ctx (-1) 0 0 w₁ w' := by
      split at hrest
      next => exact lifts_returnTop hrest
      next =>
        split at hrest
        next => exact lifts_returnUnit hrest
        next => cases Attempt.fail_ne_ok hrest
    exact ⟨_, _, ((lifts_popTy hpop).trans hret).cast rfl rfl (by omega)⟩
  | _ :: _ :: _, hlength =>
    simp only [List.length_cons] at hlength
    omega

private theorem appends_pops (p : Pool) (ts : List Ty) (e : Emitter) :
    Emitter.Appends p (ts.map fun _ => .of .pop) e (ts.foldl (fun e _ => e.pop) e) := by
  induction ts generalizing e with
  | nil => exact Emitter.appends_nil rfl rfl rfl
  | cons t ts ih =>
    have hone : Emitter.Appends p [.of .pop] e e.pop := Emitter.appends_writeInstr p (.of .pop) e
    refine hone.trans (fun m hm => ?_) (.refl p) (ih e.pop)
    obtain rfl := List.mem_singleton.1 hm
    exact Instr.interned_of_constant?_eq_none rfl p

private theorem operandDepth_pops (ts : List Ty) :
    operandDepth (ts.map fun _ => .of .pop) = -(ts.length : Int) ∧
      operandPeak (ts.map fun _ => .of .pop) = 0 := by
  induction ts with
  | nil => exact ⟨rfl, rfl⟩
  | cons t ts ih =>
    obtain ⟨hdepth, hpeak⟩ := ih
    have hpop : (Emitted.of .pop).effect = -1 := rfl
    rw [List.map_cons, operandDepth_cons, operandPeak_cons, hdepth, hpeak, hpop, List.length_cons]
    omega

/-- Whatever a statement left is dropped. -/
theorem lifts_dropOperands (h : dropOperands w = (.ok (), w')) :
    Lifts ctx (-w.frame.operands.size) (-w.frame.operands.size) 0 w w' := by
  cases h
  obtain ⟨hdepth, hpeak⟩ := operandDepth_pops w.frame.operands.types
  refine ⟨_, ⟨appends_pops _ w.frame.operands.types _, fun m hm => ?_, fun m hm => ?_, .refl _, rfl, ?_⟩,
    hdepth, hpeak.le⟩
  · obtain ⟨_, _, rfl⟩ := List.mem_map.1 hm
    exact Instr.interned_of_constant?_eq_none rfl _
  · obtain ⟨_, _, rfl⟩ := List.mem_map.1 hm
    exact .plain rfl
  · exact (Int.add_right_neg _).symm

/-- A statement leaves one operand or none, and none if it returns. -/
theorem stmt_lifts {s : Stmt} (h : stmt ctx s w = (.ok (), w')) :
    ∃ (r : Nat) (lift : Int), r ≤ 1 ∧ Lifts ctx r r lift w w' ∧
      (∀ {limit : Nat}, (∀ e ∈ s.exprs, e.height ≤ limit) → lift ≤ 254 * limit + 1) ∧
      (s.isRet = true → r = 0) := by
  cases s with
  | decl ident body span => cases Attempt.fail_ne_ok h
  | expr e =>
    obtain ⟨r, hr, hlifts⟩ := expr_lifts e h
    refine ⟨r, _, hr, hlifts, fun hlimit => ?_, fun hret => nomatch hret⟩
    have hheight := hlimit e e.mem_subexprs_self
    omega
  | ret e span =>
    refine ⟨0, _, Nat.zero_le 1, lifts_returnValue h value_lifts, fun hlimit => ?_, fun _ => rfl⟩
    have hheight := hlimit e e.mem_subexprs_self
    omega

/-- Statements start from the empty stack and come back to it, so each lifts it for itself. -/
theorem stmts_lifts {limit : Nat} : ∀ (ss : List Stmt) {w w' : Workbench},
    (∀ e ∈ Stmt.exprsAll ss, e.height ≤ limit) → w.frame.operands.size = 0 →
      stmts ctx ss w = (.ok (), w') → ∃ net types, Lifts ctx net types (254 * limit + 1) w w'
  | [], w, w', _, hempty, h => by
    obtain ⟨fr, _, hframe, hreturn⟩ := Attempt.bind_eq_ok.1 h
    cases hframe
    obtain ⟨net, types, hlifts⟩ := lifts_returnLeft ctx (Nat.zero_le 1) hempty hreturn
    exact ⟨net, types, hlifts.cast rfl rfl (by omega)⟩
  | s :: rest, w, w', hss, hempty, h => by
    obtain ⟨_, w₁, hline, hrest⟩ := Attempt.bind_eq_ok.1 h
    obtain ⟨_, w₂, hstmt, hrest⟩ := Attempt.bind_eq_ok.1 hrest
    have hline : Lifts ctx 0 0 0 w w₁ := lifts_setLine hline
    have hhead : ∀ e ∈ s.exprs, e.height ≤ limit := fun e he => hss e (List.mem_append_left _ he)
    have hrests : ∀ e ∈ Stmt.exprsAll rest, e.height ≤ limit := fun e he =>
      hss e (List.mem_append_right _ he)
    obtain ⟨r, lift, hr, hlifts, hlow, -⟩ := stmt_lifts hstmt
    have hstmt : Lifts ctx r r (254 * limit + 1) w₁ w₂ := hlifts.cast rfl rfl (hlow hhead)
    have hstart := hline.trans hstmt
    have hsize := hstart.size_eq
    cases rest with
    | nil =>
      dsimp only at hrest
      split at hrest
      next =>
        cases hrest
        exact ⟨_, _, hstart.cast rfl rfl (by omega)⟩
      next =>
        obtain ⟨net, types, hleft⟩ := lifts_returnLeft ctx hr (by omega) hrest
        exact ⟨_, _, (hstart.trans hleft).cast rfl rfl (by omega)⟩
    | cons s' rest =>
      obtain ⟨_, w₃, hdrop, htail⟩ := Attempt.bind_eq_ok.1 hrest
      have hdropped := hstart.trans (lifts_dropOperands hdrop)
      have hempty' := hdropped.size_eq
      obtain ⟨net, types, htail⟩ := stmts_lifts (s' :: rest) hrests (by omega) htail
      exact ⟨_, _, (hdropped.trans htail).cast rfl rfl (by omega)⟩

end Gen

/-! ## Whole functions -/

/-- What is known of the finished code of a function with this signature: of which instructions it
consists, how far they lift the stack, and how large its frame is. -/
structure SizedFor (functions : FunctionTable) (limit : Nat) (pool : Pool) (s : Signature)
    (chunk : Chunk) : Prop where
  arity : s.arity ≤ Scope.slotLimit
  maxLocals : chunk.maxLocals = UInt16.ofNat s.arity
  code : ∃ ms, chunk.code.toList = codeBytes pool (instrs ms) ∧ AllInterned ms pool ∧
    (∀ m ∈ ms, m.Proper functions (.ofParams s.params)) ∧ operandPeak ms ≤ 254 * limit + 1 ∧
    chunk.maxStack = Emitter.stackSize (operandPeak ms)

theorem SizedFor.mono {functions : FunctionTable} {limit : Nat} {p q : Pool} {s : Signature}
    {chunk : Chunk} (h : SizedFor functions limit p s chunk) (hpq : p.GrowsTo q) :
    SizedFor functions limit q s chunk := by
  obtain ⟨ms, hcode, hinterned, hproper, hpeak, hstack⟩ := h.code
  refine ⟨h.arity, h.maxLocals, ms, ?_, hinterned.mono hpq, hproper, hpeak, hstack⟩
  rw [hcode, codeBytes_eq_of_growsTo hinterned.instrs hpq]

/-- What was written from a new emitter on is all of the code, and its peak is that of the stack. -/
theorem Emitter.Appends.of_new {p : Pool} {ms : List Emitted} {e e' : Emitter}
    (h : Emitter.Appends p ms e e') (hempty : e.chunk.code = #[]) (hdepth : e.depth = 0)
    (hpeak : e.peak = 0) :
    e'.chunk.code.toList = codeBytes p (instrs ms) ∧ e'.peak = operandPeak ms := by
  constructor
  · rw [h.code, hempty]
    rfl
  · have hreached := h.peak (by omega)
    have hnonneg := operandPeak_nonneg ms
    omega

namespace Gen

variable {ctx : CodeContext} {S : Session} {s : Signature} {site : Span} {depth limit : Nat}
  {w w' : Workbench}

/-- Declaring parameters writes records only. -/
theorem bare_declareParams {ps : List Param} (h : declareParams ctx ps w = (.ok (), w')) :
    w'.frame.emitter.bare = w.frame.emitter.bare := by
  induction ps generalizing w with
  | nil =>
    cases h
    rfl
  | cons p ps ih =>
    obtain ⟨_, w₁, hparam, hparams⟩ := Attempt.bind_eq_ok.1 h
    obtain ⟨fr, _, hframe, hrest⟩ := Attempt.bind_eq_ok.1 hparam
    cases hframe
    obtain ⟨_, w₂, hscope, hrecord⟩ := Attempt.bind_eq_ok.1 hrest
    obtain ⟨slot, hscope⟩ := Attempt.discard_eq_ok.1 hscope
    have hscoped : w₂.frame.emitter = w.frame.emitter :=
      (congrArg (·.2.frame.emitter) hscope).symm
    have hrecorded : w₁.frame.emitter.bare = w₂.frame.emitter.bare := by
      split at hrecord
      · cases hrecord
        rfl
      · cases hrecord
        rfl
    rw [ih hparams, hrecorded, hscoped]

/-- What describes a body is no part of its code. -/
theorem bare_recordRanges {start stop : Nat}
    (h : (if ctx.options.debugInfo then recordRanges start stop else pure ()) w = (.ok (), w')) :
    w'.session = w.session ∧ w'.frame.scope = w.frame.scope ∧
      w'.frame.emitter.bare = w.frame.emitter.bare := by
  split at h
  · cases h
    refine ⟨rfl, rfl, ?_⟩
    exact Emitter.bare_ranges w.frame.scope.toList (fun v => v.range start stop) w.frame.emitter
  · cases h
    exact ⟨rfl, rfl, rfl⟩

/-- The frame in which the code of a body begins: the arguments are declared, and nothing is written. -/
structure Opened (s : Signature) (fr : Frame) : Prop where
  arity : s.params.length ≤ Scope.slotLimit
  scope : fr.scope = .ofParams s.params
  operands : fr.operands.types = []
  code : fr.emitter.chunk.code = #[]
  depth : fr.emitter.depth = 0
  peak : fr.emitter.peak = 0

theorem opened_of_declareParams
    (h : declareParams ctx s.params ⟨S, .start s site depth⟩ = (.ok (), w)) : Opened s w.frame := by
  have hnew : w.frame.emitter.bare = Emitter.bare {} := bare_declareParams h
  obtain ⟨-, -, harity, emitter, -, rfl⟩ := declareParams_eq_ok h
  have hslots := harity (Nat.zero_le _)
  refine ⟨?_, rfl, rfl, ?_, ?_, ?_⟩
  · simpa [Frame.start, Scope.size, Scope.empty] using hslots
  · exact congrArg (·.chunk.code) hnew
  · exact congrArg (·.depth) hnew
  · exact congrArg (·.peak) hnew

/-- A label is no code. -/
theorem Opened.label {start : Nat} (h : Opened s w.frame) (hlabel : label w = (.ok start, w')) :
    Opened s w'.frame := by
  cases hlabel
  exact ⟨h.arity, h.scope, h.operands, h.code, h.depth, h.peak⟩

/-- Labels and records apart, a body is its code. -/
theorem framed_eq_ok {code : Gen Unit} (h : framed ctx code ⟨S, .start s site depth⟩ = (.ok (), w')) :
    ∃ w₁ w₂, Opened s w₁.frame ∧ code w₁ = (.ok (), w₂) ∧ w'.session = w₂.session ∧
      w'.frame.scope = w₂.frame.scope ∧
      w'.frame.emitter.chunk.code = w₂.frame.emitter.chunk.code ∧
      w'.frame.emitter.peak = w₂.frame.emitter.peak := by
  obtain ⟨fr, _, hframe, hrest⟩ := Attempt.bind_eq_ok.1 h
  cases hframe
  obtain ⟨_, w₁, hparams, hrest⟩ := Attempt.bind_eq_ok.1 hrest
  obtain ⟨_, w₂, hstart, hrest⟩ := Attempt.bind_eq_ok.1 hrest
  obtain ⟨_, w₃, hrun, hrest⟩ := Attempt.bind_eq_ok.1 hrest
  obtain ⟨_, w₄, hstop, hranges⟩ := Attempt.bind_eq_ok.1 hrest
  have hopened : Opened s w₂.frame := (opened_of_declareParams hparams).label hstart
  cases hstop
  obtain ⟨hsession, hscope, hlast⟩ := bare_recordRanges hranges
  refine ⟨w₂, w₃, hopened, hrun, hsession, hscope, ?_, ?_⟩
  · exact congrArg (·.chunk.code) hlast
  · exact congrArg (·.peak) hlast

/-- A body between its labels is sized for what its code needs. -/
theorem framed_sized {code : Gen Unit}
    (h : framed ctx code ⟨S, .start s site depth⟩ = (.ok (), w'))
    (hcode : ∀ {w₁ w₂}, code w₁ = (.ok (), w₂) → w₁.frame.operands.size = 0 →
      ∃ net types, Lifts ctx net types (254 * limit + 1) w₁ w₂) :
    SizedFor ctx.functions limit w'.session.pool s
      (w'.frame.emitter.finish w'.frame.scope.maxLocals) := by
  obtain ⟨w₁, w₂, hopened, hrun, hsession, hscope₂, hcode₂, hpeak₂⟩ := framed_eq_ok h
  have hoperands : w₁.frame.operands.size = 0 := congrArg List.length hopened.operands
  obtain ⟨_, _, ms, hms, rfl, hpeak⟩ := hcode hrun hoperands
  obtain ⟨hwritten, hreached⟩ := hms.emitter.of_new hopened.code hopened.depth hopened.peak
  have hscope : w'.frame.scope = .ofParams s.params :=
    hscope₂.trans (hms.scope.trans hopened.scope)
  have hproper : ∀ m ∈ ms, m.Proper ctx.functions (.ofParams s.params) := by
    rw [← hopened.scope]
    exact hms.proper
  refine ⟨hopened.arity, ?_, ms, ?_, ?_, hproper, hpeak, ?_⟩
  · show w'.frame.scope.maxLocals = _
    rw [hscope, Scope.maxLocals, Scope.size_ofParams]
    rfl
  · show w'.frame.emitter.chunk.code.toList = _
    rw [hsession, hcode₂, hwritten]
  · rw [hsession]
    exact hms.interned
  · show Emitter.stackSize w'.frame.emitter.peak = _
    rw [hpeak₂, hreached]

theorem body_sized {ss : List Stmt} (hss : ∀ e ∈ Stmt.exprsAll ss, e.height ≤ limit)
    (h : body ctx ss ⟨S, .start s site depth⟩ = (.ok (), w')) :
    SizedFor ctx.functions limit w'.session.pool s
      (w'.frame.emitter.finish w'.frame.scope.maxLocals) :=
  framed_sized h fun hrun hempty => stmts_lifts ss hss hempty hrun

theorem returnBody_sized {e : Expr} (he : e.height ≤ limit) {text : String} {span : Span}
    (h : returnBody ctx text span (value ctx e) ⟨S, .start s site depth⟩ = (.ok (), w')) :
    SizedFor ctx.functions limit w'.session.pool s
      (w'.frame.emitter.finish w'.frame.scope.maxLocals) := by
  refine framed_sized h fun {w₁ w₂} hrun _ => ?_
  obtain ⟨_, w₃, hline, hreturn⟩ := Attempt.bind_eq_ok.1 hrun
  have hline : Lifts ctx 0 0 0 w₁ w₃ := lifts_setLine hline
  have hlifts := lifts_returnValue hreturn value_lifts
  exact ⟨_, _, (hline.trans hlifts).cast rfl rfl (by omega)⟩

end Gen

theorem Gen.returnHas_sized {ctx : CodeContext} {limit : Nat} {e : Expr} (he : e.height ≤ limit)
    (span : Span) (s : Signature) : ReturnHas (SizedFor ctx.functions limit) ctx e span s :=
  fun _ _ _ _ hrun => returnBody_sized he hrun

/-! ## Sessions -/

/-- All code of a session is sized for what it needs. -/
def Session.Sized (functions : FunctionTable) (limit : Nat) (S : Session) : Prop :=
  S.registry.AllCode (SizedFor functions limit S.pool)

theorem survives_sizedFor (functions : FunctionTable) (limit : Nat) :
    CodeProperty.Survives (SizedFor functions limit) :=
  fun _ _ _ _ h hpq => h.mono hpq

/-! ## Blocks -/

namespace Block

variable (block : Block) (functions : FunctionTable) (options : Options)

/-- A compilation ends in the invariant, however much of it failed.  An anonymous function is compiled after
the walk got through its body, and a declared one after all of the walk, so no expression in them is higher
than the limit. -/
theorem sized_session :
    (block.session functions options).Sized functions options.maxDepth := by
  have hP := survives_sizedFor functions options.maxDepth
  refine allCode_session hP (fun body text span he depth w₀ w₁ hvisited => ?_) fun w hrun d hd => ?_
  · have hheight := Hoist.height_le_of_expr body hvisited
    refine Hoist.lambda_keepsCode hP (fun _ _ _ => Gen.returnHas_sized (by omega) _ _) fun lambdas e he => ?_
    have hle := Expr.height_le_of_mem_subexprs body he
    exact fun _ _ _ => Gen.returnHas_sized (by omega) _ _
  · have hheights := Hoist.height_le_of_topLevel block.stmts hrun
    have hbody : ∀ e ∈ Stmt.exprsAll d.body, e.height ≤ options.maxDepth := fun e he =>
      hheights e (mem_exprs_of_mem_decls hd e he)
    refine Session.keepsCode_compileDecl hP (fun e he => ?_) fun _ => Gen.body_sized hbody
    exact fun _ _ _ => Gen.returnHas_sized (hbody e he) _ _

variable {block functions options}

/-- The code of a finished module is sized for what it needs. -/
theorem sizedFor_of_mem {entry : Entry} {chunk : Chunk}
    (hentry : entry ∈ (compileBlock functions options block).module.functions)
    (hcode : entry.code? = some chunk) :
    SizedFor functions options.maxDepth (compileBlock functions options block).module.pool
      entry.signature chunk :=
  code_has_of_mem (block.sized_session functions options) hentry hcode

end Block

theorem Emitter.toNat_stackSize {peak : Int} (hpeak : 0 ≤ peak) (hword : peak ≤ 65535) :
    ((stackSize peak).toNat : Int) = peak := by
  unfold stackSize
  rw [if_pos (by omega), UInt16.toNat_ofNat', Nat.mod_eq_of_lt (by omega)]
  omega

/-- The size of the operand stack is exact.

The code of each function in a module consists of instructions that count with their own effects, and of
calls of known functions with fewer than 256 parameters, which take an argument for each parameter and
leave the result if there is one.  The depth of the stack, which is the sum of these effects, is never
more than 254 for each level that expressions may nest, and one.  If no depth is above what a word can
hold, the size is the greatest depth.  So it is if expressions may nest to 258 levels, and then the size
is not the largest word. -/
theorem stack_size_exact (functions : FunctionTable) (options : Options) (block : Block) :
    ∀ entry ∈ (compileBlock functions options block).module.functions, ∃ chunk ms,
      entry.code? = some chunk ∧
      chunk.code.toList =
        codeBytes (compileBlock functions options block).module.pool (instrs ms) ∧
      AllInterned ms (compileBlock functions options block).module.pool ∧
      (∀ m ∈ ms, (m = .of m.instr ∧ ∀ target argCount, m.instr ≠ .call target argCount) ∨
        ∃ s, functions.get? s.name = some s ∧ s.arity < 256 ∧ m = .call s) ∧
      (∀ n, operandDepth (ms.take n) ≤ 254 * options.maxDepth + 1) ∧
      ((∀ n, operandDepth (ms.take n) ≤ 65535) →
        IsGreatest (Set.range fun n => operandDepth (ms.take n)) chunk.maxStack.toNat) ∧
      (options.maxDepth ≤ 258 →
        IsGreatest (Set.range fun n => operandDepth (ms.take n)) chunk.maxStack.toNat ∧
        chunk.maxStack.toNat < 65535) := by
  intro entry hentry
  obtain ⟨chunk, hchunk⟩ := Block.exists_code_of_mem hentry
  obtain ⟨ms, hcode, hinterned, hproper, hpeak, hstack⟩ := (Block.sizedFor_of_mem hentry hchunk).code
  have hnonneg := operandPeak_nonneg ms
  have hgreatest := isGreatest_operandPeak ms
  have hexact (hword : operandPeak ms ≤ 65535) : (chunk.maxStack.toNat : Int) = operandPeak ms := by
    rw [hstack]
    exact Emitter.toNat_stackSize hnonneg hword
  refine ⟨chunk, ms, hchunk, hcode, hinterned, fun m hm => ?_, fun n => ?_, fun hwords => ?_,
    fun hlimit => ?_⟩
  · cases hproper m hm with
    | @plain i hi =>
      refine .inl ⟨rfl, fun target argCount hcall => ?_⟩
      rw [Emitted.instr_of] at hcall
      rw [hcall] at hi
      cases hi
    | load hv => exact .inl ⟨rfl, fun target argCount hcall => nomatch hcall⟩
    | @call s hs harity => exact .inr ⟨s, hs, harity, rfl⟩
  · exact Int.le_trans (operandDepth_take_le ms n) hpeak
  · obtain ⟨n, hn⟩ := exists_operandDepth_take ms
    rw [hexact (hn ▸ hwords n)]
    exact hgreatest
  · have hsize := hexact (by omega)
    rw [hsize]
    exact ⟨hgreatest, by omega⟩

/-- A block that declares a function, which returns `add(1,add(2,3))`. -/
def addBlock : Block :=
  ⟨[.decl ⟨"f", default⟩
    [.ret (.call ⟨"add", default⟩
      [.literal (.int 1) "1" default,
        .call ⟨"add", default⟩ [.literal (.int 2) "2" default, .literal (.int 3) "3" default]
          "add(2,3)" default] "add(1,add(2,3))" default) default] default]⟩

/-- The functions that `addBlock` refers to. -/
def addFunctions : FunctionTable :=
  .ofList [⟨"f", [], .int, "Main", false⟩, ⟨"add", [⟨"a", .int⟩, ⟨"b", .int⟩], .int, "Main", false⟩]

theorem stack_size_exact_addBlock :
    ∃ entry ∈ (compileBlock addFunctions {} addBlock).module.functions, ∃ chunk ms,
      entry.code? = some chunk ∧ chunk.maxStack = 3 ∧
      chunk.code.toList = codeBytes (compileBlock addFunctions {} addBlock).module.pool (instrs ms) ∧
      ({} : Options).maxDepth ≤ 258 ∧
      IsGreatest (Set.range fun n => operandDepth (ms.take n)) 3 := by
  have hsizes : (compileBlock addFunctions {} addBlock).module.functions.map
      (fun entry => entry.code?.map Chunk.maxStack) = [some 3] := by
    decide +kernel
  obtain ⟨entry, hentry, hsize⟩ := List.mem_map.1 (hsizes ▸ List.mem_singleton.2 rfl)
  obtain ⟨chunk, ms, hchunk, hcode, -, -, -, -, hexact⟩ :=
    stack_size_exact addFunctions {} addBlock entry hentry
  have hstack : chunk.maxStack = 3 := by
    rw [hchunk, Option.map_some] at hsize
    exact Option.some.inj hsize
  obtain ⟨hgreatest, -⟩ := hexact (by decide)
  rw [hstack] at hgreatest
  exact ⟨entry, hentry, chunk, ms, hchunk, hstack, hcode, by decide, hgreatest⟩

end BlockCompiler
