import BlockCompiler.Proofs.Additions
import BlockCompiler.Proofs.Assertions
import BlockCompiler.Proofs.FrameGrowth

/-!
# The operand stack is accounted for

The emitter counts operands and the frame keeps their types, and the two are changed by different steps: a
value that waits for others is counted while its type has been taken already.  They meet between statements.

* `Checked.Counts n m` is about a step: on top of `n` operands none of its assertions fails, and where it
  succeeds there are `m` operands.  It composes, and an expression needs nothing below itself.
* `Checked.counts_expr` is the induction on expressions.  Where a value is wanted, its code either leaves one
  or is followed by the unit value, which `Gen.value_lifts` knows.
* Statements start from the empty stack on both sides: `Checked.passes_stmts`.
* `stack_accounting_balanced` is the result.
-/

namespace BlockCompiler

/-! ## Where the counts meet -/

/-- The emitter counts as many operands as the frame has types. -/
def Workbench.Balanced (w : Workbench) : Prop := w.frame.emitter.depth = w.frame.operands.size

theorem Workbench.Balanced.stackDepth_eq {w : Workbench} (h : w.Balanced) :
    w.frame.emitter.stackDepth = w.frame.operands.size := by
  rw [Emitter.stackDepth, h, Int.toNat_natCast]

theorem Workbench.Balanced.depth_nonneg {w : Workbench} (h : w.Balanced) : 0 ≤ w.frame.emitter.depth := by
  rw [h]
  exact Int.natCast_nonneg _

/-- Code that leaves as many types as operands keeps the balance. -/
theorem Gen.Lifts.balanced {ctx : CodeContext} {d lift : Int} {w w' : Workbench}
    (h : Lifts ctx d d lift w w') (hw : w.Balanced) : w'.Balanced := by
  rw [Workbench.Balanced, h.depth_eq, h.size_eq, hw]

theorem Gen.Opened.balanced {s : Signature} {w : Workbench} (h : Opened s w.frame) : w.Balanced := by
  rw [Workbench.Balanced, h.depth, TypeStack.size, h.operands]
  rfl

namespace Checked

/-! ## Steps on top of operands -/

/-- On top of `n` operands no assertion of a step fails, and where it succeeds there are `m` operands. -/
structure Counts {α : Type} (n m : Int) (x : Checked Workbench α) (y : Gen α) : Prop where
  passes : ∀ {w}, n ≤ w.frame.emitter.depth → x.Passes y w
  leaves : ∀ {w a w'}, n ≤ w.frame.emitter.depth → y w = (.ok a, w') → m ≤ w'.frame.emitter.depth

variable {α β : Type} {ctx : CodeContext} {n m k : Int}

section Steps

variable {x : Checked Workbench α} {y : Gen α}

theorem Counts.weaken (h : Counts n m x y) (hm : k ≤ m) : Counts n k x y :=
  ⟨h.passes, fun hn hrun => Int.le_trans hm (h.leaves hn hrun)⟩

theorem Counts.bind {f : α → Checked Workbench β} {g : α → Gen β} (hx : Counts n m x y)
    (hf : ∀ {a w w'}, y w = (.ok a, w') → Counts m k (f a) (g a)) : Counts n k (x >>= f) (y >>= g) := by
  constructor
  · intro w hn
    exact (hx.passes hn).bind fun hrun => (hf hrun).passes (hx.leaves hn hrun)
  · intro w b w' hn hrun
    obtain ⟨a, w₁, hrun, hrest⟩ := Attempt.bind_eq_ok.1 hrun
    exact (hf hrun).leaves (hx.leaves hn hrun) hrest

theorem counts_pure (a : α) : Counts n n (pure a) (pure a) :=
  ⟨fun _ => rfl, fun hn hrun => by cases hrun; exact hn⟩

theorem Counts.discard (h : Counts n m x y) : Counts n m (discard x) (discard y) :=
  h.bind fun _ => counts_pure _

/-- A step that writes nothing. -/
theorem counts_lift (hy : ∀ {w a w'}, y w = (.ok a, w') →
    w'.frame.emitter.depth = w.frame.emitter.depth) : Counts n n (liftM y) y :=
  ⟨fun _ => rfl, fun hn hrun => hn.trans_eq (hy hrun).symm⟩

theorem counts_frame : Counts n n (liftM Gen.frame) Gen.frame :=
  counts_lift fun hrun => by cases hrun; rfl

theorem counts_session (x : Attempt Session α) : Counts n n (liftM (Gen.session x)) (Gen.session x) :=
  counts_lift fun hrun => by rw [← congrArg (·.2.frame) hrun]; rfl

theorem counts_ofExcept (r : Except CompileError α) :
    Counts n n (liftM (.ofExcept r : Gen α)) (.ofExcept r) :=
  counts_lift fun hrun => by rw [(Attempt.ofExcept_eq_ok.1 hrun).2]

/-- Nothing follows a failure. -/
theorem counts_fail (e : CompileError) : Counts n m (liftM (.fail e : Gen α)) (.fail e) :=
  ⟨fun _ => rfl, fun _ hrun => (Attempt.fail_ne_ok hrun).elim⟩

theorem counts_infer (e : Expr) : Counts n n (liftM (Gen.infer ctx e)) (Gen.infer ctx e) :=
  counts_lift fun hrun => by rw [(Gen.infer_eq_ok hrun).1]

theorem counts_pushTy (t : Ty) : Counts n n (liftM (Gen.pushTy t)) (Gen.pushTy t) :=
  counts_lift fun hrun => by cases hrun; rfl

theorem counts_popTy (context : String) (span : Span) :
    Counts n n (liftM (Gen.popTy context span)) (Gen.popTy context span) := by
  refine counts_lift fun hrun => ?_
  unfold Gen.popTy at hrun
  split at hrun <;> cases hrun
  rfl

end Steps

/-- A step of the session. -/
theorem counts_sessionStep {x : Checked Session α} {y : Attempt Session α} (h : ∀ S, x.Passes y S) :
    Counts n n (session x) (Gen.session y) := by
  constructor
  · intro w _
    rw [Passes, session, h w.session]
    rfl
  · intro w _ w' hw hrun
    rw [← congrArg (·.2.frame) hrun]
    exact hw

/-! ### Instructions -/

/-- A step that writes an instruction, whose effect leaves no fewer than zero operands. -/
theorem counts_standing {y : Gen Unit} {d : Int} (hy : ∀ {w w'}, y w = (.ok (), w') →
    w'.frame.emitter.depth = w.frame.emitter.depth + d) (hn : 0 ≤ n + d) :
    Counts n (n + d) (liftM y >>= fun _ => standing) y := by
  constructor
  · intro w hw
    refine (passes_lift y w).bind_require fun hrun => decide_eq_true ?_
    rw [hy hrun]
    omega
  · intro w _ w' hw hrun
    rw [hy hrun]
    omega

theorem counts_emit {f : Emitter → Emitter} {i : Instr} {d : Int}
    (hf : ∀ (e : Emitter) (p : Pool), f e = e.writeInstr p (.of i)) (hd : i.effect = d)
    (hn : 0 ≤ n + d) : Counts n (n + d) (emit f) (Gen.emit f) := by
  refine counts_standing (fun {w w'} hrun => ?_) hn
  cases hrun
  show (f w.frame.emitter).depth = _
  rw [hf w.frame.emitter w.session.pool, ← hd]
  rfl

theorem counts_emitPooled {f : Emitter → Pool → Emitter × Pool} {m : Emitted} {c : Constant} {d : Int}
    (hf : ∀ (e : Emitter) (p : Pool), f e p = (e.writeInstr (p.add c).1 m, (p.add c).1))
    (hd : m.effect = d) (hn : 0 ≤ n + d) : Counts n (n + d) (emitPooled f) (Gen.emitPooled f) := by
  refine counts_standing (fun {w w'} hrun => ?_) hn
  cases hrun
  show (f w.frame.emitter w.session.pool).1.depth = _
  rw [hf, ← hd]
  rfl

theorem counts_unit (hn : 0 ≤ n) : Counts n (n + 1) (emit (·.unit)) (Gen.emit (·.unit)) :=
  counts_emit (fun e p => e.unit_eq p) rfl (by omega)

/-! ## Leaves -/

theorem counts_bindFunction (hn : 0 ≤ n) (s : Signature) :
    Counts n (n + 1) (bindFunction s) (Gen.bindFunction s) :=
  .bind (counts_emitPooled (d := 1) (fun e p => e.bind_eq p _) rfl (by omega)) fun _ => counts_pushTy _

theorem counts_literal (hn : 0 ≤ n) (value : Literal) :
    Counts n (n + 1) (literal value) (Gen.literal value) := by
  cases value with
  | int v | real v | string v =>
    exact .bind (counts_emitPooled (d := 1) (fun e p => e.constant_eq p _) rfl (by omega)) fun _ =>
      counts_pushTy _
  | bool v =>
    exact .bind (counts_emit (d := 1) (fun e p => e.bool_eq p v) rfl (by omega)) fun _ => counts_pushTy _
  | unit => exact .bind (counts_unit hn) fun _ => counts_pushTy _

theorem counts_loadVar (hn : 0 ≤ n) (v : LocalVar) : Counts n (n + 1) (loadVar v) (Gen.loadVar v) :=
  .bind (counts_emit (d := 1) (fun e p => e.load_eq p _ _) rfl (by omega)) fun _ => counts_pushTy _

theorem counts_reference (hn : 0 ≤ n) (ident : Ident) :
    Counts n (n + 1) (reference ctx ident) (Gen.reference ctx ident) := by
  refine .bind counts_frame fun {fr _ _} _ => ?_
  cases fr.scope.get? ident.name with
  | some v => exact counts_loadVar hn v
  | none =>
    cases ctx.functions.get? ident.name with
    | some s => exact counts_bindFunction hn s
    | none => exact counts_fail _

theorem counts_placeholder (hn : 0 ≤ n) (span : Span) :
    Counts n (n + 1) (placeholder span) (Gen.placeholder span) := by
  refine .bind counts_frame fun {fr _ _} _ => ?_
  cases fr.scope.get? Expr.placeholderText with
  | some v =>
    dsimp only
    split
    · exact counts_loadVar hn v
    · exact counts_fail _
  | none => exact counts_fail _

theorem counts_lambda (hn : 0 ≤ n) (text : String) (span : Span) :
    Counts n (n + 1) (lambda ctx text span) (Gen.lambda ctx text span) := by
  unfold lambda Gen.lambda
  cases ctx.lambdas.get? text with
  | some s => exact counts_bindFunction hn s
  | none => exact counts_fail _

/-! ## Steps around code -/

section Steps

variable {x : Checked Workbench Unit} {y : Gen Unit}

/-- The level of an expression is no matter of the stack. -/
theorem Counts.nested (h : Counts n m x y) (span : Span) :
    Counts n m (nested ctx span x) (Gen.nested ctx span y) := by
  refine .bind counts_frame fun _ => .bind (counts_ofExcept _) fun _ => ?_
  refine .bind (counts_lift fun hrun => by cases hrun; rfl) fun _ => ⟨fun hn => ?_, fun hn hrun => ?_⟩
  · exact (h.passes hn).ending _
  · obtain ⟨w₁, hrun, heq⟩ := Attempt.ending_eq_ok.1 hrun
    have hdepth := h.leaves hn hrun
    rwa [heq]

/-- Code that leaves no fewer operands than it finds may be followed by the unit value. -/
theorem passes_operand (hn : 0 ≤ n) (h : Counts n n x y) {e : Expr} {w : Workbench}
    (hw : n ≤ w.frame.emitter.depth) : (operand e x).Passes (Gen.operand e y) w := by
  have hcounts : Counts n n (operand e x) (Gen.operand e y) := by
    refine .bind counts_frame fun _ => .bind h fun _ => .bind counts_frame fun _ => ?_
    split
    · exact .bind ((counts_unit hn).weaken (by omega)) fun _ =>
        .bind (counts_pushTy _) fun _ => counts_popTy _ _
    · exact counts_popTy _ _
  exact hcounts.passes hw

end Steps

/-! ## Functions -/

/-- A body that passes in a frame of its own passes in the session. -/
theorem Passes.compileWith {x : Checked Workbench Unit} {y : Gen Unit} {s : Signature} {site : Span}
    {depth : Nat} (h : ∀ S, x.Passes y ⟨S, .start s site depth⟩) (flags : EntryFlags) (S : Session) :
    (compileWith s flags site depth x).Passes (Session.compileWith s flags site depth y) S := by
  refine (passes_lift _ S).bind fun {_ S} _ => .bind ?_ fun {outcome _} _ => ?_
  · show (x _).map _ = _
    rw [h S]
    rfl
  · obtain ⟨_ | _, fr⟩ := outcome <;> rfl

/-- A body passes if its code does where the arguments are declared and nothing is written. -/
theorem Passes.framed {x : Checked Workbench Unit} {y : Gen Unit} {s : Signature}
    (h : ∀ {w : Workbench}, Gen.Opened s w.frame → x.Passes y w) (S : Session) (site : Span) (depth : Nat) :
    (framed ctx x).Passes (Gen.framed ctx y) ⟨S, .start s site depth⟩ := by
  refine (passes_lift _ _).bind fun hframe => ?_
  cases hframe
  refine (passes_lift _ _).bind fun hparams => (passes_lift _ _).bind fun hstart => ?_
  have hopened := (Gen.opened_of_declareParams hparams).label hstart
  exact (h hopened).bind fun _ => (passes_lift _ _).bind fun _ => passes_lift _ _

/-! ## Returns -/

theorem counts_ensureNoOperands (context : String) (span : Span) :
    Counts n n (liftM (Gen.ensureNoOperands context span)) (Gen.ensureNoOperands context span) :=
  counts_lift fun hrun => by rw [← congrArg (·.2.frame) hrun]; rfl

theorem counts_returnTop (t : Ty) : Counts 1 0 (returnTop t) (Gen.returnTop t) :=
  counts_emit (d := -1) (fun e p => e.ret_eq p _) rfl (by decide)

theorem counts_returnUnit : Counts 1 0 returnUnit Gen.returnUnit :=
  .bind (counts_emit (d := -1) (fun e p => e.pop_eq p) rfl (by decide)) fun _ =>
    .bind (counts_unit (by decide)) fun _ => counts_returnTop _

theorem counts_returnValue {x : Checked Workbench Ty} {y : Gen Ty} (h : Counts 0 1 x y)
    (text : String) (span : Span) : Counts 0 0 (returnValue text span x) (Gen.returnValue text span y) := by
  refine .bind h fun {actual _ _} _ => .bind counts_frame fun {fr _ _} _ => ?_
  dsimp only
  split
  · split
    · exact .bind counts_returnUnit fun _ => counts_ensureNoOperands _ _
    · exact .bind (counts_returnTop _) fun _ => counts_ensureNoOperands _ _
  · exact counts_fail _

/-- A function that returns an operand ends with as many operands as types. -/
theorem passes_compileReturn {e : Expr} (h : Counts 0 1 (value ctx e) (Gen.value ctx e)) (s : Signature)
    (flags : EntryFlags) (site : Span) (depth : Nat) (text : String) (span : Span) (S : Session) :
    (compileWith s flags site depth (returnBody ctx text span (value ctx e))).Passes
      (Session.compileWith s flags site depth (Gen.returnBody ctx text span (Gen.value ctx e))) S := by
  refine Passes.compileWith (fun S => Passes.framed (fun {w} hopened => ?_) S site depth) flags S
  refine (passes_lift _ w).bind fun {_ w₁} hline => ?_
  have hline : Gen.Lifts ctx 0 0 0 w w₁ := Gen.lifts_setLine hline
  have hbalanced := hline.balanced hopened.balanced
  have hreturn := (counts_returnValue h text span).passes hbalanced.depth_nonneg
  refine hreturn.bind_require fun hrun => decide_eq_true ?_
  exact ((Gen.lifts_returnValue hrun Gen.value_lifts).balanced hbalanced).stackDepth_eq

/-! ## Calls and pairs -/

/-- A wrapper is compiled in a frame of its own. -/
theorem counts_promote (hn : 0 ≤ n) {e : Expr} (h : Counts 0 1 (value ctx e) (Gen.value ctx e))
    (params : List Ty) (result : Ty) : Counts n (n + 1) (promote ctx e params result (value ctx e))
      (Gen.promote ctx e params result (Gen.value ctx e)) := by
  refine .bind (counts_lift fun hrun => by cases hrun; rfl) fun {w _ _} _ => ?_
  dsimp only
  cases w.session.wrapper? (Gen.wrapperKey (.fn params result) e.text) with
  | some s => exact .bind (counts_session _) fun _ => counts_bindFunction hn s
  | none =>
    refine .bind (counts_ofExcept _) fun _ => .bind (counts_session _) fun _ => .bind counts_frame fun _ => ?_
    refine .bind (counts_sessionStep fun S => passes_compileReturn h _ _ _ _ _ _ S) fun _ => ?_
    exact .bind (counts_session _) fun _ => .bind (counts_session _) fun _ => counts_bindFunction hn _

theorem counts_argument (hn : 0 ≤ n) {e : Expr}
    (h : ∀ {n : Int}, 0 ≤ n → Counts n (n + 1) (value ctx e) (Gen.value ctx e)) (s : Signature)
    (position : Nat) (formal : Param) :
    Counts n (n + 1) (argument ctx s position formal e (value ctx e))
      (Gen.argument ctx s position formal e (Gen.value ctx e)) := by
  refine .bind (counts_infer _) fun {actual _ _} _ => ?_
  dsimp only
  split
  · exact (h hn).discard
  · cases formal.ty with
    | fn params result =>
      dsimp only
      split
      · exact .bind (counts_promote hn (h le_rfl) params result) fun _ => (counts_popTy _ _).discard
      · exact counts_fail _
    | _ => exact counts_fail _

theorem counts_pair (hn : 0 ≤ n) {first second : Expr}
    (hfirst : ∀ {n : Int}, 0 ≤ n → Counts n (n + 1) (value ctx first) (Gen.value ctx first))
    (hsecond : ∀ {n : Int}, 0 ≤ n → Counts n (n + 1) (value ctx second) (Gen.value ctx second))
    (span : Span) :
    Counts n (n + 1) (pair ctx first second span (value ctx first) (value ctx second))
      (Gen.pair ctx first second span (Gen.value ctx first) (Gen.value ctx second)) := by
  refine .bind (counts_infer _) fun _ => .bind (counts_infer _) fun _ => ?_
  refine .bind (counts_ofExcept _) fun {ty _ _} _ => ?_
  refine .bind (counts_emit (d := 1) (fun e p => e.newPair_eq p _) rfl (by omega)) fun _ => ?_
  refine .bind (counts_emit (d := 1) (fun e p => e.dup_eq p) rfl (by omega)) fun _ => ?_
  refine .bind (hfirst (by omega)).discard fun _ => .bind (hsecond (by omega)).discard fun _ => ?_
  have hinit : Counts (n + 1 + 1 + 1 + 1) (n + 1 + 1 + 1 + 1 + -3) (emit (·.initPair (.ofTy ty)))
      (Gen.emit (·.initPair (.ofTy ty))) :=
    counts_emit (fun e p => e.initPair_eq p _) rfl (by omega)
  exact .bind (hinit.weaken (by omega)) fun _ => counts_pushTy _

/-- A call takes its arguments. -/
theorem counts_finishCall (hn : 0 ≤ n) (s : Signature) (text : String) (span : Span) :
    Counts (n + s.arity) n (finishCall s s.arity text span) (Gen.finishCall s s.arity text span) := by
  unfold finishCall Gen.finishCall
  split
  next harity =>
    have hcount : (UInt8.ofNat s.arity).toNat = s.arity := by
      rw [UInt8.toNat_ofNat', Nat.mod_eq_of_lt harity]
    have hlow : -(s.arity : Int) ≤ (Emitted.call s).effect := by
      simp only [Emitted.call, hcount]
      split <;> omega
    have hcall := counts_emitPooled (fun e p => e.call_eq p s) rfl (n := n + s.arity) (by omega)
    refine .bind (hcall.weaken (by omega)) fun _ => counts_lift fun hrun => ?_
    split at hrun <;> cases hrun <;> rfl
  next => exact counts_fail _

/-! ## Expressions -/

mutual

/-- No assertion fails in the code of an expression. -/
theorem counts_expr : ∀ (e : Expr) {n : Int}, 0 ≤ n → Counts n n (expr ctx e) (Gen.expr ctx e)
  | .literal value _ _, _, hn => ((counts_literal hn value).nested _).weaken (by omega)
  | .pair first second _ span, _, hn =>
    ((counts_pair hn (counts_value first) (counts_value second) span).nested _).weaken (by omega)
  | .var ident, _, hn => ((counts_reference hn ident).nested _).weaken (by omega)
  | .placeholder span, _, hn => ((counts_placeholder hn span).nested _).weaken (by omega)
  | .lambda _ text span, _, hn => ((counts_lambda hn text span).nested _).weaken (by omega)
  | .call ident args text span, _, hn =>
    Counts.nested (.bind (counts_lift fun hrun => by rw [(Gen.callee_eq_ok hrun).1]) fun {s _ _} hcallee => by
      obtain ⟨-, -, harity⟩ := Gen.callee_eq_ok hcallee
      refine .bind (counts_arguments args hn harity 0) fun _ => ?_
      rw [harity]
      exact counts_finishCall hn s text span) span

/-- A value is one more operand. -/
theorem counts_value (e : Expr) {n : Int} (hn : 0 ≤ n) :
    Counts n (n + 1) (value ctx e) (Gen.value ctx e) := by
  refine ⟨fun hw => passes_operand hn (counts_expr e hn) hw, fun hw hrun => ?_⟩
  have hlifts := Gen.value_lifts hrun
  rw [hlifts.depth_eq]
  omega

theorem counts_arguments : ∀ (es : List Expr) {n : Int}, 0 ≤ n → ∀ {s : Signature} {ps : List Param},
    es.length = ps.length → ∀ position : Nat,
      Counts n (n + es.length) (arguments ctx s position ps es) (Gen.arguments ctx s position ps es)
  | [], _, _, _, _, _, _ => (counts_pure ()).weaken (by simp)
  | _ :: _, _, _, _, [], hlength, _ => by simp at hlength
  | e :: es, n, hn, s, p :: ps, hlength, position => by
    have hrest := counts_arguments es (n := n + 1) (s := s) (by omega) (by simpa using hlength) (position + 1)
    refine (Counts.bind (counts_argument hn (counts_value e) s position p) fun _ => hrest).weaken ?_
    rw [List.length_cons]
    omega

end

/-! ## Statements -/

variable {w : Workbench}

/-- A body that ends without a return statement returns an operand that is there. -/
theorem passes_returnLeft (hw : w.Balanced) (span : Span) :
    (returnLeft span).Passes (Gen.returnLeft span) w := by
  refine (passes_lift _ w).bind fun hframe => ?_
  cases hframe
  obtain ⟨types, htypes⟩ : ∃ types, w.frame.operands.types = types := ⟨_, rfl⟩
  have hdepth : w.frame.emitter.depth = types.length := htypes ▸ hw
  simp only [htypes]
  rcases types with _ | ⟨u, _ | ⟨u', types⟩⟩
  · dsimp only
    split
    · have hreturn : Counts 0 0 (emit (·.unit) >>= fun _ => returnTop .unit)
          (Gen.emit (·.unit) >>= fun _ => Gen.returnTop .unit) :=
        .bind (counts_unit le_rfl) fun _ => counts_returnTop _
      exact hreturn.passes hdepth.ge
    · rfl
  · refine Counts.passes (n := 1) (m := 0) (.bind (counts_popTy _ _) fun _ => ?_) hdepth.ge
    split
    · exact counts_returnTop _
    · split
      · exact counts_returnUnit
      · exact counts_fail _
  · rfl

/-- Operands that are there can be dropped. -/
theorem passes_drop (ts : List Ty) {w : Workbench} (htypes : w.frame.operands.types = ts)
    (hdepth : (ts.length : Int) ≤ w.frame.emitter.depth) :
    (drop ts).Passes Gen.dropOperands w := by
  induction ts generalizing w with
  | nil =>
    obtain ⟨_, _, _, _, _, ⟨_⟩, _⟩ := w
    cases htypes
    rfl
  | cons t ts ih =>
    have hsteps : Gen.dropOperands w = (do
        Gen.modifyFrame fun fr => { fr with operands := ⟨ts⟩ }
        Gen.emit (·.pop)
        Gen.dropOperands : Gen Unit) w := by
      show (_, _) = (_, _)
      simp [htypes]
    rw [Passes, hsteps]
    rw [List.length_cons] at hdepth
    have hpop : Counts (ts.length + 1) ts.length (emit (·.pop)) (Gen.emit (·.pop)) :=
      (counts_emit (d := -1) (fun e p => e.pop_eq p) rfl (by omega)).weaken (by omega)
    refine (passes_lift _ w).bind fun {_ w₁} hrun => ?_
    have hdepth₁ : (ts.length + 1 : Int) ≤ w₁.frame.emitter.depth := by
      cases hrun
      exact hdepth
    have htypes₁ : w₁.frame.operands.types = ts := by
      cases hrun
      rfl
    refine (hpop.passes hdepth₁).bind fun hrun => ih ?_ (hpop.leaves hdepth₁ hrun)
    cases hrun
    exact htypes₁

theorem counts_stmt (s : Stmt) : Counts 0 0 (stmt ctx s) (Gen.stmt ctx s) := by
  cases s with
  | expr e => exact counts_expr e le_rfl
  | ret e span => exact counts_returnValue (counts_value e le_rfl) _ _
  | decl => exact counts_fail _

/-- No assertion fails in a body, whose statements start and end in balance. -/
theorem passes_stmts : ∀ (ss : List Stmt) {w : Workbench}, w.Balanced →
    (stmts ctx ss).Passes (Gen.stmts ctx ss) w
  | [], w, hw => (passes_lift _ w).bind fun hframe => by
    cases hframe
    exact passes_returnLeft hw _
  | s :: rest, w, hw => by
    refine (passes_lift _ w).bind fun {_ w₁} hline => ?_
    have hline : Gen.Lifts ctx 0 0 0 w w₁ := Gen.lifts_setLine hline
    have hw₁ := hline.balanced hw
    refine ((counts_stmt s).passes hw₁.depth_nonneg).bind fun {_ w₂} hstmt => ?_
    obtain ⟨r, lift, -, hlifts, -, -⟩ := Gen.stmt_lifts hstmt
    have hw₂ := hlifts.balanced hw₁
    cases rest with
    | nil =>
      refine .require_bind (decide_eq_true hw₂.stackDepth_eq) ?_
      split
      · rfl
      · exact passes_returnLeft hw₂ _
    | cons s' rest =>
      have hdrop : dropOperands.Passes Gen.dropOperands w₂ := passes_drop _ rfl hw₂.ge
      refine hdrop.bind fun {_ w₃} hrun => ?_
      have hdropped : Gen.Lifts ctx _ _ 0 w₂ w₃ := Gen.lifts_dropOperands hrun
      have hw₃ := hdropped.balanced hw₂
      exact .require_bind (decide_eq_true hw₃.stackDepth_eq) (passes_stmts (s' :: rest) hw₃)

/-! ## Blocks -/

theorem passes_compileDecl (d : Decl) (S : Session) :
    (compileDecl ctx d).Passes (Session.compileDecl ctx d) S := by
  refine (passes_lift _ S).bind fun {s S} _ => Passes.compileWith (fun S => ?_) .user S
  exact Passes.framed (fun hopened => passes_stmts d.body hopened.balanced) S d.span 0

theorem compileDecls_eq (ds : List Decl) (S : Session) :
    compileDecls ctx S ds = some (Session.compileDecls ctx S ds) := by
  induction ds generalizing S with
  | nil => rfl
  | cons d ds ih =>
    have hdecl : compileDecl ctx d S = some (Session.compileDecl ctx d S) := passes_compileDecl d S
    rw [compileDecls, Session.compileDecls, hdecl]
    rcases Session.compileDecl ctx d S with ⟨err | _, S⟩
    · simp only [ih]
      rfl
    · exact ih S

section Blocks

variable {functions : FunctionTable} {options : Options}

theorem passes_compileLambda (body : Expr) (text : String) (span : Span) (w : Walk) :
    (compileLambda functions options body text span).Passes
      (Hoist.compileLambda functions options body text span) w := by
  refine (passes_lift _ w).bind fun {id w} _ => (passes_lift _ w).bind fun {w' w} _ => ?_
  refine (passes_lift _ w).bind fun {typing w} _ => .bind ?_ fun _ => passes_lift _ _
  rw [Passes, walkSession, passes_compileReturn (counts_value body le_rfl) _ _ _ _ _ _ w.session]
  rfl

theorem passes_take (t : WalkStep) (w : Walk) :
    (take functions options t).Passes (Hoist.take functions options t) w := by
  cases t with
  | enter => rfl
  | meet l =>
    refine (passes_lift _ w).bind fun {w w'} _ => ?_
    cases w.table.get? l.text with
    | some s => rfl
    | none =>
      cases if l.body.isPlaceholder then w.identity? else none with
      | some s => exact (passes_lift _ w').bind fun _ => passes_lift _ _
      | none => exact passes_compileLambda l.body l.text l.span w'

theorem passes_takeAll (ts : List WalkStep) (w : Walk) :
    (takeAll functions options ts).Passes (ts.forM (Hoist.take functions options)) w := by
  induction ts generalizing w with
  | nil => rfl
  | cons t ts ih => exact (passes_take t w).bind fun _ => ih _

theorem passes_hoist (block : Block) (S : Session) :
    (hoist functions options block).Passes (Session.hoist functions options block) S := by
  refine .bind ?_ fun {_ S} _ => (passes_lift _ S).bind fun _ => rfl
  have hwalk : takeAll functions options block.steps { session := S } =
      some (Hoist.topLevel functions options block.stmts { session := S }) := by
    rw [Hoist.topLevel_eq]
    exact passes_takeAll block.steps _
  unfold Passes
  simp only [hwalk]
  rcases Hoist.topLevel functions options block.stmts { session := S } with ⟨_ | _, w⟩ <;> rfl

/-- No assertion fails in the compilation of a block. -/
theorem compileBlock_eq (block : Block) :
    compileBlock functions options block = some (BlockCompiler.compileBlock functions options block) := by
  have hhoist : hoist functions options block .start = some (Session.hoist functions options block .start) :=
    passes_hoist block .start
  rw [compileBlock, BlockCompiler.compileBlock, hhoist]
  rcases Session.hoist functions options block .start with ⟨_ | lambdas, S⟩
  · rfl
  · simp only [compileDecls_eq]
    rfl

end Blocks

end Checked

/-! ## The result -/

namespace Gen

variable {ctx : CodeContext} {w w' : Workbench} {e : Expr}

/-- An expression leaves as many types as operands: one, or none if it calls a function without a value. -/
theorem expr_accounted (h : expr ctx e w = (.ok (), w')) :
    ∃ ts : List Ty, w'.frame.operands.types = ts ++ w.frame.operands.types ∧
      w'.frame.emitter.depth = w.frame.emitter.depth + ts.length ∧ ts.length ≤ 1 ∧
      (ts = [] ↔ e.CallsUnit ctx.functions) := by
  obtain ⟨ms, ts, hadded, hadds⟩ := expr_added e h
  obtain ⟨r, -, hlifts⟩ := expr_lifts e h
  have hsize := hlifts.size_eq
  rw [TypeStack.size, hadded.types, List.length_append, TypeStack.size] at hsize
  refine ⟨ts, hadded.types, ?_, hadds.single, hadds.none_iff⟩
  rw [hlifts.depth_eq]
  omega

/-- A value is one operand, whose type was taken. -/
theorem value_accounted {t : Ty} (h : value ctx e w = (.ok t, w')) :
    w'.frame.emitter.depth = w.frame.emitter.depth + 1 ∧ w'.frame.operands = w.frame.operands := by
  obtain ⟨ms, hadded, -⟩ := value_added h
  exact ⟨(value_lifts h).depth_eq, by rw [hadded.frame]; rfl⟩

end Gen

/-- The operand stack is accounted for.

In any state of a function, an expression that compiles leaves as many operands as types of them, one
unless it calls a function whose result is the unit type, on top of the types that were there.  Where a
value is wanted there is one operand more, and the types are as before.  In either case, also if it fails,
the level is the one before.  And a compilation with assertions ends as one without: no instruction takes
the count of operands below zero, and after each statement the count is the number of types. -/
theorem stack_accounting_balanced (functions : FunctionTable) (options : Options) :
    (∀ (lambdas : LambdaTable) (e : Expr) (w : Workbench),
      (∀ w', Gen.expr ⟨functions, options, lambdas⟩ e w = (.ok (), w') →
        ∃ ts : List Ty, w'.frame.operands.types = ts ++ w.frame.operands.types ∧
          w'.frame.emitter.depth = w.frame.emitter.depth + ts.length ∧ ts.length ≤ 1 ∧
          (ts = [] ↔ e.CallsUnit functions)) ∧
      (∀ t w', Gen.value ⟨functions, options, lambdas⟩ e w = (.ok t, w') →
        w'.frame.emitter.depth = w.frame.emitter.depth + 1 ∧ w'.frame.operands = w.frame.operands) ∧
      (Gen.expr ⟨functions, options, lambdas⟩ e w).2.frame.depth = w.frame.depth ∧
      (Gen.value ⟨functions, options, lambdas⟩ e w).2.frame.depth = w.frame.depth) ∧
    ∀ block : Block,
      Checked.compileBlock functions options block = some (compileBlock functions options block) := by
  refine ⟨fun lambdas e w => ⟨fun w' h => Gen.expr_accounted h, fun t w' h => Gen.value_accounted h, ?_, ?_⟩,
    fun block => Checked.compileBlock_eq block⟩
  · exact (Gen.grows_expr ⟨functions, options, lambdas⟩ e w).depth
  · exact (Gen.grows_value ⟨functions, options, lambdas⟩ e w).depth

/-- A call without a value, `log("a")`. -/
def logCall : Expr := .call ⟨"log", default⟩ [.literal (.string "a") "\"a\"" default] "log(\"a\")" default

/-- The functions that may be called. -/
def logFunctions : FunctionTable :=
  .ofList [⟨"main", [], .unit, "Main", false⟩, ⟨"log", [⟨"text", .string⟩], .unit, "Main", false⟩]

/-- A block whose function leaves a pair between two calls without a value. -/
def logBlock : Block :=
  ⟨[.decl ⟨"main", default⟩
    [.expr logCall,
      .expr (.pair (.literal (.int 1) "1" default) (.literal (.int 2) "2" default) "(1,2)" default),
      .expr logCall] default]⟩

/-- By itself the call leaves nothing, and where a value is wanted it is followed by the unit value. -/
theorem stack_accounting_balanced_logCall :
    let bench : Workbench := ⟨.start, .start ⟨"main", [], .unit, "Main", false⟩ default 0⟩
    let statement := Gen.expr ⟨logFunctions, {}, .empty⟩ logCall bench
    let operand := Gen.value ⟨logFunctions, {}, .empty⟩ logCall bench
    statement.1 = .ok () ∧ statement.2.frame.emitter.depth = 0 ∧
      operand.1 = .ok .unit ∧ operand.2.frame.emitter.depth = 1 ∧
      operand.2.frame.operands = bench.frame.operands ∧
      (compileBlock logFunctions {} logBlock).errors = [] ∧
      Checked.compileBlock logFunctions {} logBlock = some (compileBlock logFunctions {} logBlock) := by
  intro bench statement operand
  have hstatement : statement.1 = .ok () := by decide +kernel
  have hoperand : operand.1 = .ok .unit := by decide +kernel
  have hunit : logCall.CallsUnit logFunctions := ⟨_, _, _, _, _, rfl, rfl, rfl⟩
  obtain ⟨hfunction, hblock⟩ := stack_accounting_balanced logFunctions {}
  obtain ⟨hexpr, hvalue, -, -⟩ := hfunction .empty logCall bench
  obtain ⟨ts, -, hdepth, -, hnone⟩ := hexpr statement.2 (Prod.ext hstatement rfl)
  obtain ⟨hdepth', htypes⟩ := hvalue _ operand.2 (Prod.ext hoperand rfl)
  refine ⟨hstatement, ?_, hoperand, hdepth', htypes, by decide +kernel, hblock logBlock⟩
  rw [hdepth, hnone.2 hunit]
  rfl

end BlockCompiler
