import BlockCompiler.Proofs.Emission
import BlockCompiler.Proofs.Growth

/-!
# What a frame keeps

Code is never taken back from a frame, also not from one whose expression failed halfway, and every
expression gives back the depth that it took.

* `Frame.GrowsTo` says both of two frames, and `Gen.Grows` that a step relates the frames before and
  after it so, however it ends.
* `Gen.grows_expr` is the induction on expressions.
-/

namespace BlockCompiler

/-! ## Emitters -/

namespace Emitter

/-- Whether an operation appends to the code, and at least one byte. -/
def Extends (f : Emitter → Emitter) : Prop :=
  ∀ e, ∃ byte bytes, (f e).chunk.code.toList = e.chunk.code.toList ++ byte :: bytes

theorem Extends.extends_code {f : Emitter → Emitter} (h : Extends f) (e : Emitter) :
    e.chunk.code.toList <+: (f e).chunk.code.toList := by
  obtain ⟨_, _, hcode⟩ := h e
  exact ⟨_, hcode.symm⟩

theorem Extends.offset_lt {f : Emitter → Emitter} (h : Extends f) (e : Emitter) :
    e.offset < (f e).offset := by
  obtain ⟨_, _, hcode⟩ := h e
  have hlength := congrArg List.length hcode
  simp only [Array.length_toList, List.length_append, List.length_cons] at hlength
  simp only [offset, Chunk.size, hlength]
  omega

theorem extends_write (op : OpCode) (operand : List UInt8) (effect : Int) :
    Extends (·.write op operand effect) :=
  fun e => ⟨_, _, e.chunk.code_writeBytes _ e.line⟩

theorem extends_bool (value : Bool) : Extends (·.bool value) := extends_write _ _ _

theorem extends_unit : Extends (·.unit) := extends_write _ _ _

theorem extends_dup : Extends (·.dup) := extends_write _ _ _

theorem extends_load (kind : ValueKind) (slot : UInt16) : Extends (·.load kind slot) :=
  extends_write _ _ _

theorem extends_newPair (kind : PairKind) : Extends (·.newPair kind) := extends_write _ _ _

theorem extends_initPair (kind : PairKind) : Extends (·.initPair kind) := extends_write _ _ _

theorem extends_constant (c : Constant) (p : Pool) : Extends fun e => (e.constant c p).1 := by
  intro e
  simp only [e.constant_eq p c]
  exact extends_write _ _ _ e

end Emitter

/-! ## Frames -/

/-- The code of a frame was only appended to, and it is nested as deep as before. -/
structure Frame.GrowsTo (fr fr' : Frame) : Prop where
  code : fr.emitter.chunk.code.toList <+: fr'.emitter.chunk.code.toList
  depth : fr'.depth = fr.depth

theorem Frame.GrowsTo.offset_le {fr fr' : Frame} (h : fr.GrowsTo fr') :
    fr.emitter.offset ≤ fr'.emitter.offset := by
  simpa [Emitter.offset, Chunk.size] using h.code.length_le

instance : IsPreorder Frame Frame.GrowsTo where
  refl _ := ⟨List.prefix_refl _, rfl⟩
  trans _ _ _ h h' := ⟨h.code.trans h'.code, h'.depth.trans h.depth⟩

instance : IsPreorder Workbench (InvImage Frame.GrowsTo Workbench.frame) where
  refl w := refl_of Frame.GrowsTo w.frame
  trans _ _ _ := trans_of Frame.GrowsTo

namespace Gen

/-- Whether a step only appends to the code and gives back the depth it takes, however it ends. -/
def Grows {α : Type} (x : Gen α) : Prop := Attempt.Keeps (InvImage Frame.GrowsTo Workbench.frame) x

variable {α β : Type} {ctx : CodeContext}

theorem Grows.bind {x : Gen α} {f : α → Gen β} (hx : Grows x) (hf : ∀ a, Grows (f a)) :
    Grows (x >>= f) :=
  Attempt.Keeps.bind hx hf

theorem grows_pure (a : α) : Grows (pure a) := Attempt.keeps_pure a

theorem grows_fail (e : CompileError) : Grows (.fail e : Gen α) := Attempt.keeps_fail e

theorem grows_ofExcept (r : Except CompileError α) : Grows (.ofExcept r) := Attempt.keeps_ofExcept r

theorem Grows.discard {x : Gen α} (h : Grows x) : Grows (discard x) := h.bind fun _ => grows_pure _

/-- A step that does not touch the frame. -/
theorem grows_of_eq {x : Gen α} (h : ∀ w, (x w).2.frame = w.frame) : Grows x := by
  intro w
  rw [InvImage, h]
  exact refl_of Frame.GrowsTo w.frame

theorem grows_frame : Grows frame := grows_of_eq fun _ => rfl

theorem grows_session (x : Attempt Session α) : Grows (session x) := grows_of_eq fun _ => rfl

theorem grows_pushTy (t : Ty) : Grows (pushTy t) := fun _ => ⟨List.prefix_refl _, rfl⟩

theorem grows_popTy (context : String) (span : Span) : Grows (popTy context span) := by
  intro w
  unfold popTy
  split <;> exact ⟨List.prefix_refl _, rfl⟩

theorem grows_emit {f : Emitter → Emitter} (hf : Emitter.Extends f) : Grows (emit f) :=
  fun w => ⟨hf.extends_code w.frame.emitter, rfl⟩

theorem grows_emitPooled {f : Emitter → Pool → Emitter × Pool}
    (hf : ∀ p, Emitter.Extends fun e => (f e p).1) : Grows (emitPooled f) :=
  fun w => ⟨(hf w.session.pool).extends_code w.frame.emitter, rfl⟩

theorem grows_infer (e : Expr) : Grows (infer ctx e) :=
  .bind grows_frame fun _ => .bind (grows_ofExcept _) fun _ => grows_pure _

/-- What runs one level deeper ends one level deeper. -/
theorem Grows.nested {span : Span} {x : Gen α} (hx : Grows x) : Grows (nested ctx span x) := by
  refine .bind grows_frame fun _ => .bind (grows_ofExcept _) fun _ => fun w => ?_
  have hdeeper := hx { w with frame.depth := w.frame.depth + 1 }
  refine ⟨hdeeper.code, ?_⟩
  show (x { w with frame.depth := w.frame.depth + 1 }).2.frame.depth - 1 = w.frame.depth
  rw [hdeeper.depth, Nat.add_sub_cancel]

theorem Grows.operand {e : Expr} {code : Gen Unit} (h : Grows code) : Grows (operand e code) := by
  refine .bind grows_frame fun before => .bind h fun _ => .bind grows_frame fun fr => ?_
  split
  · exact .bind (grows_emit Emitter.extends_unit) fun _ =>
      .bind (grows_pushTy _) fun _ => grows_popTy _ _
  · exact grows_popTy _ _

/-! ## Expressions -/

theorem grows_bindFunction (s : Signature) : Grows (bindFunction s) :=
  .bind (grows_emitPooled fun _ => Emitter.extends_write _ _ _) fun _ => grows_pushTy _

theorem grows_literal (value : Literal) : Grows (literal value) := by
  cases value with
  | int | real | string =>
    exact .bind (grows_emitPooled (Emitter.extends_constant _)) fun _ => grows_pushTy _
  | bool v => exact .bind (grows_emit (Emitter.extends_bool v)) fun _ => grows_pushTy _
  | unit => exact .bind (grows_emit Emitter.extends_unit) fun _ => grows_pushTy _

theorem grows_loadVar (v : LocalVar) : Grows (loadVar v) :=
  .bind (grows_emit (Emitter.extends_load _ _)) fun _ => grows_pushTy _

theorem grows_reference (ident : Ident) : Grows (reference ctx ident) := by
  refine .bind grows_frame fun fr => ?_
  split
  · exact grows_loadVar _
  · split
    · exact grows_bindFunction _
    · exact grows_fail _

theorem grows_placeholder (span : Span) : Grows (placeholder span) := by
  refine .bind grows_frame fun fr => ?_
  split
  · split
    · exact grows_loadVar _
    · exact grows_fail _
  · exact grows_fail _

theorem grows_lambda (text : String) (span : Span) : Grows (lambda ctx text span) := by
  unfold lambda
  split
  · exact grows_bindFunction _
  · exact grows_fail _

/-- A wrapper is compiled in a frame of its own. -/
theorem grows_promote (e : Expr) (params : List Ty) (result : Ty) (value : Gen Ty) :
    Grows (promote ctx e params result value) := by
  refine .bind (grows_of_eq fun _ => rfl) fun _ => ?_
  dsimp only
  split
  · exact .bind (grows_session _) fun _ => grows_bindFunction _
  · refine .bind (grows_ofExcept _) fun _ => .bind (grows_session _) fun _ => .bind grows_frame fun _ => ?_
    refine .bind (grows_session _) fun _ => .bind (grows_session _) fun _ => ?_
    exact .bind (grows_session _) fun _ => grows_bindFunction _

theorem grows_argument {e : Expr} {value : Gen Ty} (hvalue : Grows value) (callee : Signature)
    (position : Nat) (formal : Param) : Grows (argument ctx callee position formal e value) := by
  refine .bind (grows_infer _) fun actual => ?_
  dsimp only
  split
  · exact hvalue.discard
  · split
    · split
      · exact .bind (grows_promote _ _ _ _) fun _ => (grows_popTy _ _).discard
      · exact grows_fail _
    · exact grows_fail _

/-- What follows the checks of a pair. -/
theorem grows_fill {firstValue secondValue : Gen Ty} (hfirst : Grows firstValue)
    (hsecond : Grows secondValue) (ty : Ty) :
    Grows (do
      emit (·.dup)
      discard firstValue
      discard secondValue
      emit (·.initPair (.ofTy ty))
      pushTy ty) :=
  .bind (grows_emit Emitter.extends_dup) fun _ => .bind hfirst.discard fun _ =>
    .bind hsecond.discard fun _ => .bind (grows_emit (Emitter.extends_initPair _)) fun _ => grows_pushTy _

theorem grows_pair {first second : Expr} {span : Span} {firstValue secondValue : Gen Ty}
    (hfirst : Grows firstValue) (hsecond : Grows secondValue) :
    Grows (pair ctx first second span firstValue secondValue) :=
  .bind (grows_infer _) fun _ => .bind (grows_infer _) fun _ => .bind (grows_ofExcept _) fun ty =>
    .bind (grows_emit (Emitter.extends_newPair _)) fun _ => grows_fill hfirst hsecond ty

theorem grows_callee (ident : Ident) (argCount : Nat) (span : Span) :
    Grows (callee ctx ident argCount span) := by
  refine .bind (grows_ofExcept _) fun s => ?_
  split
  · exact grows_pure _
  · exact grows_fail _

theorem grows_finishCall (s : Signature) (argCount : Nat) (text : String) (span : Span) :
    Grows (finishCall s argCount text span) := by
  unfold finishCall
  split
  · refine .bind (grows_emitPooled fun _ => Emitter.extends_write _ _ _) fun _ => ?_
    split
    · exact grows_pure _
    · exact grows_pushTy _
  · exact grows_fail _

mutual

/-- An expression only appends to the code and gives back the depth it takes, however it ends. -/
theorem grows_expr (ctx : CodeContext) : ∀ e : Expr, Grows (expr ctx e)
  | .literal value _ _ => (grows_literal value).nested
  | .pair first second _ _ =>
    (grows_pair (grows_expr ctx first).operand (grows_expr ctx second).operand).nested
  | .var ident => (grows_reference ident).nested
  | .placeholder span => (grows_placeholder span).nested
  | .lambda _ text span => (grows_lambda text span).nested
  | .call ident args text span =>
    Grows.nested <| .bind (grows_callee ident _ span) fun s =>
      .bind (grows_arguments ctx args s 0 s.params) fun _ => grows_finishCall s _ text span

theorem grows_arguments (ctx : CodeContext) : ∀ (es : List Expr) (s : Signature) (position : Nat)
    (formals : List Param), Grows (arguments ctx s position formals es)
  | [], _, _, _ => grows_pure _
  | _ :: _, _, _, [] => grows_pure _
  | e :: es, s, position, formal :: formals =>
    .bind (grows_argument (grows_expr ctx e).operand s position formal) fun _ =>
      grows_arguments ctx es s (position + 1) formals

end

theorem grows_value (ctx : CodeContext) (e : Expr) : Grows (value ctx e) := (grows_expr ctx e).operand

end Gen

end BlockCompiler
