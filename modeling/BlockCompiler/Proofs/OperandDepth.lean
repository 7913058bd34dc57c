import Mathlib.Algebra.Ring.Int.Defs
import Mathlib.Data.Set.Image
import Mathlib.Order.Bounds.Defs
import BlockCompiler.Proofs.Emission
import BlockCompiler.Proofs.Growth

/-!
# How deep the operand stack gets

The emitter counts the operand stack while it writes.  What it counts is the running sum of the effects
of the instructions written, and the greatest value of that sum.

* `operandDepth` is the sum for a list of instructions and `operandPeak` the greatest sum on the way;
  `isGreatest_operandPeak` says that it is.
* `Emitter.Appends` says what an emitter has after instructions were written, their bytes and both counts.
* `Gen.Lifts` bounds what a step of a function does: by how much the stack is deeper in the end, and by
  how much at most on the way.  It composes, and each kind of step has a lemma.
-/

namespace BlockCompiler

/-! ## Depths of lists -/

/-- The depth of the operand stack after some instructions, from the empty stack on. -/
def operandDepth (ms : List Emitted) : Int := (ms.map Emitted.effect).sum

/-- The greatest depth before, between and after some instructions. -/
def operandPeak : List Emitted → Int
  | [] => 0
  | m :: ms => max 0 (m.effect + operandPeak ms)

@[simp] theorem operandDepth_nil : operandDepth [] = 0 := rfl

@[simp] theorem operandDepth_cons (m : Emitted) (ms : List Emitted) :
    operandDepth (m :: ms) = m.effect + operandDepth ms := by
  simp [operandDepth]

@[simp] theorem operandDepth_append (ms ns : List Emitted) :
    operandDepth (ms ++ ns) = operandDepth ms + operandDepth ns := by
  simp [operandDepth]

@[simp] theorem operandPeak_nil : operandPeak [] = 0 := rfl

theorem operandPeak_cons (m : Emitted) (ms : List Emitted) :
    operandPeak (m :: ms) = max 0 (m.effect + operandPeak ms) := rfl

theorem operandPeak_nonneg (ms : List Emitted) : 0 ≤ operandPeak ms := by
  cases ms with
  | nil => exact Int.le_refl 0
  | cons m ms => exact Int.le_max_left 0 _

/-- No depth on the way is above the peak. -/
theorem operandDepth_take_le (ms : List Emitted) (n : Nat) :
    operandDepth (ms.take n) ≤ operandPeak ms := by
  induction ms generalizing n with
  | nil => simp
  | cons m ms ih =>
    cases n with
    | zero => exact operandPeak_nonneg _
    | succ n =>
      have hrest := ih n
      rw [List.take_succ_cons, operandDepth_cons, operandPeak_cons]
      omega

theorem operandDepth_le_operandPeak (ms : List Emitted) : operandDepth ms ≤ operandPeak ms := by
  have h := operandDepth_take_le ms ms.length
  rwa [List.take_length] at h

/-- The peak is reached. -/
theorem exists_operandDepth_take (ms : List Emitted) :
    ∃ n, operandDepth (ms.take n) = operandPeak ms := by
  induction ms with
  | nil => exact ⟨0, rfl⟩
  | cons m ms ih =>
    obtain ⟨n, hn⟩ := ih
    by_cases hlow : m.effect + operandPeak ms ≤ 0
    · refine ⟨0, ?_⟩
      rw [operandPeak_cons, List.take_zero, operandDepth_nil]
      omega
    · refine ⟨n + 1, ?_⟩
      rw [operandPeak_cons, List.take_succ_cons, operandDepth_cons, hn]
      omega

/-- The peak is the greatest depth that the instructions reach. -/
theorem isGreatest_operandPeak (ms : List Emitted) :
    IsGreatest (Set.range fun n => operandDepth (ms.take n)) (operandPeak ms) := by
  constructor
  · exact exists_operandDepth_take ms
  · rintro _ ⟨n, rfl⟩
    exact operandDepth_take_le ms n

theorem operandPeak_append (ms ns : List Emitted) :
    operandPeak (ms ++ ns) = max (operandPeak ms) (operandDepth ms + operandPeak ns) := by
  induction ms with
  | nil =>
    have := operandPeak_nonneg ns
    rw [List.nil_append, operandPeak_nil, operandDepth_nil]
    omega
  | cons m ms ih =>
    rw [List.cons_append, operandPeak_cons, operandPeak_cons, operandDepth_cons, ih]
    omega

/-! ## The counts of the emitter -/

namespace Emitter

/-- From `e` to `e'` instructions were written with the numbers of a pool.  Records and labels may have
changed besides. -/
structure Appends (p : Pool) (ms : List Emitted) (e e' : Emitter) : Prop where
  code : e'.chunk.code.toList = e.chunk.code.toList ++ codeBytes p (instrs ms)
  depth : e'.depth = e.depth + operandDepth ms
  peak : e.depth ≤ e.peak → e'.peak = max e.peak (e.depth + operandPeak ms)

variable {p q : Pool} {ms ns : List Emitted} {e e' e'' : Emitter}

/-- Records and labels are no code. -/
theorem appends_nil (hcode : e'.chunk.code = e.chunk.code) (hdepth : e'.depth = e.depth)
    (hpeak : e'.peak = e.peak) : Appends p [] e e' := by
  refine ⟨?_, ?_, fun hle => ?_⟩
  · simp [hcode]
  · simp [hdepth]
  · rw [hpeak, operandPeak_nil]
    omega

theorem appends_writeInstr (p : Pool) (m : Emitted) (e : Emitter) :
    Appends p [m] e (e.writeInstr p m) := by
  refine ⟨?_, ?_, fun hle => ?_⟩
  · exact code_writeAll e p [m]
  · simp [writeInstr, write]
  · show max e.peak (e.depth + m.effect) = _
    rw [operandPeak_cons, operandPeak_nil]
    omega

/-- A pool that grows keeps the numbers that were written. -/
theorem Appends.trans (h : Appends p ms e e') (hms : AllInterned ms p) (hpq : p.GrowsTo q)
    (h' : Appends q ns e' e'') : Appends q (ms ++ ns) e e'' := by
  refine ⟨?_, ?_, fun hle => ?_⟩
  · have hbytes := codeBytes_eq_of_growsTo hms.instrs hpq
    rw [h'.code, h.code, instrs_append, codeBytes_append, hbytes, List.append_assoc]
  · rw [h'.depth, h.depth, operandDepth_append, Int.add_assoc]
  · have hpeak := h.peak hle
    have hdepth := h.depth
    have hbelow := operandDepth_le_operandPeak ms
    rw [h'.peak (by omega), operandPeak_append]
    omega

end Emitter

/-! ## Steps of a function -/

/-- Whether an instruction names neither a slot nor a callee. -/
def Instr.isPlain : Instr → Bool
  | .load _ _ | .store _ _ | .call _ _ => false
  | _ => true

/-- What the code of a function with some arguments consists of: loads of its arguments, calls of known
functions with fewer than 256 parameters, and instructions that name neither.  All but calls count with
their own effects. -/
inductive Emitted.Proper (functions : FunctionTable) (scope : Scope) : Emitted → Prop where
  | plain {i : Instr} (hi : i.isPlain = true) : Proper functions scope (.of i)
  | load {name : String} {v : LocalVar} (hv : scope.get? name = some v) :
    Proper functions scope (.of (.load (.ofTy v.ty) v.slot))
  | call {s : Signature} (hs : functions.Knows s) (harity : s.arity < 256) :
    Proper functions scope (.call s)

namespace Gen

/-- Between two states of one function, instructions were written that the function may consist of, and
`types` more operand types are on the stack of types, or fewer if that is negative. -/
structure Emits (ctx : CodeContext) (ms : List Emitted) (types : Int) (w w' : Workbench) : Prop where
  emitter : Emitter.Appends w'.session.pool ms w.frame.emitter w'.frame.emitter
  interned : AllInterned ms w'.session.pool
  proper : ∀ m ∈ ms, m.Proper ctx.functions w.frame.scope
  pool : w.session.pool.GrowsTo w'.session.pool
  scope : w'.frame.scope = w.frame.scope
  operands : (w'.frame.operands.size : Int) = w.frame.operands.size + types

/-- Between two states of one function, code was written that leaves the operand stack deeper by `net`,
and on the way by `lift` at most. -/
def Lifts (ctx : CodeContext) (net types lift : Int) (w w' : Workbench) : Prop :=
  ∃ ms, Emits ctx ms types w w' ∧ operandDepth ms = net ∧ operandPeak ms ≤ lift

variable {ctx : CodeContext} {w w₁ w' : Workbench} {ms ns : List Emitted}
  {net types lift net' types' lift' : Int}

theorem Emits.trans (h : Emits ctx ms types w w₁) (h' : Emits ctx ns types' w₁ w') :
    Emits ctx (ms ++ ns) (types + types') w w' := by
  refine ⟨h.emitter.trans h.interned h'.pool h'.emitter, (h.interned.mono h'.pool).append h'.interned,
    fun m hm => ?_, h.pool.trans h'.pool, h'.scope.trans h.scope, ?_⟩
  · rcases List.mem_append.1 hm with hm | hm
    · exact h.proper m hm
    · rw [← h.scope]
      exact h'.proper m hm
  · rw [h'.operands, h.operands, Int.add_assoc]

theorem Lifts.trans (h : Lifts ctx net types lift w w₁) (h' : Lifts ctx net' types' lift' w₁ w') :
    Lifts ctx (net + net') (types + types') (max lift (net + lift')) w w' := by
  obtain ⟨ms, hms, rfl, hpeak⟩ := h
  obtain ⟨ns, hns, rfl, hpeak'⟩ := h'
  refine ⟨ms ++ ns, hms.trans hns, operandDepth_append ms ns, ?_⟩
  rw [operandPeak_append]
  omega

/-- The numbers may be written in another way, and the bound may be higher. -/
theorem Lifts.cast (h : Lifts ctx net types lift w w') (hnet : net = net') (htypes : types = types')
    (hlift : lift ≤ lift') : Lifts ctx net' types' lift' w w' := by
  obtain ⟨ms, hms, hdepth, hpeak⟩ := h
  refine ⟨ms, htypes ▸ hms, hdepth.trans hnet, ?_⟩
  omega

/-- The types count as many operands as the frame has. -/
theorem Lifts.size_eq (h : Lifts ctx net types lift w w') :
    (w'.frame.operands.size : Int) = w.frame.operands.size + types := by
  obtain ⟨_, hms, -, -⟩ := h
  exact hms.operands

/-- The emitter counts as many operands as are on the stack. -/
theorem Lifts.depth_eq (h : Lifts ctx net types lift w w') :
    w'.frame.emitter.depth = w.frame.emitter.depth + net := by
  obtain ⟨_, hms, rfl, -⟩ := h
  exact hms.emitter.depth

/-- The stack is no deeper in the end than on the way. -/
theorem Lifts.net_le (h : Lifts ctx net types lift w w') : net ≤ lift := by
  obtain ⟨ms, -, rfl, hpeak⟩ := h
  exact Int.le_trans (operandDepth_le_operandPeak ms) hpeak

/-! ### Steps without code -/

/-- A step that writes no code, and knows `types` more operand types. -/
theorem lifts_silent (hsession : w'.session.pool = w.session.pool)
    (hcode : w'.frame.emitter.chunk.code = w.frame.emitter.chunk.code)
    (hdepth : w'.frame.emitter.depth = w.frame.emitter.depth)
    (hpeak : w'.frame.emitter.peak = w.frame.emitter.peak)
    (hscope : w'.frame.scope = w.frame.scope)
    (hoperands : (w'.frame.operands.size : Int) = w.frame.operands.size + types) :
    Lifts ctx 0 types 0 w w' := by
  refine ⟨[], ⟨Emitter.appends_nil hcode hdepth hpeak, .nil _, fun _ hm => ?_, ?_, hscope, hoperands⟩,
    rfl, Int.le_refl 0⟩
  · cases hm
  · rw [hsession]

theorem lifts_refl (w : Workbench) : Lifts ctx 0 0 0 w w :=
  lifts_silent rfl rfl rfl rfl rfl (Int.add_zero _).symm

/-- Only the session changed, and its pool grew. -/
theorem Lifts.of_pool {session : Session} (h : Lifts ctx net types lift ⟨session, w.frame⟩ w')
    (hpool : w.session.pool.GrowsTo session.pool) : Lifts ctx net types lift w w' := by
  obtain ⟨ms, hms, hdepth, hpeak⟩ := h
  exact ⟨ms, { hms with pool := hpool.trans hms.pool }, hdepth, hpeak⟩

theorem lifts_pushTy {t : Ty} (h : pushTy t w = (.ok (), w')) : Lifts ctx 0 1 0 w w' := by
  cases h
  exact lifts_silent rfl rfl rfl rfl rfl rfl

theorem lifts_popTy {context : String} {span : Span} {t : Ty}
    (h : popTy context span w = (.ok t, w')) : Lifts ctx 0 (-1) 0 w w' := by
  unfold popTy TypeStack.pop at h
  cases htypes : w.frame.operands.types with
  | nil =>
    simp only [htypes] at h
    cases h
  | cons u types =>
    simp only [htypes] at h
    cases h
    refine lifts_silent rfl rfl rfl rfl rfl ?_
    simp only [TypeStack.size, htypes, List.length_cons]
    omega

theorem lifts_setLine {line : Nat} (h : setLine ctx line w = (.ok (), w')) :
    Lifts ctx 0 0 0 w w' := by
  unfold setLine at h
  split at h
  · cases h
    exact lifts_silent rfl rfl rfl rfl rfl (Int.add_zero _).symm
  · cases h
    exact lifts_refl w

/-! ### Single instructions -/

/-- An instruction that was written with the numbers of the pool of a later session. -/
theorem lifts_writeInstr {m : Emitted} {session : Session}
    (hm : m.Proper ctx.functions w.frame.scope) (hin : m.instr.Interned session.pool)
    (hpool : w.session.pool.GrowsTo session.pool) :
    Lifts ctx m.effect 0 (max 0 m.effect) w
      ⟨session, { w.frame with emitter := w.frame.emitter.writeInstr session.pool m }⟩ := by
  refine ⟨[m], ⟨Emitter.appends_writeInstr _ m _, fun n hn => ?_, fun n hn => ?_, hpool, rfl,
    (Int.add_zero _).symm⟩, ?_, ?_⟩
  · obtain rfl := List.mem_singleton.1 hn
    exact hin
  · obtain rfl := List.mem_singleton.1 hn
    exact hm
  · simp
  · simp [operandPeak_cons]

/-- An instruction without a constant. -/
theorem lifts_emit {f : Emitter → Emitter} {i : Instr} {d : Int}
    (hproper : Emitted.Proper ctx.functions w.frame.scope (.of i)) (hconst : i.constant? = none)
    (hd : i.effect = d) (hf : ∀ (e : Emitter) (p : Pool), f e = e.writeInstr p (.of i))
    (h : emit f w = (.ok (), w')) : Lifts ctx d 0 (max 0 d) w w' := by
  subst hd
  cases h
  have hin := Instr.interned_of_constant?_eq_none hconst w.session.pool
  have hwrite := lifts_writeInstr hproper hin (.refl _)
  rw [← hf w.frame.emitter w.session.pool] at hwrite
  exact hwrite

/-- An instruction with a constant. -/
theorem lifts_emitPooled {f : Emitter → Pool → Emitter × Pool} {m : Emitted} {c : Constant} {d : Int}
    (hproper : m.Proper ctx.functions w.frame.scope) (hm : m.instr.constant? = some c)
    (hd : m.effect = d)
    (hf : ∀ (e : Emitter) (p : Pool), f e p = (e.writeInstr (p.add c).1 m, (p.add c).1))
    (h : emitPooled f w = (.ok (), w')) : Lifts ctx d 0 (max 0 d) w w' := by
  subst hd
  cases h
  let grown : Session := { w.session with pool := (w.session.pool.add c).1 }
  have hin : m.instr.Interned grown.pool := Instr.interned_add hm _
  have hwrite := lifts_writeInstr hproper hin (Pool.growsTo_add _ _)
  simp only [hf]
  exact hwrite

end Gen

end BlockCompiler
