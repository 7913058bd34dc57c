import Mathlib.Data.List.Nodup
import BlockCompiler.Proofs.WholeBlock

/-!
# The machine of types

The operation codes are typed so that code can be checked without being run.  The machine here does
that: it runs instructions on a stack of types instead of values, and stops where an operand is missing
or of the wrong type.  It runs straight through the code, also past a return that is not the last
instruction, so code after a return is checked as well.

* `TypeMachine.step` is one instruction in a function, and `TypeMachine.run` is a list of them.
* `TypeMachine.run_expr` says what the code of an expression does to any stack: it leaves the type of
  the expression, or nothing for a call that leaves no value.  The other run lemmas follow from it.
* `code_runs_on_types` is the result for the modules of whole blocks.
-/

namespace BlockCompiler

/-! ## Functions by identity -/

namespace FunctionTable

/-- Whether no two functions have one identity. -/
def DistinctHashes (t : FunctionTable) : Prop := (t.toList.map Signature.hash).Nodup

/-- The function with an identity. -/
def withHash? (t : FunctionTable) (target : FunctionHash) : Option Signature :=
  t.toList.find? (·.hash = target)

theorem mem_toList_of_get? {t : FunctionTable} {name : String} {s : Signature}
    (h : t.get? name = some s) : s ∈ t.toList := by
  have hvalues : t.toList = t.byName.toList.map Prod.snd := by
    show Std.DTreeMap.Internal.Impl.values _ =
      (Std.DTreeMap.Internal.Impl.Const.toList _).map Prod.snd
    rw [Std.DTreeMap.Internal.Impl.values_eq_map_snd,
      Std.DTreeMap.Internal.Impl.Const.toList_eq_toListModel_map, List.map_map]
    rfl
  rw [hvalues, List.mem_map]
  exact ⟨(name, s), Std.TreeMap.mem_toList_iff_getElem?_eq_some.2 h, rfl⟩

/-- A function that is found under a name is found under its identity too. -/
theorem withHash?_hash {t : FunctionTable} (ht : t.DistinctHashes) {name : String} {s : Signature}
    (h : t.get? name = some s) : t.withHash? s.hash = some s := by
  have hs : s ∈ t.toList := mem_toList_of_get? h
  unfold withHash?
  cases hfind : t.toList.find? (·.hash = s.hash) with
  | none =>
    have := List.find?_eq_none.1 hfind s hs
    simp at this
  | some s' =>
    have hs' : s' ∈ t.toList := List.mem_of_find?_eq_some hfind
    have hhash : s'.hash = s.hash := by simpa using List.find?_some hfind
    rw [List.inj_on_of_nodup_map ht hs' hs hhash]

end FunctionTable

/-! ## Types of operands -/

/-- The type of the value that a constant is loaded as, if it can be loaded. -/
def Constant.loadedTy? : Constant → Option Ty
  | int _ => some .int
  | real _ => some .real
  | string _ => some .string
  | function _ | bound _ => none

/-- Constants that are the same are loaded as values of one type. -/
theorem Constant.Same.loadedTy?_eq {c d : Constant} (h : Constant.Same c d) :
    c.loadedTy? = d.loadedTy? := by
  cases c <;> cases d <;> simp_all [Constant.Same, Constant.canonical, Constant.loadedTy?]

/-- The type of the pairs of a kind. -/
def PairKind.ty : PairKind → Ty
  | int => .intPair
  | real => .realPair

theorem PairKind.ty_ofTy_paired (t : Ty) : (PairKind.ofTy t.paired).ty = t.paired := by
  cases t <;> rfl

theorem PairKind.ofTy_paired_eq_int {t : Ty} : PairKind.ofTy t.paired = .int ↔ t = .int := by
  cases t <;> simp [Ty.paired, PairKind.ofTy]

namespace TypeMachine

/-- One instruction in a function with the signature `s`; the top of the stack stands first. -/
def step (functions : FunctionTable) (s : Signature) : Instr → List Ty → Option (List Ty)
  | .push c, ts => c.loadedTy?.map (· :: ts)
  | .bool _, ts => some (.bool :: ts)
  | .unit, ts => some (.unit :: ts)
  | .pop, _ :: ts => some ts
  | .dup, t :: ts => some (t :: t :: ts)
  | .load kind slot, ts =>
    match s.params[slot.toNat]? with
    | some p => if .ofTy p.ty = kind then some (p.ty :: ts) else none
    | none => none
  | .newPair kind, ts => some (kind.ty :: ts)
  | .initPair kind, b :: a :: q :: p :: ts =>
    if p = kind.ty ∧ q = kind.ty ∧ a = b ∧ (a = .int ↔ kind = .int) then some (p :: ts) else none
  | .call target argCount, ts =>
    match functions.withHash? target with
    | some f =>
      if argCount.toNat = f.arity ∧ ts.take f.arity = f.paramTypes.reverse then
        some (f.value?.toList ++ ts.drop f.arity)
      else none
    | none => none
  | .bind v, ts => some (v.ty :: ts)
  | .ret kind, ts => if ts = [s.result] ∧ .ofTy s.result = kind then some [] else none
  | _, _ => none

/-- Instructions in sequence. -/
def run (functions : FunctionTable) (s : Signature) (is : List Instr) (ts : List Ty) :
    Option (List Ty) :=
  is.foldlM (fun ts i => step functions s i ts) ts

variable {functions : FunctionTable} {s : Signature}

@[simp] theorem run_nil (ts : List Ty) : run functions s [] ts = some ts := rfl

@[simp] theorem run_cons (i : Instr) (is : List Instr) (ts : List Ty) :
    run functions s (i :: is) ts = (step functions s i ts).bind (run functions s is) := rfl

@[simp] theorem run_append (is js : List Instr) (ts : List Ty) :
    run functions s (is ++ js) ts = (run functions s is ts).bind (run functions s js) :=
  List.foldlM_append

/-- The constants that a pool holds in place of others are of the same types. -/
theorem step_stored (p : Pool) (i : Instr) (ts : List Ty) :
    step functions s (i.stored p) ts = step functions s i ts := by
  cases i with
  | push c => simp only [Instr.stored, step, (p.same_stored c).loadedTy?_eq]
  | _ => rfl

theorem run_stored (p : Pool) (is : List Instr) (ts : List Ty) :
    run functions s (is.map fun i => i.stored p) ts = run functions s is ts := by
  induction is generalizing ts with
  | nil => rfl
  | cons i is ih =>
    rw [List.map_cons, run_cons, run_cons, step_stored]
    congr 1
    funext us
    exact ih us

end TypeMachine

/-! ## Code of expressions -/

/-- Surroundings of code in a function with the signature `s`. -/
structure CodeEnv.Fits (env : CodeEnv) (s : Signature) : Prop where
  hashes : env.functions.DistinctHashes
  scope : env.scope = .ofParams s.params
  arity : s.params.length ≤ Scope.slotLimit
  wrappers : ∀ {t text s}, env.wrappers (Gen.wrapperKey t text) = some s → s.toTy = t

namespace TypeMachine

variable {env : CodeEnv} {s : Signature}

theorem step_load (henv : env.Fits s) {name : String} {v : LocalVar}
    (hv : env.scope.get? name = some v) (ts : List Ty) :
    step env.functions s (.load (.ofTy v.ty) v.slot) ts = some (v.ty :: ts) := by
  rw [henv.scope] at hv
  simp only [step, Scope.getElem?_slot henv.arity hv, if_true]

theorem step_call (henv : env.Fits s) {name : String} {f : Signature}
    (hf : env.functions.get? name = some f) (harity : f.arity < 256) (ts : List Ty) :
    step env.functions s (.call f.hash (UInt8.ofNat f.arity)) (f.paramTypes.reverse ++ ts) =
      some (f.value?.toList ++ ts) := by
  have hlength : f.paramTypes.reverse.length = f.arity := by
    simp [Signature.paramTypes, Signature.arity]
  have hcount : (UInt8.ofNat f.arity).toNat = f.arity := by
    rw [UInt8.toNat_ofNat', Nat.mod_eq_of_lt harity]
  have htake : (f.paramTypes.reverse ++ ts).take f.arity = f.paramTypes.reverse :=
    List.take_left' hlength
  have hdrop : (f.paramTypes.reverse ++ ts).drop f.arity = ts := List.drop_left' hlength
  simp only [step, FunctionTable.withHash?_hash henv.hashes hf, hcount, htake, hdrop, true_and,
    if_true]

theorem step_initPair (t : Ty) (ts : List Ty) :
    step env.functions s (.initPair (.ofTy t.paired)) (t :: t :: t.paired :: t.paired :: ts) =
      some (t.paired :: ts) := by
  simp only [step, PairKind.ty_ofTy_paired, PairKind.ofTy_paired_eq_int, true_and, if_true]

private theorem run_operand_of {e : Expr} {ms : List Emitted} {t : Ty}
    (ih : ∀ {ms t?}, ExprCode env e ms t? → ∀ ts,
      run env.functions s (instrs ms) ts = some (t?.toList ++ ts))
    (h : OperandCode env e ms t) (ts : List Ty) :
    run env.functions s (instrs ms) ts = some (t :: ts) := by
  cases h with
  | value h => exact ih h ts
  | unit h =>
    rw [instrs_append, run_append, ih h ts]
    rfl

variable (henv : env.Fits s)

include henv

mutual

/-- The code of an expression leaves the type of its value, if it leaves one. -/
theorem run_expr : ∀ (e : Expr) {ms : List Emitted} {t? : Option Ty}, ExprCode env e ms t? →
    ∀ ts, run env.functions s (instrs ms) ts = some (t?.toList ++ ts)
  | .literal value _ _, _, _, h, ts => by
    cases h
    cases value <;> rfl
  | .pair first second _ _, _, _, h, ts => by
    cases h with
    | @pair _ _ ms ns t _ _ hfirst hsecond =>
      have h₁ := run_operand_of (fun h => run_expr first h) hfirst
      have h₂ := run_operand_of (fun h => run_expr second h) hsecond
      have hnew : run env.functions s [.newPair (.ofTy t.paired), .dup] ts =
          some (t.paired :: t.paired :: ts) := by
        simp [step, PairKind.ty_ofTy_paired]
      have hcode : instrs (.of (.newPair (.ofTy t.paired)) :: .of .dup ::
          (ms ++ (ns ++ [.of (.initPair (.ofTy t.paired))]))) =
          [.newPair (.ofTy t.paired), .dup] ++
            (instrs ms ++ (instrs ns ++ [.initPair (.ofTy t.paired)])) := by
        simp
      rw [hcode, run_append, hnew, Option.bind_some, run_append, h₁, Option.bind_some, run_append,
        h₂, Option.bind_some, run_cons, step_initPair]
      rfl
  | .var _, _, _, h, ts => by
    cases h with
    | arg hv =>
      rw [instrs_cons, run_cons, Emitted.instr_of, step_load henv hv]
      rfl
    | function hv hs => rfl
  | .placeholder _, _, _, h, ts => by
    cases h with
    | placeholder span hv hreal =>
      rw [instrs_cons, run_cons, Emitted.instr_of, step_load henv hv]
      rfl
  | .lambda _ _ _, _, _, h, ts => by
    cases h
    rfl
  | .call _ args _ _, _, _, h, ts => by
    cases h with
    | @call _ _ f _ text span hs harity hargs =>
      have hargs : run env.functions s _ ts = some (f.paramTypes.reverse ++ ts) :=
        run_args args hargs ts
      have hcall := step_call henv hs harity ts
      rw [instrs_append, run_append, hargs, Option.bind_some, instrs_cons, run_cons]
      simp only [Emitted.call, hcall, Option.bind_some]
      rfl

/-- The code of arguments leaves the types of the parameters, the last one on top. -/
theorem run_args : ∀ (es : List Expr) {ps : List Param} {ms : List Emitted},
    ArgsCode env ps es ms → ∀ ts,
      run env.functions s (instrs ms) ts = some ((ps.map Param.ty).reverse ++ ts)
  | [], _, _, h, ts => by
    cases h
    rfl
  | e :: es, _, _, h, ts => by
    cases h with
    | value he hes =>
      have hhead := run_operand_of (fun h => run_expr e h) he ts
      rw [instrs_append, run_append, hhead, Option.bind_some, run_args es hes]
      simp
    | @wrapped p ps _ _ ns params result f hp he hf hes =>
      have hty : f.toTy = p.ty := henv.wrappers hf
      have hhead : step env.functions s (.bind f.toValue) ts = some (p.ty :: ts) := by
        rw [← hty]
        rfl
      rw [instrs_cons, run_cons, Emitted.instr_of, hhead, Option.bind_some, run_args es hes]
      simp

end

theorem run_operand {e : Expr} {ms : List Emitted} {t : Ty} (h : OperandCode env e ms t)
    (ts : List Ty) : run env.functions s (instrs ms) ts = some (t :: ts) :=
  run_operand_of (fun h => run_expr henv e h) h ts

/-! ## Bodies -/

omit henv in
/-- A return takes the type of the value, which is all there is. -/
theorem run_returnCode {t : Ty} (ht : s.result.acceptsAssign t = true) :
    run env.functions s (instrs (returnCode s.result t)) [t] = some [] := by
  unfold returnCode
  by_cases hunit : s.result = .unit
  · by_cases ht' : t = .unit
    · simp [Ty.isUnit, hunit, ht', step]
    · simp [Ty.isUnit, ht', hunit, step]
  · obtain rfl : s.result = t := by
      simpa [Ty.acceptsAssign, Ty.acceptsDiscarding, Ty.isUnit, hunit] using ht
    simp [Ty.isUnit, step]

/-- The code of a body takes the empty stack to the empty stack. -/
theorem run_body {ss : List Stmt} {ms : List Emitted} (h : BodyCode env s.result ss ms) :
    run env.functions s (instrs ms) [] = some [] := by
  generalize hresult : s.result = result at h
  induction h with
  | empty hunit => simp [step, hresult, hunit]
  | ret span he ht | last he ht =>
    subst hresult
    rw [instrs_append, run_append, run_operand henv he, Option.bind_some, run_returnCode ht]
  | retThen span he ht _ ih =>
    subst hresult
    rw [instrs_append, instrs_append, run_append, run_append, run_operand henv he,
      Option.bind_some, run_returnCode ht, Option.bind_some, ih]
  | @exprThen e ms ns t? _ _ he _ ih =>
    have hpops : run env.functions s (instrs (t?.toList.map fun _ => .of .pop)) t?.toList =
        some [] := by
      cases t? <;> rfl
    rw [instrs_append, instrs_append, run_append, run_append, run_expr henv e he,
      Option.bind_some, List.append_nil, hpops, Option.bind_some, ih]

end TypeMachine

theorem returnCode_getLast? (result t : Ty) :
    (instrs (returnCode result t)).getLast? = some (.ret (.ofTy result)) := by
  unfold returnCode
  split
  next h =>
    have hunit : result = .unit := by
      simp only [Ty.isUnit, Bool.and_eq_true, beq_iff_eq] at h
      exact h.1
    rw [hunit]
    rfl
  next => rfl

/-- The code of a body ends with a return. -/
theorem BodyCode.getLast? {env : CodeEnv} {result : Ty} {ss : List Stmt} {ms : List Emitted}
    (h : BodyCode env result ss ms) :
    (instrs ms).getLast? = some (.ret (.ofTy result)) := by
  induction h with
  | empty hunit =>
    rw [hunit]
    rfl
  | ret span he ht | last he ht =>
    rw [instrs_append, List.getLast?_append, returnCode_getLast?]
    rfl
  | retThen _ _ _ _ ih | exprThen _ _ ih =>
    rw [instrs_append, List.getLast?_append, ih]
    rfl

/-! ## Modules -/

/-- The code of every function in the module of a block runs on types, from the empty stack to the
empty stack, and ends with the return of the declared result. -/
theorem code_runs_on_types {block : Block} {functions : FunctionTable} (options : Options)
    (hfaithful : block.TextFaithful) (hhashes : functions.DistinctHashes)
    (hsize : (compileBlock functions options block).module.pool.size ≤ 65536) :
    ∀ entry ∈ (compileBlock functions options block).module.functions,
      ∃ chunk is, entry.code? = some chunk ∧
        chunk.listing? (compileBlock functions options block).module.pool = some is ∧
        TypeMachine.run functions entry.signature is [] = some [] ∧
        is.getLast? = some (.ret (.ofTy entry.signature.result)) := by
  intro entry hentry
  obtain ⟨chunk, hchunk, ⟨body, hbody⟩, hcompiled⟩ := Block.code_of_mem options hfaithful hentry
  obtain ⟨hnames, harity, ms, hms, hinterned, hcode⟩ := hcompiled hbody
  have hsound : (block.session functions options).Sound _ :=
    (Block.sound_session options hfaithful).1
  have henv : CodeEnv.Fits ⟨functions, .ofParams entry.signature.params,
      (block.walk functions options).table.get?, (block.session functions options).wrapper?⟩
      entry.signature := ⟨hhashes, rfl, harity, hsound.wrappers⟩
  have hlisting := Chunk.listing?_of_code hcode hinterned.instrs hsize
  refine ⟨chunk, _, hchunk, hlisting, ?_, ?_⟩
  · rw [TypeMachine.run_stored]
    exact TypeMachine.run_body henv hms
  · rw [List.getLast?_map, hms.getLast?]
    rfl

theorem distinctHashes_identityFunctions : identityFunctions.DistinctHashes := by
  have htable : identityFunctions.toList = [⟨"f", [], .fn [.real] .real, "Main", false⟩] := rfl
  rw [FunctionTable.DistinctHashes, htable]
  exact List.nodup_singleton _

theorem code_runs_on_types_identityBlock :
    (compileBlock identityFunctions {} identityBlock).module.size = 2 ∧
      ∀ entry ∈ (compileBlock identityFunctions {} identityBlock).module.functions,
        ∃ chunk is, entry.code? = some chunk ∧
          chunk.listing? (compileBlock identityFunctions {} identityBlock).module.pool = some is ∧
          TypeMachine.run identityFunctions entry.signature is [] = some [] ∧
          is.getLast? = some (.ret (.ofTy entry.signature.result)) := by
  have hsize : (compileBlock identityFunctions {} identityBlock).module.pool.size = 1 := by
    decide +kernel
  refine ⟨by decide +kernel, ?_⟩
  exact code_runs_on_types {} textFaithful_identityBlock distinctHashes_identityFunctions (by omega)

end BlockCompiler
