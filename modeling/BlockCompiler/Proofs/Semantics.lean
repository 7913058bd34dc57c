import BlockCompiler.Proofs.TypeMachine

/-!
# What blocks and code mean

Both sides of the compiler are given a meaning here, the bodies of functions and the instructions of
chunks.  Functions that are called are not run: an `Interpretation` says what any call does to a world
that only calls can see and change, and every call is written down.

* `Expr.eval`, `Expr.evalArgs` and `Stmt.evalAll` evaluate the source, in order and from left to right.
  What a real literal stands for is a parameter, and so are the functions that were made for anonymous
  functions and for wrapped constants.
* `Machine.step` is one instruction.  Pairs lie in a heap: a new pair has no contents until it is
  filled, and it can be filled only once.  `Machine.exec` runs to the first return.
-/

namespace BlockCompiler

/-! ## Values -/

/-- What expressions evaluate to. -/
inductive Value where
  | int (value : Int64)
  | real (value : Binary64)
  | bool (value : Bool)
  | string (bytes : List UInt8)
  | unit
  | pair (kind : PairKind) (first second : Value)
  | fn (value : FunctionValue)
deriving DecidableEq, Repr, Inhabited

namespace Value

/-- The values of a type. -/
inductive HasTy : Value → Ty → Prop where
  | int (value : Int64) : HasTy (.int value) .int
  | real (value : Binary64) : HasTy (.real value) .real
  | bool (value : Bool) : HasTy (.bool value) .bool
  | string (bytes : List UInt8) : HasTy (.string bytes) .string
  | unit : HasTy .unit .unit
  | pair {first second : Value} {t : Ty} (hfirst : HasTy first t) (hsecond : HasTy second t) :
    HasTy (.pair (.ofTy t.paired) first second) t.paired
  | fn {value : FunctionValue} {params : List Ty} {result : Ty}
    (hvalue : value.ty = .fn params result) : HasTy (.fn value) (.fn params result)

/-- There is one value of the unit type. -/
theorem HasTy.eq_unit {v : Value} {t : Ty} (h : v.HasTy t) (ht : t = .unit) : v = .unit := by
  cases h with
  | unit => rfl
  | @pair _ _ t _ _ => exact absurd ht t.paired_ne_unit
  | _ => cases ht

end Value

/-- The value that a constant is loaded as, if it can be loaded. -/
def Constant.value? : Constant → Option Value
  | int v => some (.int v)
  | real v => some (.real v)
  | string bytes => some (.string bytes)
  | function _ | bound _ => none

/-- The value of a literal, where reals stand for these values. -/
def Literal.value (reals : Binary64 → Binary64) : Literal → Value
  | int v => .int v
  | real v => .real (reals v)
  | bool v => .bool v
  | string v => .string v.toUTF8.data.toList
  | unit => .unit

/-! ## Calls -/

/-- The world, and the calls that led to it with their arguments. -/
structure Effects (World : Type) where
  world : World
  calls : List (FunctionHash × List Value) := []

/-- What calls of the functions of a table do: they change the world, and those of functions whose
result is not the unit type give a value. -/
structure Interpretation (functions : FunctionTable) (World : Type) where
  run : FunctionHash → List Value → World → World × Option Value
  returns : ∀ {name : String} {s : Signature}, functions.get? name = some s →
    ∀ (args : List Value) (world : World), (run s.hash args world).2.isSome = !s.result.isUnit

namespace Interpretation

variable {functions : FunctionTable} {World : Type}

/-- If functions have different identities, calls of them may do anything. -/
def ofHashes (hhashes : functions.DistinctHashes)
    (run : FunctionHash → List Value → World → World × Value) : Interpretation functions World where
  run target args world :=
    ((run target args world).1,
      match functions.withHash? target with
      | some s => if s.result.isUnit then none else some (run target args world).2
      | none => none)
  returns := by
    intro name s hs args world
    simp only [FunctionTable.withHash?_hash hhashes hs]
    cases s.result.isUnit <;> rfl

/-- Performs a call and writes it down. -/
def call (I : Interpretation functions World) (target : FunctionHash) (args : List Value)
    (fx : Effects World) : Option Value × Effects World :=
  let (world, v?) := I.run target args fx.world
  (v?, ⟨world, fx.calls ++ [(target, args)]⟩)

theorem isSome_call (I : Interpretation functions World) {name : String} {s : Signature}
    (hs : functions.get? name = some s) (args : List Value) (fx : Effects World) :
    (I.call s.hash args fx).1.isSome = !s.result.isUnit :=
  I.returns hs args fx.world

end Interpretation

/-! ## The source -/

/-- What the evaluation of a body depends on. -/
structure Setting (World : Type) where
  env : CodeEnv
  calls : Interpretation env.functions World
  /-- What real literals stand for. -/
  reals : Binary64 → Binary64
  /-- The values of the arguments, by their names. -/
  args : String → Option Value

/-- An evaluation, which may get stuck. -/
abbrev Eval (World α : Type) : Type := StateT (Effects World) Option α

variable {World : Type}

/-- The function that was made for an argument that is not of the type of its parameter. -/
def Setting.wrapped (c : Setting World) (p : Param) (e : Expr) : Option Value := do
  let s ← c.env.wrappers (Gen.wrapperKey p.ty e.text)
  some (.fn s.toValue)

/-- Calls a function; where it gives no value, the value is the unit value. -/
def Setting.call (c : Setting World) (s : Signature) (vs : List Value) : Eval World Value :=
  fun fx =>
    let (v?, fx) := c.calls.call s.hash vs fx
    some (v?.getD .unit, fx)

namespace Expr

mutual

/-- Evaluates an expression. -/
def eval (c : Setting World) : Expr → Eval World Value
  | literal value _ _ => pure (value.value c.reals)
  | pair first second text span => do
    let u ← eval c first
    let v ← eval c second
    let t ← typeOf c.env.functions c.env.scope (pair first second text span)
    pure (.pair (.ofTy t) u v)
  | var name =>
    match c.args name.name with
    | some v => pure v
    | none => do
      let s ← c.env.functions.get? name.name
      pure (.fn s.toValue)
  | placeholder _ => do
    let v ← c.args placeholderText
    pure v
  | lambda _ text _ => do
    let s ← c.env.lambdas text
    pure (.fn s.toValue)
  | call callee args _ _ => do
    let s ← c.env.functions.get? callee.name
    let vs ← evalArgs c s.params args
    c.call s vs
termination_by structural e => e

/-- Evaluates arguments for some parameters. -/
def evalArgs (c : Setting World) (ps : List Param) : List Expr → Eval World (List Value)
  | [] => pure []
  | e :: es =>
    match ps with
    | [] => failure
    | p :: ps => do
      let v ← if e.typeOf c.env.functions c.env.scope = some p.ty then eval c e
        else liftM (c.wrapped p e)
      let vs ← evalArgs c ps es
      pure (v :: vs)
termination_by structural es => es

end

end Expr

/-- The value that a function with this result type returns in place of a value. -/
def Ty.returned (t : Ty) (v : Value) : Value := if t.isUnit then .unit else v

/-- Evaluates the statements of a function with this result type, up to the first that returns; the
last statement returns in any case. -/
def Stmt.evalAll (c : Setting World) (result : Ty) : List Stmt → Eval World Value
  | [] => pure .unit
  | .ret e _ :: _ => do
    let v ← e.eval c
    pure (result.returned v)
  | .expr e :: ss => do
    let v ← e.eval c
    match ss with
    | [] => pure (result.returned v)
    | _ :: _ => evalAll c result ss
  | .decl _ _ _ :: _ => failure

/-! ## The machine -/

/-- An operand: a value, or a reference to a pair in the heap. -/
inductive Operand where
  | value (v : Value)
  | pair (cell : Nat)
deriving DecidableEq, Repr, Inhabited

/-- A pair in the heap. -/
structure Cell where
  kind : PairKind
  contents? : Option (Value × Value) := none
deriving DecidableEq, Repr, Inhabited

/-- The state of a function that is executed. -/
structure Machine (World : Type) where
  slots : List Operand
  stack : List Operand := []
  heap : List Cell := []
  effects : Effects World

namespace Machine

variable {functions : FunctionTable}

/-- A machine that is about to execute a function. -/
def start (args : List Value) (fx : Effects World) : Machine World :=
  { slots := args.map .value, effects := fx }

/-- The value of an operand, if it has been filled. -/
def valueOf (m : Machine World) : Operand → Option Value
  | .value v => some v
  | .pair n => do
    let cell ← m.heap[n]?
    let (u, v) ← cell.contents?
    some (.pair cell.kind u v)

/-- Pushes an operand. -/
def push (m : Machine World) (o : Operand) : Machine World := { m with stack := o :: m.stack }

/-- One instruction that is no return. -/
def step (I : Interpretation functions World) (m : Machine World) :
    Instr → Option (Machine World)
  | .push c => do
    let v ← c.value?
    some (m.push (.value v))
  | .bool b => some (m.push (.value (.bool b)))
  | .unit => some (m.push (.value .unit))
  | .pop =>
    match m.stack with
    | _ :: os => some { m with stack := os }
    | [] => none
  | .dup =>
    match m.stack with
    | o :: _ => some (m.push o)
    | [] => none
  | .load _ slot => do
    let o ← m.slots[slot.toNat]?
    some (m.push o)
  | .store _ slot =>
    match m.stack with
    | o :: os => some { m with slots := m.slots.set slot.toNat o, stack := os }
    | [] => none
  | .newPair kind =>
    some { m with stack := .pair m.heap.length :: m.stack, heap := m.heap ++ [⟨kind, none⟩] }
  | .initPair kind =>
    match m.stack with
    | b :: a :: .pair n :: o :: os => do
      let u ← m.valueOf a
      let v ← m.valueOf b
      if m.heap[n]? = some ⟨kind, none⟩ then
        some { m with stack := o :: os, heap := m.heap.set n ⟨kind, some (u, v)⟩ }
      else none
    | _ => none
  | .call target argCount =>
    if argCount.toNat ≤ m.stack.length then do
      let vs ← (m.stack.take argCount.toNat).reverse.mapM m.valueOf
      let (v?, fx) := I.call target vs m.effects
      some { m with
        stack := v?.toList.map .value ++ m.stack.drop argCount.toNat
        effects := fx }
    else none
  | .bind v => some (m.push (.value (.fn v)))
  | .ret _ => none

/-- Instructions in sequence. -/
def run (I : Interpretation functions World) (m : Machine World) (is : List Instr) :
    Option (Machine World) :=
  is.foldlM (step I) m

/-- Executes instructions up to the first return, and gives the value that is returned. -/
def exec (I : Interpretation functions World) (m : Machine World) :
    List Instr → Option (Value × Effects World)
  | [] => none
  | .ret _ :: _ =>
    match m.stack with
    | o :: _ => do
      let v ← m.valueOf o
      some (v, m.effects)
    | [] => none
  | i :: is => do
    let m ← m.step I i
    exec I m is

/-! ## Running -/

variable {I : Interpretation functions World} {m m' : Machine World}

@[simp] theorem run_nil (m : Machine World) : m.run I [] = some m := rfl

@[simp] theorem run_cons (m : Machine World) (i : Instr) (is : List Instr) :
    m.run I (i :: is) = (m.step I i).bind fun m => m.run I is := rfl

@[simp] theorem run_append (m : Machine World) (is js : List Instr) :
    m.run I (is ++ js) = (m.run I is).bind fun m => m.run I js :=
  List.foldlM_append

/-- Instructions that run are none of them a return, so execution goes on after them. -/
theorem exec_append {is : List Instr} (h : m.run I is = some m') (js : List Instr) :
    m.exec I (is ++ js) = m'.exec I js := by
  induction is generalizing m with
  | nil => rw [← Option.some.inj h, List.nil_append]
  | cons i is ih =>
    rw [run_cons, Option.bind_eq_some_iff] at h
    obtain ⟨m₁, hstep, hrun⟩ := h
    have hrest := ih hrun
    cases i with
    | ret kind => cases hstep
    | _ =>
      simp only [List.cons_append, exec, hstep]
      exact hrest

theorem exec_ret {o : Operand} {os : List Operand} {v : Value} (hstack : m.stack = o :: os)
    (hv : m.valueOf o = some v) (kind : ValueKind) (is : List Instr) :
    m.exec I (.ret kind :: is) = some (v, m.effects) := by
  rw [exec, hstack]
  simp only [hv]
  rfl

end Machine

end BlockCompiler
