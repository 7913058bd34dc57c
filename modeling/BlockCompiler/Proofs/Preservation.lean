import Mathlib.Data.List.Forall2
import BlockCompiler.Proofs.Semantics

/-!
# Code means what its source means

The code of a body, when it is executed, calls the same functions with the same arguments in the same
order as the body when it is evaluated, and returns the same value.

* `Machine.Pushed` says what the code of an expression does to a machine: it leaves operands on top and
  may leave pairs in the heap, but it never touches a pair that was there before.
* `Setting.Realises` joins that with what happens to the world.  `Setting.realises_expr` is the
  simulation for expressions, and `Setting.exec_body` adds what statements and returns do.
* `execution_preserves_meaning` is the result for the modules of whole blocks.

Real literals are an exception.  The pool keeps one constant for both zeros, and one for all patterns
that are not numbers, so code loads whichever was added first.  The result says this exactly, and it
says that nothing else goes wrong: where a block writes no two such reals, all is as it should be.
-/

namespace BlockCompiler

variable {World : Type}

/-! ## Operands on top -/

namespace Machine

variable {functions : FunctionTable} {I : Interpretation functions World}
  {m m₁ m₂ m' : Machine World} {us vs : List Value}

/-- What is in the heap stays there. -/
theorem valueOf_mono (h : m.heap <+: m'.heap) {o : Operand} {v : Value}
    (ho : m.valueOf o = some v) : m'.valueOf o = some v := by
  cases o with
  | value => exact ho
  | pair n =>
    obtain ⟨cell, hcell, hv⟩ := Option.bind_eq_some_iff.1 ho
    have hcell' : m'.heap[n]? = some cell := by
      obtain ⟨rest, hrest⟩ := h
      rw [← hrest, List.getElem?_append_left (List.getElem?_eq_some_iff.1 hcell).1, hcell]
    simp only [valueOf, hcell']
    exact hv

/-- From `m` to `m'` operands for these values were pushed, the last one first in the list. -/
structure Pushed (m m' : Machine World) (vs : List Value) : Prop where
  slots : m'.slots = m.slots
  heap : m.heap <+: m'.heap
  stack : ∃ os, m'.stack = os ++ m.stack ∧ List.Forall₂ (fun o v => m'.valueOf o = some v) os vs

theorem Pushed.refl (m : Machine World) : m.Pushed m [] :=
  ⟨rfl, List.prefix_rfl, [], rfl, .nil⟩

theorem Pushed.trans (h : m.Pushed m₁ us) (h' : m₁.Pushed m₂ vs) : m.Pushed m₂ (vs ++ us) := by
  obtain ⟨os, hos, hus⟩ := h.stack
  obtain ⟨os', hos', hvs⟩ := h'.stack
  refine ⟨h'.slots.trans h.slots, h.heap.trans h'.heap, os' ++ os, ?_, ?_⟩
  · rw [hos', hos, List.append_assoc]
  · exact List.rel_append hvs (hus.imp fun _ _ hv => valueOf_mono h'.heap hv)

theorem pushed_value (m : Machine World) (v : Value) : m.Pushed (m.push (.value v)) [v] :=
  ⟨rfl, List.prefix_rfl, [.value v], rfl, .cons rfl .nil⟩

/-- One operand was pushed. -/
theorem Pushed.single {v : Value} (h : m.Pushed m' [v]) :
    ∃ o, m'.stack = o :: m.stack ∧ m'.valueOf o = some v := by
  obtain ⟨os, hos, hvs⟩ := h.stack
  cases hvs with
  | cons hv hnil =>
    cases hnil
    exact ⟨_, hos, hv⟩

/-! ## Calls -/

theorem mapM_valueOf {os : List Operand}
    (h : List.Forall₂ (fun o v => m.valueOf o = some v) os vs) : os.mapM m.valueOf = some vs := by
  induction h with
  | nil => rfl
  | cons hv _ ih =>
    rw [List.mapM_cons, hv, ih]
    rfl

/-- A call takes its arguments and leaves its value, if there is one. -/
theorem step_call (h : m.Pushed m' vs.reverse) {argCount : UInt8} (hcount : argCount.toNat = vs.length)
    (target : FunctionHash) :
    m'.step I (.call target argCount) = some { m' with
      stack := (I.call target vs m'.effects).1.toList.map .value ++ m.stack
      effects := (I.call target vs m'.effects).2 } := by
  obtain ⟨os, hos, hvs⟩ := h.stack
  have hlength : os.length = argCount.toNat := by
    rw [hvs.length_eq, List.length_reverse, hcount]
  have hle : argCount.toNat ≤ m'.stack.length := by
    rw [hos, List.length_append]
    omega
  have htake : m'.stack.take argCount.toNat = os := by
    rw [hos, List.take_left' hlength]
  have hdrop : m'.stack.drop argCount.toNat = m.stack := by
    rw [hos, List.drop_left' hlength]
  have hargs : os.reverse.mapM m'.valueOf = some vs := by
    apply mapM_valueOf
    rwa [← List.forall₂_reverse_iff, List.reverse_reverse]
  simp only [step, if_pos hle, htake, hdrop, hargs]
  rfl

/-! ## Pairs -/

/-- The machine after a new pair was pushed twice. -/
def newPair (m : Machine World) (kind : PairKind) : Machine World :=
  { m with
    stack := .pair m.heap.length :: .pair m.heap.length :: m.stack
    heap := m.heap ++ [⟨kind, none⟩] }

theorem run_newPair (kind : PairKind) (is : List Instr) :
    m.run I (.newPair kind :: .dup :: is) = (m.newPair kind).run I is := rfl

/-- The code of the elements does not touch the new pair, so it can be filled then. -/
theorem step_initPair {kind : PairKind} {u v : Value} (h : (m.newPair kind).Pushed m' [v, u]) :
    ∃ m'', m'.step I (.initPair kind) = some m'' ∧ m''.effects = m'.effects ∧
      m.Pushed m'' [.pair kind u v] := by
  obtain ⟨os, hos, hvs⟩ := h.stack
  obtain ⟨rest, hheap⟩ := h.heap
  simp only [newPair] at hos hheap
  have hcell : m'.heap[m.heap.length]? = some ⟨kind, none⟩ := by
    rw [← hheap]
    simp
  have hset : m'.heap.set m.heap.length ⟨kind, some (u, v)⟩ =
      m.heap ++ (⟨kind, some (u, v)⟩ :: rest) := by
    rw [← hheap, List.append_assoc, List.set_append_right _ _ (Nat.le_refl _)]
    simp
  cases hvs with
  | @cons b _ _ _ hb hvs =>
    cases hvs with
    | @cons a _ _ _ ha hnil =>
      cases hnil
      let m'' : Machine World :=
        { m' with
          stack := .pair m.heap.length :: m.stack
          heap := m'.heap.set m.heap.length ⟨kind, some (u, v)⟩ }
      have hvalue : m''.valueOf (.pair m.heap.length) = some (.pair kind u v) := by
        simp [m'', valueOf, hset]
      refine ⟨m'', ?_, rfl, h.slots, ?_, [.pair m.heap.length], rfl, .cons hvalue .nil⟩
      · simp only [step, hos, List.cons_append, List.nil_append, ha, hb, hcell, if_true]
        rfl
      · exact ⟨_, hset.symm⟩

end Machine

/-! ## Evaluation and execution together -/

/-- Instructions as a machine reads them, with the constants that a pool holds. -/
def Pool.listing (p : Pool) (ms : List Emitted) : List Instr := (instrs ms).map fun i => i.stored p

@[simp] theorem Pool.listing_nil (p : Pool) : p.listing [] = [] := rfl

@[simp] theorem Pool.listing_cons (p : Pool) (m : Emitted) (ms : List Emitted) :
    p.listing (m :: ms) = m.instr.stored p :: p.listing ms := rfl

@[simp] theorem Pool.listing_append (p : Pool) (ms ns : List Emitted) :
    p.listing (ms ++ ns) = p.listing ms ++ p.listing ns := by
  simp [listing]

namespace Setting

/-- What names and reals stand for is what a machine finds in these slots and in this pool. -/
structure Matches (c : Setting World) (slots : List Operand) (p : Pool) : Prop where
  args : ∀ {name : String} {v : LocalVar}, c.env.scope.get? name = some v →
    ∃ x, c.args name = some x ∧ slots[v.slot.toNat]? = some (.value x) ∧ x.HasTy v.ty
  functions : ∀ {name : String}, c.env.scope.get? name = none → c.args name = none
  reals : c.reals = p.storedReal

/-- From `m` to `m'` some instructions ran, which did to the world what the evaluation `x` of `a`
does, and pushed operands for some values. -/
structure Realises {α : Type} (c : Setting World) (m m' : Machine World) (is : List Instr)
    (x : Eval World α) (a : α) (vs : List Value) : Prop where
  run : m.run c.calls is = some m'
  eval : x m.effects = some (a, m'.effects)
  pushed : m.Pushed m' vs

variable {α β : Type} {c : Setting World} {m m₁ m₂ m' : Machine World} {is js : List Instr}
  {x : Eval World α} {a : α} {us vs : List Value}

theorem Realises.bind {f : α → Eval World β} {b : β} (h : c.Realises m m₁ is x a us)
    (h' : c.Realises m₁ m₂ js (f a) b vs) :
    c.Realises m m₂ (is ++ js) (x >>= f) b (vs ++ us) := by
  refine ⟨?_, ?_, h.pushed.trans h'.pushed⟩
  · rw [Machine.run_append, h.run, Option.bind_some, h'.run]
  · show (x m.effects).bind (fun (a, fx) => f a fx) = _
    rw [h.eval, Option.bind_some]
    exact h'.eval

theorem Realises.map (h : c.Realises m m' is x a vs) (f : α → β) :
    c.Realises m m' is (x >>= fun a => pure (f a)) (f a) vs := by
  refine ⟨h.run, ?_, h.pushed⟩
  show (x m.effects).bind (fun (a, fx) => some (f a, fx)) = _
  rw [h.eval, Option.bind_some]

/-- An instruction that pushes a value. -/
theorem realises_push {i : Instr} {v : Value}
    (h : m.step c.calls i = some (m.push (.value v))) :
    c.Realises m (m.push (.value v)) [i] (pure v) v [v] := by
  refine ⟨?_, rfl, m.pushed_value v⟩
  rw [Machine.run_cons, h]
  rfl

/-! ## Expressions -/

variable {slots : List Operand} {p : Pool}

theorem realises_literal (hc : c.Matches slots p) (value : Literal) (m : Machine World) :
    c.Realises m (m.push (.value (value.value c.reals))) [value.instr.stored p]
      (pure (value.value c.reals)) (value.value c.reals) [value.value c.reals] := by
  apply realises_push
  cases value with
  | int v =>
    have hstored : p.stored (.int v) = .int v := p.stored_eq (by simp)
    simp only [Literal.instr, Instr.stored, hstored]
    rfl
  | real v =>
    simp only [Literal.instr, Instr.stored, p.stored_real v, ← hc.reals]
    rfl
  | string v =>
    have hstored : p.stored (.ofString v) = .ofString v := p.stored_eq (by simp [Constant.ofString])
    simp only [Literal.instr, Instr.stored, hstored]
    rfl
  | bool v => rfl
  | unit => rfl

theorem step_load (hc : c.Matches slots p) (hm : m.slots = slots) {name : String} {v : LocalVar}
    (hv : c.env.scope.get? name = some v) :
    ∃ x, c.args name = some x ∧ x.HasTy v.ty ∧
      m.step c.calls (.load (.ofTy v.ty) v.slot) = some (m.push (.value x)) := by
  obtain ⟨x, hx, hslot, hty⟩ := hc.args hv
  refine ⟨x, hx, hty, ?_⟩
  rw [Machine.step, hm, hslot]
  rfl

/-- The elements of a pair are evaluated between its creation and its filling. -/
theorem realises_pair {kind : PairKind} {x y : Eval World Value} {u v : Value}
    (hx : c.Realises (m.newPair kind) m₁ is x u [u]) (hy : c.Realises m₁ m₂ js y v [v]) :
    ∃ m', c.Realises m m' (.newPair kind :: .dup :: (is ++ (js ++ [.initPair kind])))
      (do let u ← x; let v ← y; pure (Value.pair kind u v)) (.pair kind u v)
      [.pair kind u v] := by
  have heval : (do let u ← x; let v ← y; pure (Value.pair kind u v) : Eval World Value) m.effects =
      some (.pair kind u v, m₂.effects) := by
    show (x (m.newPair kind).effects).bind _ = _
    rw [hx.eval, Option.bind_some]
    exact (hy.map fun v => Value.pair kind u v).eval
  obtain ⟨m', hstep, heffects, hpushed⟩ :=
    Machine.step_initPair (I := c.calls) (hx.pushed.trans hy.pushed)
  refine ⟨m', ?_, ?_, hpushed⟩
  · rw [Machine.run_newPair, Machine.run_append, hx.run, Option.bind_some, Machine.run_append,
      hy.run, Option.bind_some, Machine.run_cons, hstep]
    rfl
  · rw [heffects]
    exact heval

/-- A call takes the values of its arguments, and leaves one if its callee gives one. -/
theorem Realises.call {name : String} {s : Signature} {x : Eval World (List Value)}
    (h : c.Realises m m₁ is x vs vs.reverse) (hs : c.env.functions.get? name = some s)
    (harity : s.arity < 256) (hlength : vs.length = s.params.length) :
    ∃ v m', c.Realises m m' (is ++ [.call s.hash (UInt8.ofNat s.arity)])
        (do let vs ← x; c.call s vs) v (s.value?.toList.map fun _ => v) ∧
      (s.value?.getD .unit = .unit → v = .unit) := by
  have hcount : (UInt8.ofNat s.arity).toNat = vs.length := by
    rw [UInt8.toNat_ofNat', Nat.mod_eq_of_lt harity, hlength]
    rfl
  have hstep := Machine.step_call (I := c.calls) h.pushed hcount s.hash
  have hsome := c.calls.isSome_call hs vs m₁.effects
  rcases hcall : c.calls.call s.hash vs m₁.effects with ⟨v?, fx⟩
  simp only [hcall] at hstep hsome
  let m' : Machine World := { m₁ with stack := v?.toList.map .value ++ m.stack, effects := fx }
  have hrun : m.run c.calls (is ++ [.call s.hash (UInt8.ofNat s.arity)]) = some m' := by
    rw [Machine.run_append, h.run, Option.bind_some, Machine.run_cons, hstep]
    rfl
  have heval : (do let vs ← x; c.call s vs : Eval World Value) m.effects =
      some (v?.getD .unit, m'.effects) := by
    show (x m.effects).bind _ = _
    rw [h.eval, Option.bind_some]
    show (c.call s vs) m₁.effects = _
    simp only [Setting.call, hcall]
    rfl
  have hslots := h.pushed.slots
  have hheap := h.pushed.heap
  cases v? with
  | none =>
    have hvalue : s.value? = none := by simpa [Signature.value?] using hsome
    rw [hvalue]
    exact ⟨.unit, m', ⟨hrun, heval, hslots, hheap, [], rfl, .nil⟩, fun _ => rfl⟩
  | some v =>
    have hresult : s.result.isUnit = false := by simpa using hsome
    have hvalue : s.value? = some s.result := by simp [Signature.value?, hresult]
    rw [hvalue]
    refine ⟨v, m', ⟨hrun, heval, hslots, hheap, [.value v], rfl, .cons rfl .nil⟩, ?_⟩
    intro hunit
    rw [Ty.isUnit, beq_eq_false_iff_ne] at hresult
    exact absurd hunit hresult

private theorem realises_operand_of {e : Expr} {ms : List Emitted} {t : Ty}
    (ih : ∀ {ms t?}, ExprCode c.env e ms t? → ∀ m : Machine World, m.slots = slots →
      ∃ v m', c.Realises m m' (p.listing ms) (e.eval c) v (t?.toList.map fun _ => v) ∧
        (t?.getD .unit = .unit → v = .unit))
    (h : OperandCode c.env e ms t) (m : Machine World) (hm : m.slots = slots) :
    ∃ v m', c.Realises m m' (p.listing ms) (e.eval c) v [v] ∧ (t = .unit → v = .unit) := by
  cases h with
  | value h => exact ih h m hm
  | unit h =>
    obtain ⟨v, m', hv, hunit⟩ := ih h m hm
    obtain rfl := hunit rfl
    have hpush : c.Realises m' (m'.push (.value .unit)) [.unit] (pure Value.unit) .unit [.unit] :=
      realises_push rfl
    refine ⟨.unit, m'.push (.value .unit), ?_, fun _ => rfl⟩
    have hboth := hv.bind (f := pure) hpush
    rw [bind_pure] at hboth
    rw [Pool.listing_append]
    exact hboth

mutual

/-- The code of an expression realises its evaluation, and pushes the value unless there is none to
push.  Where the expression is of the unit type its value is the unit value. -/
theorem realises_expr (hc : c.Matches slots p) : ∀ (e : Expr) {ms : List Emitted}
    {t? : Option Ty}, ExprCode c.env e ms t? → ∀ m : Machine World, m.slots = slots →
      ∃ v m', c.Realises m m' (p.listing ms) (e.eval c) v (t?.toList.map fun _ => v) ∧
        (t?.getD .unit = .unit → v = .unit)
  | .literal value _ _, _, _, h, m, hm => by
    cases h
    let v := value.value c.reals
    refine ⟨v, m.push (.value v), ?_, fun hunit => ?_⟩
    · rw [Expr.eval]
      exact realises_literal hc value m
    · cases value with
      | unit => rfl
      | _ => cases hunit
  | .pair first second text span, _, _, h, m, hm => by
    have htype := ExprCode.typeOf _ h
    cases h with
    | @pair _ _ ms ns t _ _ hfirst hsecond =>
      obtain ⟨u, m₁, hu, -⟩ := realises_operand_of (fun h => realises_expr hc first h) hfirst
        (m.newPair (.ofTy t.paired)) hm
      have hslots : m₁.slots = slots := hu.pushed.slots.trans hm
      obtain ⟨v, m₂, hv, -⟩ := realises_operand_of (fun h => realises_expr hc second h) hsecond
        m₁ hslots
      obtain ⟨m', hpair⟩ := realises_pair hu hv
      refine ⟨.pair (.ofTy t.paired) u v, m', ?_, fun hunit => absurd hunit t.paired_ne_unit⟩
      rw [Expr.eval, htype, Pool.listing_cons, Pool.listing_cons, Pool.listing_append,
        Pool.listing_append]
      exact hpair
  | .var name, _, _, h, m, hm => by
    rw [Expr.eval]
    cases h with
    | arg hv =>
      obtain ⟨x, hx, hty, hstep⟩ := step_load hc hm hv
      refine ⟨x, m.push (.value x), ?_, hty.eq_unit⟩
      rw [hx]
      exact realises_push hstep
    | @function _ s hv hs =>
      refine ⟨.fn s.toValue, m.push (.value (.fn s.toValue)), ?_, fun hunit => nomatch hunit⟩
      rw [hc.functions hv, hs]
      exact realises_push rfl
  | .placeholder _, _, _, h, m, hm => by
    rw [Expr.eval]
    cases h with
    | placeholder _ hv hreal =>
      obtain ⟨x, hx, hty, hstep⟩ := step_load hc hm hv
      refine ⟨x, m.push (.value x), ?_, hty.eq_unit⟩
      rw [hx]
      exact realises_push hstep
  | .lambda _ _ _, _, _, h, m, hm => by
    rw [Expr.eval]
    cases h with
    | @lambda _ _ s _ hs _ _ =>
      refine ⟨.fn s.toValue, m.push (.value (.fn s.toValue)), ?_, fun hunit => nomatch hunit⟩
      rw [hs]
      exact realises_push rfl
  | .call callee args text span, _, _, h, m, hm => by
    cases h with
    | @call _ _ s ms _ _ hs harity hargs =>
      obtain ⟨vs, m₁, hvs, hlength⟩ := realises_args hc args hargs m hm
      rw [Expr.eval, hs, Pool.listing_append]
      exact hvs.call hs harity hlength

/-- The code of arguments realises their evaluation, and pushes a value for each parameter. -/
theorem realises_args (hc : c.Matches slots p) : ∀ (es : List Expr) {ps : List Param}
    {ms : List Emitted}, ArgsCode c.env ps es ms → ∀ m : Machine World, m.slots = slots →
      ∃ vs m', c.Realises m m' (p.listing ms) (Expr.evalArgs c ps es) vs vs.reverse ∧
        vs.length = ps.length
  | [], _, _, h, m, hm => by
    cases h
    rw [Expr.evalArgs]
    exact ⟨[], m, ⟨rfl, rfl, .refl m⟩, rfl⟩
  | e :: es, _, _, h, m, hm => by
    cases h with
    | @value q ps _ _ ms ns he hes =>
      obtain ⟨v, m₁, hv, -⟩ := realises_operand_of (fun h => realises_expr hc e h) he m hm
      obtain ⟨vs, m₂, hvs, hlength⟩ := realises_args hc es hes m₁ (hv.pushed.slots.trans hm)
      refine ⟨v :: vs, m₂, ?_, by simp [hlength]⟩
      rw [Expr.evalArgs, if_pos he.typeOf, Pool.listing_append, List.reverse_cons]
      exact hv.bind (hvs.map (v :: ·))
    | @wrapped q ps _ _ ns params result s hq he hs hes =>
      have hne : ¬ e.typeOf c.env.functions c.env.scope = some q.ty := by
        intro htype
        rw [he, hq] at htype
        have hsize := congrArg sizeOf (Option.some.inj htype)
        simp at hsize
      let v : Value := .fn s.toValue
      have hv : c.Realises m (m.push (.value v)) [.bind s.toValue] (liftM (c.wrapped q e)) v [v] := by
        rw [wrapped, hs]
        exact realises_push rfl
      obtain ⟨vs, m₂, hvs, hlength⟩ := realises_args hc es hes _ (hv.pushed.slots.trans hm)
      refine ⟨v :: vs, m₂, ?_, by simp [hlength]⟩
      rw [Expr.evalArgs, if_neg hne, List.reverse_cons]
      exact hv.bind (hvs.map (v :: ·))

end

theorem realises_operand (hc : c.Matches slots p) {e : Expr} {ms : List Emitted} {t : Ty}
    (h : OperandCode c.env e ms t) (m : Machine World) (hm : m.slots = slots) :
    ∃ v m', c.Realises m m' (p.listing ms) (e.eval c) v [v] ∧ (t = .unit → v = .unit) :=
  realises_operand_of (fun h => realises_expr hc e h) h m hm

/-! ## Bodies -/

/-- A return gives the value on top, or the unit value if that is all the function returns. -/
theorem exec_returnCode (result : Ty) {t : Ty} {v : Value} (hpushed : m.Pushed m' [v])
    (hunit : t = .unit → v = .unit) (is : List Instr) :
    m'.exec c.calls (p.listing (returnCode result t) ++ is) =
      some (result.returned v, m'.effects) := by
  obtain ⟨o, hstack, hv⟩ := hpushed.single
  unfold returnCode
  by_cases hresult : result = .unit
  · by_cases ht : t = .unit
    · obtain rfl := hunit ht
      have hcode : (result.isUnit && !t.isUnit) = false := by simp [Ty.isUnit, ht]
      have hreturned : result.returned .unit = .unit := by simp [Ty.returned]
      rw [hcode, hreturned]
      exact Machine.exec_ret hstack hv _ _
    · have hcode : (result.isUnit && !t.isUnit) = true := by simp [Ty.isUnit, ht, hresult]
      have hreturned : result.returned v = .unit := by simp [Ty.returned, Ty.isUnit, hresult]
      have hpop : m'.step c.calls .pop = some { m' with stack := m.stack } := by
        rw [Machine.step, hstack]
      rw [hcode, hreturned]
      show m'.exec c.calls ([.pop, .unit] ++ (.ret _ :: is)) = _
      have hrun : m'.run c.calls [.pop, .unit] =
          some (Machine.push { m' with stack := m.stack } (.value .unit)) := by
        rw [Machine.run_cons, hpop]
        rfl
      rw [Machine.exec_append hrun]
      rfl
  · have hcode : (result.isUnit && !t.isUnit) = false := by simp [Ty.isUnit, hresult]
    have hreturned : result.returned v = v := by simp [Ty.returned, Ty.isUnit, hresult]
    rw [hcode, hreturned]
    exact Machine.exec_ret hstack hv _ _

/-- The code of a body returns what the body evaluates to. -/
theorem exec_body (hc : c.Matches slots p) {result : Ty} {ss : List Stmt} {ms : List Emitted}
    (h : BodyCode c.env result ss ms) : ∀ m : Machine World, m.slots = slots →
      ∃ r, m.exec c.calls (p.listing ms) = some r ∧
        Stmt.evalAll c result ss m.effects = some r := by
  induction h with
  | empty hresult =>
    intro m hm
    exact ⟨(.unit, m.effects), rfl, rfl⟩
  | ret _ he _ | last he _ =>
    intro m hm
    obtain ⟨v, m', hv, hunit⟩ := realises_operand hc he m hm
    have hreturn := exec_returnCode (c := c) (p := p) result hv.pushed hunit []
    refine ⟨(result.returned v, m'.effects), ?_, ?_⟩
    · rw [List.append_nil] at hreturn
      rw [Pool.listing_append, Machine.exec_append hv.run, hreturn]
    · exact (hv.map result.returned).eval
  | @retThen e ms ns _ _ _ _ he _ _ _ =>
    intro m hm
    obtain ⟨v, m', hv, hunit⟩ := realises_operand hc he m hm
    have hreturn := exec_returnCode (c := c) (p := p) result hv.pushed hunit (p.listing ns)
    refine ⟨(result.returned v, m'.effects), ?_, ?_⟩
    · rw [Pool.listing_append, Pool.listing_append, List.append_assoc,
        Machine.exec_append hv.run, hreturn]
    · exact (hv.map result.returned).eval
  | @exprThen e ms ns t? s ss he _ ih =>
    intro m hm
    obtain ⟨v, m', hv, -⟩ := realises_expr hc e he m hm
    have hpops : ∃ m'', m'.run c.calls (p.listing (t?.toList.map fun _ => .of .pop)) = some m'' ∧
        m''.slots = slots ∧ m''.effects = m'.effects := by
      have hslots := hv.pushed.slots.trans hm
      cases t? with
      | none => exact ⟨m', rfl, hslots, rfl⟩
      | some t =>
        obtain ⟨o, hstack, -⟩ := hv.pushed.single
        refine ⟨{ m' with stack := m.stack }, ?_, hslots, rfl⟩
        show (m'.step c.calls .pop).bind _ = _
        rw [Machine.step, hstack]
        rfl
    obtain ⟨m'', hpop, hslots, heffects⟩ := hpops
    obtain ⟨r, hexec, heval⟩ := ih m'' hslots
    refine ⟨r, ?_, ?_⟩
    · rw [Pool.listing_append, Pool.listing_append, List.append_assoc,
        Machine.exec_append hv.run, Machine.exec_append hpop, hexec]
    · show ((e.eval c) m.effects).bind _ = _
      rw [hv.eval, Option.bind_some]
      rw [heffects] at heval
      exact heval

end Setting

/-! ## Reals -/

section Reals

variable {c : Setting World} {reals : Binary64 → Binary64}

mutual

/-- Only the reals that an expression writes matter to its evaluation. -/
theorem Expr.eval_congr : ∀ e : Expr,
    (∀ x text span, .literal (.real x) text span ∈ e.subexprs → c.reals x = reals x) →
      e.eval c = e.eval { c with reals }
  | .literal value text span, h => by
    rw [Expr.eval, Expr.eval]
    cases value with
    | real x =>
      have hx := h x text span (by simp [Expr.subexprs])
      simp only [Literal.value, hx]
    | _ => rfl
  | .pair first second _ _, h => by
    have hfirst := Expr.eval_congr first fun x text span hx =>
      h x text span (by simp [Expr.subexprs, hx])
    have hsecond := Expr.eval_congr second fun x text span hx =>
      h x text span (by simp [Expr.subexprs, hx])
    rw [Expr.eval, Expr.eval, hfirst, hsecond]
  | .var _, _ => by rw [Expr.eval, Expr.eval]
  | .placeholder _, _ => by rw [Expr.eval, Expr.eval]
  | .lambda _ _ _, _ => by rw [Expr.eval, Expr.eval]
  | .call callee args _ _, h => by
    have hargs (ps : List Param) := Expr.evalArgs_congr args ps fun x text span hx =>
      h x text span (by simp [Expr.subexprs, hx])
    rw [Expr.eval, Expr.eval]
    simp only [hargs]
    rfl

theorem Expr.evalArgs_congr : ∀ (es : List Expr) (ps : List Param),
    (∀ x text span, .literal (.real x) text span ∈ Expr.subexprsAll es → c.reals x = reals x) →
      Expr.evalArgs c ps es = Expr.evalArgs { c with reals } ps es
  | [], _, _ => by rw [Expr.evalArgs, Expr.evalArgs]
  | e :: es, ps, h => by
    have he := Expr.eval_congr e fun x text span hx =>
      h x text span (by simp [Expr.subexprsAll, hx])
    have hes (ps : List Param) := Expr.evalArgs_congr es ps fun x text span hx =>
      h x text span (by simp [Expr.subexprsAll, hx])
    cases ps with
    | nil => rfl
    | cons p ps =>
      rw [Expr.evalArgs, Expr.evalArgs, he, hes]
      rfl

end

theorem Stmt.evalAll_congr (result : Ty) : ∀ ss : List Stmt,
    (∀ x text span, .literal (.real x) text span ∈ Stmt.exprsAll ss → c.reals x = reals x) →
      Stmt.evalAll c result ss = Stmt.evalAll { c with reals } result ss
  | [], _ => rfl
  | .decl _ _ _ :: _, _ => rfl
  | .ret e _ :: ss, h => by
    have he := Expr.eval_congr e fun x text span hx =>
      h x text span (by simp [Stmt.exprsAll, Stmt.exprs, hx])
    rw [Stmt.evalAll, Stmt.evalAll, he]
  | .expr e :: ss, h => by
    have he := Expr.eval_congr e fun x text span hx =>
      h x text span (by simp [Stmt.exprsAll, Stmt.exprs, hx])
    have hss := Stmt.evalAll_congr result ss fun x text span hx =>
      h x text span (by simp [Stmt.exprsAll, hx])
    rw [Stmt.evalAll, Stmt.evalAll, he]
    cases ss with
    | nil => rfl
    | cons s ss => simp only [hss]

end Reals

/-! ## Modules -/

namespace Block

variable (block : Block) (functions : FunctionTable) (options : Options)

/-- Whether a block writes no two reals that are one constant, such as the two zeros. -/
def DistinctReals : Prop :=
  ∀ ⦃x y⦄, block.WritesReal x → block.WritesReal y → Constant.Same (.real x) (.real y) → x = y

/-- The setting of a function in the module of a block, where it has these arguments. -/
def setting (calls : Interpretation functions World) (reals : Binary64 → Binary64) (s : Signature)
    (args : List Value) : Setting World where
  env := ⟨functions, .ofParams s.params, (block.walk functions options).table.get?,
    (block.session functions options).wrapper?⟩
  calls := calls
  reals := reals
  args name := ((s.params.map Param.name).zip args).lookup name

variable {block functions}

theorem lookup_zip {names : List String} (hnames : names.Nodup) {vs : List Value} {i : Nat}
    {name : String} {v : Value} (hname : names[i]? = some name) (hv : vs[i]? = some v) :
    (names.zip vs).lookup name = some v := by
  induction names generalizing vs i with
  | nil => cases hname
  | cons name' names ih =>
    cases vs with
    | nil => cases hv
    | cons v' vs =>
      rw [List.nodup_cons] at hnames
      rw [List.zip_cons_cons, List.lookup_cons]
      cases i with
      | zero =>
        cases hname
        cases hv
        simp
      | succ i =>
        rw [List.getElem?_cons_succ] at hname hv
        have hne : name ≠ name' := by
          rintro rfl
          exact hnames.1 (List.mem_of_getElem? hname)
        rw [beq_false_of_ne hne]
        exact ih hnames.2 hname hv

/-- Arguments of the declared types are where code looks for them. -/
theorem setting_matches {calls : Interpretation functions World} {s : Signature} {vs : List Value}
    (hnames : (s.params.map Param.name).Nodup) (harity : s.params.length ≤ Scope.slotLimit)
    (hvs : List.Forall₂ (fun q v => Value.HasTy v q.ty) s.params vs) (p : Pool) :
    (block.setting functions options calls p.storedReal s vs).Matches (vs.map .value) p := by
  refine ⟨fun {name v} hget => ?_, fun {name} hget => ?_, rfl⟩
  · have hparam := Scope.getElem?_slot harity hget
    have hname : (s.params.map Param.name)[v.slot.toNat]? = some name := by
      rw [List.getElem?_map, hparam, Option.map_some]
    obtain ⟨x, hx, hty⟩ : ∃ x, vs[v.slot.toNat]? = some x ∧ x.HasTy v.ty := by
      obtain ⟨hi, hq⟩ := List.getElem?_eq_some_iff.1 hparam
      have hi' : v.slot.toNat < vs.length := hvs.length_eq ▸ hi
      have hty := hvs.get hi hi'
      simp only [List.get_eq_getElem, hq] at hty
      exact ⟨_, List.getElem?_eq_getElem hi', hty⟩
    refine ⟨x, lookup_zip hnames hname hx, ?_, hty⟩
    rw [List.getElem?_map, hx, Option.map_some]
  · have hne := Scope.get?_ofParams_eq_none hget
    show ((s.params.map Param.name).zip vs).lookup name = none
    rw [List.lookup_eq_none_iff]
    intro q hq
    obtain ⟨p, hp, hpq⟩ := List.mem_map.1 (List.of_mem_zip hq).1
    have := hne p hp
    simp [← hpq, Ne.symm this]

/-- Where a block writes no two reals that are one constant, the pool has each of them as it is. -/
theorem storedReal_eq (hfaithful : block.TextFaithful) (hreals : block.DistinctReals)
    {x : Binary64} (hx : block.WritesReal x) :
    (compileBlock functions options block).module.pool.storedReal x = x := by
  have hsound : (block.session functions options).Sound _ :=
    (sound_session options hfaithful).1
  rw [module_compileBlock]
  have hstored := (block.session functions options).pool.stored_real x
  have hsame := (block.session functions options).pool.same_stored (.real x)
  rw [hstored] at hsame
  unfold Pool.stored at hstored
  cases hfind : (block.session functions options).pool.find? (.real x) with
  | none =>
    rw [hfind] at hstored
    exact (Constant.real.inj hstored).symm
  | some i =>
    obtain ⟨d, hd, _⟩ := Pool.same_of_find? hfind
    rw [hfind, Option.bind_some, hd, Option.getD_some] at hstored
    rw [hstored] at hd
    exact hreals (hsound.reals hd) hx hsame

/-- The expressions of a body that a function comes from are expressions of the block. -/
theorem HasSource.mem_exprs {s : Signature} {body : List Stmt}
    (h : block.HasSource functions options s body) :
    ∀ e ∈ Stmt.exprsAll body, e ∈ block.exprs := by
  cases h with
  | decl hd _ => exact mem_exprs_of_mem_decls (compiled_subset options hd)
  | lambda he _ =>
    intro e hmem
    rw [Stmt.exprsAll, Stmt.exprs, Stmt.exprsAll, List.append_nil] at hmem
    exact mem_exprs_of_mem_subexprs hmem (body_mem_exprs he)
  | wrapper he _ =>
    intro e hmem
    rw [Stmt.exprsAll, Stmt.exprs, Stmt.exprsAll, List.append_nil] at hmem
    exact mem_exprs_of_mem_subexprs hmem he

end Block

/-- Executing the code of a function, from any world and with any arguments of the declared types,
makes the calls and returns the value that evaluating its body does, where a real literal stands for
the real that the pool has in its place.  If the block writes no two reals that are one constant, then
a real literal stands for itself. -/
theorem execution_preserves_meaning {block : Block} {functions : FunctionTable} (options : Options)
    (hfaithful : block.TextFaithful)
    (hsize : (compileBlock functions options block).module.pool.size ≤ 65536)
    (calls : Interpretation functions World) :
    ∀ entry ∈ (compileBlock functions options block).module.functions,
      ∃ chunk is, entry.code? = some chunk ∧
        chunk.listing? (compileBlock functions options block).module.pool = some is ∧
        (∃ body, block.HasSource functions options entry.signature body) ∧
        ∀ body, block.HasSource functions options entry.signature body →
          ∀ args, List.Forall₂ (fun q v => Value.HasTy v q.ty) entry.signature.params args →
            ∀ fx : Effects World, ∃ r, (Machine.start args fx).exec calls is = some r ∧
              Stmt.evalAll (block.setting functions options calls
                (compileBlock functions options block).module.pool.storedReal entry.signature args)
                entry.signature.result body fx = some r ∧
              (block.DistinctReals → Stmt.evalAll (block.setting functions options calls id
                entry.signature args) entry.signature.result body fx = some r) := by
  intro entry hentry
  obtain ⟨chunk, hchunk, ⟨body, hbody⟩, hcompiled⟩ := Block.code_of_mem options hfaithful hentry
  obtain ⟨-, -, ms, hms, hinterned, hcode⟩ := hcompiled hbody
  have hlisting := Chunk.listing?_of_code hcode hinterned.instrs hsize
  refine ⟨chunk, _, hchunk, hlisting, ⟨body, hbody⟩, fun body' hbody' args hargs fx => ?_⟩
  obtain ⟨hnames, harity, ms', hms', hinterned', hcode'⟩ := hcompiled hbody'
  have hlisting' := Chunk.listing?_of_code hcode' hinterned'.instrs hsize
  have hsame := Option.some.inj (hlisting.symm.trans hlisting')
  have hmatches : (block.setting functions options calls
      (compileBlock functions options block).module.pool.storedReal entry.signature args).Matches
      (args.map .value) (compileBlock functions options block).module.pool :=
    Block.setting_matches options hnames harity hargs _
  obtain ⟨r, hexec, heval⟩ := Setting.exec_body hmatches hms' (Machine.start args fx) rfl
  rw [hsame]
  refine ⟨r, hexec, heval, fun hreals => ?_⟩
  have hcongr : Stmt.evalAll (block.setting functions options calls id entry.signature args)
      entry.signature.result body' =
      Stmt.evalAll (block.setting functions options calls
        (compileBlock functions options block).module.pool.storedReal entry.signature args)
        entry.signature.result body' := by
    apply Stmt.evalAll_congr
    intro x text span hx
    have hwrites : block.WritesReal x := ⟨text, span, hbody'.mem_exprs options _ hx⟩
    exact (Block.storedReal_eq options hfaithful hreals hwrites).symm
  rw [hcongr]
  exact heval

/-- The body of a function with one argument: it is passed to `tick`, whose result is the unit value, and
then twice to `add`. -/
def tickBody : List Stmt :=
  let x : Expr := .var ⟨"x", default⟩
  [.expr (.call ⟨"tick", default⟩ [x] "tick(x)" default),
    .ret (.call ⟨"add", default⟩ [x, x] "add(x,x)" default) default]

/-- A block that declares the function `f` with this body. -/
def tickBlock : Block := ⟨[.decl ⟨"f", default⟩ tickBody default]⟩

/-- The signature of `f`. -/
def tickSignature : Signature := ⟨"f", [⟨"x", .int⟩], .int, "Main", false⟩

/-- The functions that `tickBlock` refers to. -/
def tickFunctions : FunctionTable :=
  .ofList [tickSignature, ⟨"tick", [⟨"n", .int⟩], .unit, "Main", false⟩,
    ⟨"add", [⟨"a", .int⟩, ⟨"b", .int⟩], .int, "Main", false⟩]

theorem distinctHashes_tickFunctions : tickFunctions.DistinctHashes := by
  unfold FunctionTable.DistinctHashes
  decide +kernel

theorem textFaithful_tickBlock : tickBlock.TextFaithful := by
  intro e he e' he' htext
  simp only [tickBlock, tickBody, Block.exprs, Stmt.exprsAll, Stmt.exprs, Expr.subexprs, Expr.subexprsAll,
    List.append_nil, List.cons_append, List.nil_append, List.mem_cons, List.not_mem_nil, or_false] at he he'
  rcases he with rfl | rfl | rfl | rfl | rfl <;> rcases he' with rfl | rfl | rfl | rfl | rfl <;>
    first | rfl | simp [Expr.text] at htext

/-- The world counts the calls, and a call with two integers gives their sum. -/
def tickCalls : Interpretation tickFunctions Nat :=
  .ofHashes distinctHashes_tickFunctions fun _ args world =>
    (world + 1,
      match args with
      | [.int a, .int b] => .int (a + b)
      | _ => .unit)

/-- With the argument 21 the code of `f` makes the two calls, the first with 21 and the second with 21 and
21, and returns 42, and so does its body. -/
theorem execution_preserves_meaning_tickBlock :
    ∃ entry ∈ (compileBlock tickFunctions {} tickBlock).module.functions,
      entry.signature = tickSignature ∧ ∃ chunk is, entry.code? = some chunk ∧
        chunk.listing? (compileBlock tickFunctions {} tickBlock).module.pool = some is ∧
        ∃ r, (Machine.start [.int 21] ⟨0, []⟩).exec tickCalls is = some r ∧
          Stmt.evalAll (tickBlock.setting tickFunctions {} tickCalls id entry.signature [.int 21])
            entry.signature.result tickBody ⟨0, []⟩ = some r ∧
          r.1 = .int 42 ∧ r.2.world = 2 ∧
          r.2.calls.map Prod.snd = [[.int 21], [.int 21, .int 21]] := by
  have hsize : (compileBlock tickFunctions {} tickBlock).module.pool.size = 2 := by
    decide +kernel
  have hentry : ((compileBlock tickFunctions {} tickBlock).module.function? "f").map
      Entry.signature = some tickSignature := by
    decide +kernel
  obtain ⟨entry, hfound, hsignature⟩ := Option.map_eq_some_iff.1 hentry
  have hmem := Module.mem_of_function? hfound
  have hsource : tickBlock.HasSource tickFunctions {} entry.signature tickBody := by
    have hnames : (tickBlock.compiled tickFunctions {}).map (·.name.name) = ["f"] := by decide +kernel
    obtain ⟨d, hd, -⟩ := List.mem_map.1 (hnames ▸ List.mem_singleton_self "f")
    obtain rfl := List.mem_singleton.1 (Block.compiled_subset {} hd)
    have hknown : tickFunctions.get? "f" = some tickSignature := by decide +kernel
    rw [hsignature]
    exact Block.hasSource_of_compiled {} hd hknown
  have hreals : tickBlock.DistinctReals := by
    rintro x y ⟨text, span, hx⟩
    simp [tickBlock, tickBody, Block.exprs, Stmt.exprsAll, Stmt.exprs, Expr.subexprs,
      Expr.subexprsAll] at hx
  have hargs : List.Forall₂ (fun (q : Param) v => Value.HasTy v q.ty) entry.signature.params
      [.int 21] := by
    rw [hsignature]
    exact .cons (.int 21) .nil
  obtain ⟨chunk, is, hchunk, hlisting, -, hruns⟩ := execution_preserves_meaning {}
    textFaithful_tickBlock (by omega) tickCalls entry hmem
  obtain ⟨r, hexec, -, heval⟩ := hruns _ hsource [.int 21] hargs ⟨0, []⟩
  have hresult : (Stmt.evalAll (tickBlock.setting tickFunctions {} tickCalls id entry.signature [.int 21])
      entry.signature.result tickBody ⟨0, []⟩).map (fun r => (r.1, r.2.world, r.2.calls.map Prod.snd)) =
        some (.int 42, 2, [[.int 21], [.int 21, .int 21]]) := by
    rw [hsignature]
    decide +kernel
  rw [heval hreals, Option.map_some, Option.some.injEq, Prod.mk.injEq, Prod.mk.injEq] at hresult
  obtain ⟨hvalue, hworld, hcalls⟩ := hresult
  exact ⟨entry, hmem, hsignature, chunk, is, hchunk, hlisting, r, hexec, heval hreals, hvalue, hworld,
    hcalls⟩

/-- A block whose function evaluates `0.0` and then returns `-0.0`. -/
def zerosBlock : Block :=
  ⟨[.decl ⟨"f", default⟩
    [.expr (.literal (.real ⟨0⟩) "0.0" default),
      .ret (.literal (.real ⟨0x8000000000000000⟩) "-0.0" default) default] default]⟩

-- The pool has one zero, which is the first, so the code returns it.
example :
    let compiled := (compileBlock (.ofList [⟨"f", [], .real, "Main", false⟩]) {} zerosBlock).module
    (compiled.code? "f").bind (·.listing? compiled.pool) =
      some [.push (.real ⟨0⟩), .pop, .push (.real ⟨0⟩), .ret .real] := by
  decide +kernel

end BlockCompiler
