import BlockCompiler.CodeGen.Expr
import BlockCompiler.Proofs.Emission
import BlockCompiler.Proofs.StaticTypes

/-!
# The translation as rules

Code generation is a run through many states.  What it does to an expression can be said without any:
an expression in some surroundings has this code and leaves a value of this type, or none.  A
`CodeEnv` is the surroundings, and the rules are `ExprCode`, `OperandCode`, `ArgsCode` and `BodyCode`.

* `ExprCode.typeOf` says that the rules give an expression the type that it has by itself.
* `ExprCode.mono` says that a translation survives when more anonymous functions and more wrapped
  constants become known.
* `ExprCode.of_eraseSpans_eq` says that equal expressions have one translation, wherever they stand.

The implicit return of a last expression needs no rule of its own form: its code is that of a return
statement.
-/

namespace BlockCompiler

/-- What the code of an expression depends on. -/
structure CodeEnv where
  functions : FunctionTable
  /-- The arguments that names may refer to. -/
  scope : Scope
  /-- The anonymous functions that were compiled, by their texts. -/
  lambdas : String → Option Signature
  /-- The constants that were wrapped, by their keys. -/
  wrappers : String → Option Signature

/-- The instruction that pushes a literal. -/
def Literal.instr : Literal → Instr
  | int v => .push (.int v)
  | real v => .push (.real v)
  | bool v => .bool v
  | string v => .push (.ofString v)
  | unit => .unit

/-- The type of the value that a call leaves, if it leaves one. -/
def Signature.value? (s : Signature) : Option Ty := if s.result.isUnit then none else some s.result

mutual

/-- An expression has this code, which leaves a value of this type, or none. -/
inductive ExprCode (env : CodeEnv) : Expr → List Emitted → Option Ty → Prop where
  | literal (value : Literal) (text : String) (span : Span) :
    ExprCode env (.literal value text span) [.of value.instr] (some value.ty)
  | pair {first second : Expr} {ms ns : List Emitted} {t : Ty} (text : String) (span : Span)
    (hfirst : OperandCode env first ms t) (hsecond : OperandCode env second ns t) :
    ExprCode env (.pair first second text span)
      (.of (.newPair (.ofTy t.paired)) :: .of .dup ::
        (ms ++ (ns ++ [.of (.initPair (.ofTy t.paired))])))
      (some t.paired)
  | arg {name : Ident} {v : LocalVar} (hv : env.scope.get? name.name = some v) :
    ExprCode env (.var name) [.of (.load (.ofTy v.ty) v.slot)] (some v.ty)
  | function {name : Ident} {s : Signature} (hv : env.scope.get? name.name = none)
    (hs : env.functions.get? name.name = some s) :
    ExprCode env (.var name) [.of (.bind s.toValue)] (some s.toTy)
  | placeholder {v : LocalVar} (span : Span)
    (hv : env.scope.get? Expr.placeholderText = some v) (hreal : v.ty = .real) :
    ExprCode env (.placeholder span) [.of (.load (.ofTy v.ty) v.slot)] (some v.ty)
  | lambda {body : Expr} {text : String} {s : Signature} (span : Span)
    (hs : env.lambdas text = some s) (hparams : s.paramTypes = [.real])
    (hbody : body.typeOf env.functions .empty = some s.result) :
    ExprCode env (.lambda body text span) [.of (.bind s.toValue)] (some s.toTy)
  | call {callee : Ident} {args : List Expr} {s : Signature} {ms : List Emitted} (text : String)
    (span : Span) (hs : env.functions.get? callee.name = some s) (harity : s.arity < 256)
    (hargs : ArgsCode env s.params args ms) :
    ExprCode env (.call callee args text span) (ms ++ [.call s]) s.value?

/-- An expression whose value is wanted has this code, which leaves a value of this type. -/
inductive OperandCode (env : CodeEnv) : Expr → List Emitted → Ty → Prop where
  | value {e : Expr} {ms : List Emitted} {t : Ty} (h : ExprCode env e ms (some t)) :
    OperandCode env e ms t
  | unit {e : Expr} {ms : List Emitted} (h : ExprCode env e ms none) :
    OperandCode env e (ms ++ [.of .unit]) .unit

/-- Arguments for some parameters have this code, which leaves a value for each. -/
inductive ArgsCode (env : CodeEnv) : List Param → List Expr → List Emitted → Prop where
  | nil : ArgsCode env [] [] []
  | value {p : Param} {ps : List Param} {e : Expr} {es : List Expr} {ms ns : List Emitted}
    (he : OperandCode env e ms p.ty) (hes : ArgsCode env ps es ns) :
    ArgsCode env (p :: ps) (e :: es) (ms ++ ns)
  | wrapped {p : Param} {ps : List Param} {e : Expr} {es : List Expr} {ns : List Emitted}
    {params : List Ty} {result : Ty} {s : Signature} (hp : p.ty = .fn params result)
    (he : e.typeOf env.functions env.scope = some result)
    (hs : env.wrappers (Gen.wrapperKey p.ty e.text) = some s) (hes : ArgsCode env ps es ns) :
    ArgsCode env (p :: ps) (e :: es) (.of (.bind s.toValue) :: ns)

end

/-! ## Bodies -/

/-- The code that returns the value on top, which is of type `t`, from a function with this result
type. -/
def returnCode (result t : Ty) : List Emitted :=
  if result.isUnit && !t.isUnit then [.of .pop, .of .unit, .of (.ret (.ofTy .unit))]
  else [.of (.ret (.ofTy result))]

/-- The statements of a function with this result type have this code. -/
inductive BodyCode (env : CodeEnv) (result : Ty) : List Stmt → List Emitted → Prop where
  | empty (hresult : result = .unit) :
    BodyCode env result [] [.of .unit, .of (.ret (.ofTy .unit))]
  | ret {e : Expr} {ms : List Emitted} {t : Ty} (span : Span) (he : OperandCode env e ms t)
    (ht : result.acceptsAssign t = true) :
    BodyCode env result [.ret e span] (ms ++ returnCode result t)
  | last {e : Expr} {ms : List Emitted} {t : Ty} (he : OperandCode env e ms t)
    (ht : result.acceptsAssign t = true) :
    BodyCode env result [.expr e] (ms ++ returnCode result t)
  | retThen {e : Expr} {ms ns : List Emitted} {t : Ty} {s : Stmt} {ss : List Stmt} (span : Span)
    (he : OperandCode env e ms t) (ht : result.acceptsAssign t = true)
    (hss : BodyCode env result (s :: ss) ns) :
    BodyCode env result (.ret e span :: s :: ss) (ms ++ returnCode result t ++ ns)
  | exprThen {e : Expr} {ms ns : List Emitted} {t? : Option Ty} {s : Stmt} {ss : List Stmt}
    (he : ExprCode env e ms t?) (hss : BodyCode env result (s :: ss) ns) :
    BodyCode env result (.expr e :: s :: ss) (ms ++ t?.toList.map (fun _ => .of .pop) ++ ns)

/-! ## Types -/

variable {env : CodeEnv}

private theorem OperandCode.typeOf_of {e : Expr} {ms : List Emitted} {t : Ty}
    (ih : ∀ {ms t?}, ExprCode env e ms t? →
      e.typeOf env.functions env.scope = some (t?.getD .unit))
    (h : OperandCode env e ms t) : e.typeOf env.functions env.scope = some t := by
  cases h with
  | value h => exact ih h
  | unit h => exact ih h

/-- The rules give an expression its type; one that leaves no value is of the unit type. -/
theorem ExprCode.typeOf : ∀ (e : Expr) {ms : List Emitted} {t? : Option Ty},
    ExprCode env e ms t? → e.typeOf env.functions env.scope = some (t?.getD .unit)
  | .literal _ _ _, _, _, h => by
    cases h
    rfl
  | .pair first second _ _, _, _, h => by
    cases h with
    | pair text span hfirst hsecond =>
      rw [Expr.typeOf_pair_eq_some]
      have hf := hfirst.typeOf_of fun h => ExprCode.typeOf first h
      have hs := hsecond.typeOf_of fun h => ExprCode.typeOf second h
      exact ⟨_, hf, hs, rfl⟩
  | .var _, _, _, h => by
    cases h with
    | arg hv =>
      rw [Expr.typeOf, hv]
      rfl
    | function hv hs =>
      rw [Expr.typeOf, hv, hs]
      rfl
  | .placeholder _, _, _, h => by
    cases h with
    | placeholder span hv hreal =>
      rw [Expr.typeOf, hreal]
      rfl
  | .lambda _ _ _, _, _, h => by
    cases h with
    | lambda span hs hparams hbody =>
      rw [Expr.typeOf, hbody, Signature.toTy, hparams]
      rfl
  | .call _ _ _ _, _, _, h => by
    cases h with
    | @call _ _ s _ text span hs harity hargs =>
      rw [Expr.typeOf, hs, Signature.value?]
      cases hu : s.result.isUnit with
      | false => rfl
      | true =>
        rw [Ty.isUnit, beq_iff_eq] at hu
        simp [hu]

theorem OperandCode.typeOf {e : Expr} {ms : List Emitted} {t : Ty} (h : OperandCode env e ms t) :
    e.typeOf env.functions env.scope = some t :=
  h.typeOf_of fun h => ExprCode.typeOf e h

/-! ## More functions -/

/-- The surroundings `env'` are those of `env` with more functions. -/
structure CodeEnv.GrowsTo (env env' : CodeEnv) : Prop where
  functions : env'.functions = env.functions
  scope : env'.scope = env.scope
  lambdas : ∀ {text s}, env.lambdas text = some s → env'.lambdas text = some s
  wrappers : ∀ {key s}, env.wrappers key = some s → env'.wrappers key = some s

theorem CodeEnv.GrowsTo.trans {env' env'' : CodeEnv} (h : env.GrowsTo env')
    (h' : env'.GrowsTo env'') : env.GrowsTo env'' :=
  ⟨h'.functions.trans h.functions, h'.scope.trans h.scope, fun hs => h'.lambdas (h.lambdas hs),
    fun hs => h'.wrappers (h.wrappers hs)⟩

/-- A translation is the translation of an operand wherever that of its code is. -/
theorem OperandCode.map {env' : CodeEnv} {e e' : Expr} {ms : List Emitted} {t : Ty}
    (hcode : ∀ {ms t?}, ExprCode env e ms t? → ExprCode env' e' ms t?)
    (h : OperandCode env e ms t) : OperandCode env' e' ms t := by
  cases h with
  | value h => exact .value (hcode h)
  | unit h => exact .unit (hcode h)

section Mono

variable {env' : CodeEnv} (henv : env.GrowsTo env')

include henv

mutual

/-- A translation survives when more functions become known. -/
theorem ExprCode.mono : ∀ (e : Expr) {ms : List Emitted} {t? : Option Ty},
    ExprCode env e ms t? → ExprCode env' e ms t?
  | .literal value text span, _, _, h => by
    cases h
    exact .literal value text span
  | .pair first second text span, _, _, h => by
    cases h with
    | pair _ _ hfirst hsecond =>
      exact .pair text span (hfirst.map fun h => ExprCode.mono first h)
        (hsecond.map fun h => ExprCode.mono second h)
  | .var name, _, _, h => by
    cases h with
    | arg hv =>
      rw [← henv.scope] at hv
      exact .arg hv
    | function hv hs =>
      rw [← henv.scope] at hv
      rw [← henv.functions] at hs
      exact .function hv hs
  | .placeholder span, _, _, h => by
    cases h with
    | placeholder _ hv hreal =>
      rw [← henv.scope] at hv
      exact .placeholder span hv hreal
  | .lambda body text span, _, _, h => by
    cases h with
    | lambda _ hs hparams hbody =>
      rw [← henv.functions] at hbody
      exact .lambda span (henv.lambdas hs) hparams hbody
  | .call callee args text span, _, _, h => by
    cases h with
    | call _ _ hs harity hargs =>
      rw [← henv.functions] at hs
      exact .call text span hs harity (ArgsCode.mono args hargs)

theorem ArgsCode.mono : ∀ (es : List Expr) {ps : List Param} {ms : List Emitted},
    ArgsCode env ps es ms → ArgsCode env' ps es ms
  | [], _, _, h => by
    cases h
    exact .nil
  | e :: es, _, _, h => by
    cases h with
    | value he hes =>
      exact .value (he.map fun h => ExprCode.mono e h) (ArgsCode.mono es hes)
    | wrapped hp he hs hes =>
      rw [← henv.functions, ← henv.scope] at he
      exact .wrapped hp he (henv.wrappers hs) (ArgsCode.mono es hes)

end

theorem OperandCode.mono {e : Expr} {ms : List Emitted} {t : Ty} (h : OperandCode env e ms t) :
    OperandCode env' e ms t :=
  h.map fun h => ExprCode.mono henv e h

theorem BodyCode.mono {result : Ty} {ss : List Stmt} {ms : List Emitted}
    (h : BodyCode env result ss ms) : BodyCode env' result ss ms := by
  induction h with
  | empty hresult => exact .empty hresult
  | ret span he ht => exact .ret span (he.mono henv) ht
  | last he ht => exact .last (he.mono henv) ht
  | retThen span he ht _ ih => exact .retThen span (he.mono henv) ht ih
  | exprThen he _ ih => exact .exprThen (ExprCode.mono henv _ he) ih

end Mono

/-! ## Places -/

section Places

mutual

/-- Equal expressions have one translation, wherever they stand. -/
theorem ExprCode.of_eraseSpans_eq : ∀ (e e' : Expr) {ms : List Emitted} {t? : Option Ty},
    e.eraseSpans = e'.eraseSpans → ExprCode env e ms t? → ExprCode env e' ms t?
  | .literal value text _, e', _, _, heq, h => by
    cases e' with
    | literal value' text' span' =>
      simp only [Expr.eraseSpans, Expr.literal.injEq] at heq
      obtain ⟨rfl, rfl, _⟩ := heq
      cases h
      exact .literal value text span'
    | _ => cases heq
  | .pair first second text _, e', _, _, heq, h => by
    cases e' with
    | pair first' second' text' span' =>
      simp only [Expr.eraseSpans, Expr.pair.injEq] at heq
      obtain ⟨hfirst, hsecond, rfl, _⟩ := heq
      cases h with
      | pair _ _ hf hs =>
        exact .pair text span'
          (hf.map fun h => ExprCode.of_eraseSpans_eq first first' hfirst h)
          (hs.map fun h => ExprCode.of_eraseSpans_eq second second' hsecond h)
    | _ => cases heq
  | .var name, e', _, _, heq, h => by
    cases e' with
    | var name' =>
      have hname : name.name = name'.name := by
        simp only [Expr.eraseSpans, Ident.eraseSpan, Expr.var.injEq, Ident.mk.injEq] at heq
        exact heq.1
      cases h with
      | arg hv =>
        rw [hname] at hv
        exact .arg hv
      | function hv hs =>
        rw [hname] at hv hs
        exact .function hv hs
    | _ => cases heq
  | .placeholder _, e', _, _, heq, h => by
    cases e' with
    | placeholder span' =>
      cases h with
      | placeholder _ hv hreal => exact .placeholder span' hv hreal
    | _ => cases heq
  | .lambda body text _, e', _, _, heq, h => by
    cases e' with
    | lambda body' text' span' =>
      simp only [Expr.eraseSpans, Expr.lambda.injEq] at heq
      obtain ⟨hbody, rfl, _⟩ := heq
      cases h with
      | lambda _ hs hparams ht =>
        rw [Expr.typeOf_eq_of_eraseSpans_eq hbody] at ht
        exact .lambda span' hs hparams ht
    | _ => cases heq
  | .call callee args text _, e', _, _, heq, h => by
    cases e' with
    | call callee' args' text' span' =>
      simp only [Expr.eraseSpans, Ident.eraseSpan, Expr.call.injEq, Ident.mk.injEq] at heq
      obtain ⟨⟨hcallee, _⟩, hargs, rfl, _⟩ := heq
      cases h with
      | call _ _ hs harity ha =>
        rw [hcallee] at hs
        exact .call text span' hs harity (ArgsCode.of_eraseSpans_eq args args' hargs ha)
    | _ => cases heq

theorem ArgsCode.of_eraseSpans_eq : ∀ (es es' : List Expr) {ps : List Param}
    {ms : List Emitted}, Expr.eraseSpansAll es = Expr.eraseSpansAll es' →
      ArgsCode env ps es ms → ArgsCode env ps es' ms
  | [], es', _, _, heq, h => by
    cases es' with
    | nil => exact h
    | cons e' es' => cases heq
  | e :: es, es', _, _, heq, h => by
    cases es' with
    | nil => cases heq
    | cons e' es' =>
      simp only [Expr.eraseSpansAll, List.cons.injEq] at heq
      obtain ⟨he, hes⟩ := heq
      cases h with
      | value h htail =>
        exact .value (h.map fun h => ExprCode.of_eraseSpans_eq e e' he h)
          (ArgsCode.of_eraseSpans_eq es es' hes htail)
      | wrapped hp ht hs htail =>
        rw [Expr.typeOf_eq_of_eraseSpans_eq he] at ht
        rw [Expr.text_eq_of_eraseSpans_eq he] at hs
        exact .wrapped hp ht hs (ArgsCode.of_eraseSpans_eq es es' hes htail)

end

theorem OperandCode.of_eraseSpans_eq {e e' : Expr} {ms : List Emitted} {t : Ty}
    (heq : e.eraseSpans = e'.eraseSpans) (h : OperandCode env e ms t) :
    OperandCode env e' ms t :=
  h.map fun h => ExprCode.of_eraseSpans_eq e e' heq h

end Places

end BlockCompiler
