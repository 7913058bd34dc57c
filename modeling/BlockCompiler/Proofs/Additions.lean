import BlockCompiler.Proofs.Faults
import BlockCompiler.Proofs.FrameSizing

/-!
# What an expression adds to its function

Compiling an expression appends instructions and leaves at most one operand.  This holds in every state
of a function and for expressions with any texts.

* `Gen.Added w w' ms ts` says that a function is as before but for the instructions `ms` and operands of
  the types `ts`.
* `Expr.Adds` says which they are, as far as the source alone can tell: how many operands there are, and
  which reals the instructions load.  These are the ones of `Expr.realLoads`, in this order.
* `Gen.expr_added` is the induction on expressions.
-/

namespace BlockCompiler

/-! ## The source -/

namespace Expr

mutual

/-- The reals that the code of an expression loads by itself, in order.  An anonymous function has its own
code, and so has an argument that is passed where its type is not the parameter's. -/
def realLoads (functions : FunctionTable) (scope : Scope) : Expr → List Binary64
  | literal (.real x) _ _ => [x]
  | pair first second _ _ => realLoads functions scope first ++ realLoads functions scope second
  | call callee args _ _ =>
    match functions.get? callee.name with
    | some s => argLoads functions scope s.params args
    | none => []
  | _ => []
termination_by structural e => e

/-- The reals that the code of arguments for some parameters loads. -/
def argLoads (functions : FunctionTable) (scope : Scope) : List Param → List Expr → List Binary64
  | p :: ps, e :: es =>
    (if e.typeOf functions scope = some p.ty then realLoads functions scope e else []) ++
      argLoads functions scope ps es
  | _, _ => []
termination_by structural _ es => es

end

end Expr

/-- The reals that the code of a statement loads. -/
def Stmt.realLoads (functions : FunctionTable) (scope : Scope) : Stmt → List Binary64
  | expr e | ret e _ => e.realLoads functions scope
  | decl _ _ _ => []

/-- The real that an instruction loads, if it loads one. -/
def Instr.real? : Instr → Option Binary64
  | push (.real x) => some x
  | _ => none

/-- The reals that a list of instructions loads, in order. -/
def loadedReals (ms : List Emitted) : List Binary64 := (instrs ms).filterMap Instr.real?

@[simp] theorem loadedReals_nil : loadedReals [] = [] := rfl

@[simp] theorem loadedReals_append (ms ns : List Emitted) :
    loadedReals (ms ++ ns) = loadedReals ms ++ loadedReals ns := by
  simp [loadedReals]

/-- An expression may add these instructions and operands of these types to its function. -/
structure Expr.Adds (functions : FunctionTable) (scope : Scope) (e : Expr) (ms : List Emitted)
    (ts : List Ty) : Prop where
  reals : loadedReals ms = e.realLoads functions scope
  single : ts.length ≤ 1
  none_iff : ts = [] ↔ e.CallsUnit functions

/-- What is no call leaves a value. -/
theorem Expr.adds_value {functions : FunctionTable} {scope : Scope} {e : Expr} {ms : List Emitted} (t : Ty)
    (hreals : loadedReals ms = e.realLoads functions scope)
    (he : ∀ callee args text span, e ≠ .call callee args text span) :
    e.Adds functions scope ms [t] := by
  refine ⟨hreals, Nat.le_refl 1, fun hnil => ?_, ?_⟩
  · cases hnil
  · rintro ⟨callee, args, text, span, _, heq, -⟩
    exact absurd heq (he callee args text span)

/-- A call leaves a value unless it calls a function without one. -/
theorem Expr.adds_call {functions : FunctionTable} {scope : Scope} {ident : Ident} {args : List Expr}
    {text : String} {span : Span} {s : Signature} {ms : List Emitted}
    (hs : functions.get? ident.name = some s)
    (hms : loadedReals ms = Expr.argLoads functions scope s.params args) :
    (Expr.call ident args text span).Adds functions scope (ms ++ [.call s]) s.value?.toList := by
  refine ⟨?_, ?_, ?_⟩
  · rw [loadedReals_append, hms, Expr.realLoads, hs]
    exact List.append_nil _
  · unfold Signature.value?
    split <;> simp
  · have hcalls : (Expr.call ident args text span).CallsUnit functions ↔ s.result = .unit := by
      constructor
      · rintro ⟨_, _, _, _, s', heq, hs', hunit⟩
        cases heq
        rw [hs] at hs'
        rw [Option.some.inj hs', hunit]
      · intro hunit
        exact ⟨ident, args, text, span, s, rfl, hs, hunit⟩
    rw [hcalls, Signature.value?]
    by_cases hunit : s.result = .unit <;> simp [hunit, Ty.isUnit]

/-! ## States of a function -/

namespace Gen

/-- Between two states of a function, `ms` was written and operands of the types `ts` were left on top. -/
structure Added (w w' : Workbench) (ms : List Emitted) (ts : List Ty) : Prop where
  frame : w'.frame = { w.frame with
    emitter := w.frame.emitter.writeAll w'.session.pool ms
    operands := ⟨ts ++ w.frame.operands.types⟩ }
  interned : AllInterned ms w'.session.pool
  pool : w.session.pool.GrowsTo w'.session.pool

variable {ctx : CodeContext} {w w₁ w' : Workbench} {ms ns : List Emitted} {ts us : List Ty}

theorem Wrote.added (h : Wrote w w' ms ts) : Added w w' ms ts := ⟨h.frame, h.interned, h.pool⟩

theorem Added.refl (w : Workbench) : Added w w [] [] := ⟨rfl, .nil _, .refl _⟩

theorem Added.trans (h : Added w w₁ ms ts) (h' : Added w₁ w' ns us) :
    Added w w' (ms ++ ns) (us ++ ts) := by
  refine ⟨?_, (h.interned.mono h'.pool).append h'.interned, h.pool.trans h'.pool⟩
  have hms := w.frame.emitter.writeAll_eq_of_growsTo h.interned h'.pool
  rw [h'.frame, h.frame, Emitter.writeAll_append, hms]
  simp

theorem Added.scope (h : Added w w' ms ts) : w'.frame.scope = w.frame.scope := by rw [h.frame]

theorem Added.signature (h : Added w w' ms ts) : w'.frame.signature = w.frame.signature := by
  rw [h.frame]

theorem Added.site (h : Added w w' ms ts) : w'.frame.site = w.frame.site := by rw [h.frame]

theorem Added.depth (h : Added w w' ms ts) : w'.frame.depth = w.frame.depth := by rw [h.frame]

theorem Added.types (h : Added w w' ms ts) :
    w'.frame.operands.types = ts ++ w.frame.operands.types := by
  rw [h.frame]

/-- Only the session changed before, and its pool grew. -/
theorem Added.of_pool {session : Session} (h : Added ⟨session, w.frame⟩ w' ms ts)
    (hpool : w.session.pool.GrowsTo session.pool) : Added w w' ms ts :=
  ⟨h.frame, h.interned, hpool.trans h.pool⟩

/-- The type on top is taken, and nothing else happens. -/
theorem added_popTy {t u : Ty} {context : String} {span : Span} (h : Added w w₁ ms (u :: ts))
    (hpop : popTy context span w₁ = (.ok t, w')) :
    t = u ∧ w'.session = w₁.session ∧ Added w w' ms ts := by
  have htypes : w₁.frame.operands.types = u :: (ts ++ w.frame.operands.types) := h.types
  simp only [popTy, TypeStack.pop, htypes, Prod.mk.injEq, Except.ok.injEq] at hpop
  obtain ⟨rfl, rfl⟩ := hpop
  refine ⟨rfl, rfl, ?_, h.interned, h.pool⟩
  simp only [h.frame]

/-! ## Steps around code -/

/-- Code that is one level deeper adds the same. -/
theorem added_nested {P : List Emitted → List Ty → Prop} {span : Span} {x : Gen Unit}
    (h : nested ctx span x w = (.ok (), w'))
    (hx : ∀ {w₀ w₁}, x w₀ = (.ok (), w₁) → w₀.frame.scope = w.frame.scope →
      ∃ ms ts, Added w₀ w₁ ms ts ∧ P ms ts) :
    ∃ ms ts, Added w w' ms ts ∧ P ms ts := by
  obtain ⟨fr, _, hframe, hguarded⟩ := Attempt.bind_eq_ok.1 h
  cases hframe
  obtain ⟨_, _, hdepth, hdeep⟩ := Attempt.bind_eq_ok.1 hguarded
  obtain ⟨-, rfl⟩ := Attempt.ofExcept_eq_ok.1 hdepth
  obtain ⟨_, w₀, hdeeper, hending⟩ := Attempt.bind_eq_ok.1 hdeep
  cases hdeeper
  obtain ⟨w₁, hrun, rfl⟩ := Attempt.ending_eq_ok.1 hending
  obtain ⟨ms, ts, hadded, hP⟩ := hx hrun rfl
  refine ⟨ms, ts, ⟨?_, hadded.interned, hadded.pool⟩, hP⟩
  simp only [hadded.frame]
  rfl

/-- An operand is taken at once, so that only instructions are added. -/
theorem added_operand {e : Expr} {code : Gen Unit} {scope : Scope} {t : Ty}
    (h : operand e code w = (.ok t, w'))
    (hcode : ∀ {w₁}, code w = (.ok (), w₁) →
      ∃ ms ts, Added w w₁ ms ts ∧ e.Adds ctx.functions scope ms ts) :
    ∃ ms, Added w w' ms [] ∧ loadedReals ms = e.realLoads ctx.functions scope := by
  obtain ⟨before, _, hbefore, hrest⟩ := Attempt.bind_eq_ok.1 h
  cases hbefore
  obtain ⟨_, w₁, hrun, hrest⟩ := Attempt.bind_eq_ok.1 hrest
  obtain ⟨fr, _, hframe, hrest⟩ := Attempt.bind_eq_ok.1 hrest
  cases hframe
  obtain ⟨ms, ts, hadded, hadds⟩ := hcode hrun
  have hsize : w₁.frame.operands.size = ts.length + w.frame.operands.size := by
    rw [TypeStack.size, hadded.types, List.length_append, TypeStack.size]
  have hsingle := hadds.single
  rcases ts with _ | ⟨u, _ | ⟨u', ts⟩⟩
  · rw [if_pos (by simpa using hsize)] at hrest
    obtain ⟨_, w₂, hemit, hrest⟩ := Attempt.bind_eq_ok.1 hrest
    obtain ⟨_, w₃, hpush, hpop⟩ := Attempt.bind_eq_ok.1 hrest
    have hunit : Wrote w₁ w₂ [.of .unit] [] := wrote_emit rfl (fun e p => e.unit_eq p) hemit
    obtain ⟨-, -, hpopped⟩ := added_popTy (hunit.trans (wrote_pushTy hpush)).added hpop
    refine ⟨_, hadded.trans hpopped, ?_⟩
    rw [loadedReals_append, hadds.reals]
    exact List.append_nil _
  · rw [if_neg (by rw [hsize, List.length_singleton]; omega)] at hrest
    obtain ⟨-, -, hpopped⟩ := added_popTy hadded hrest
    exact ⟨ms, hpopped, hadds.reals⟩
  · simp only [List.length_cons] at hsingle
    omega

/-! ## Leaves -/

theorem added_reference {ident : Ident} (h : reference ctx ident w = (.ok (), w')) :
    ∃ ms ts, Added w w' ms ts ∧ (Expr.var ident).Adds ctx.functions w.frame.scope ms ts := by
  obtain ⟨fr, _, hframe, hrest⟩ := Attempt.bind_eq_ok.1 h
  cases hframe
  cases hv : w.frame.scope.get? ident.name with
  | some v =>
    simp only [hv] at hrest
    exact ⟨_, _, (wrote_loadVar hrest).added, Expr.adds_value v.ty rfl (by simp)⟩
  | none =>
    simp only [hv] at hrest
    cases hs : ctx.functions.get? ident.name with
    | some s =>
      simp only [hs] at hrest
      exact ⟨_, _, (wrote_bindFunction hrest).added, Expr.adds_value s.toTy rfl (by simp)⟩
    | none =>
      simp only [hs] at hrest
      cases Attempt.fail_ne_ok hrest

theorem added_placeholder {span : Span} (h : placeholder span w = (.ok (), w')) :
    ∃ ms ts, Added w w' ms ts ∧ (Expr.placeholder span).Adds ctx.functions w.frame.scope ms ts := by
  obtain ⟨fr, _, hframe, hrest⟩ := Attempt.bind_eq_ok.1 h
  cases hframe
  cases hv : w.frame.scope.get? Expr.placeholderText with
  | some v =>
    simp only [hv] at hrest
    split at hrest
    next => exact ⟨_, _, (wrote_loadVar hrest).added, Expr.adds_value v.ty rfl (by simp)⟩
    next => cases Attempt.fail_ne_ok hrest
  | none =>
    simp only [hv] at hrest
    cases Attempt.fail_ne_ok hrest

theorem added_lambda {body : Expr} {text : String} {span : Span} {scope : Scope}
    (h : lambda ctx text span w = (.ok (), w')) :
    ∃ ms ts, Added w w' ms ts ∧ (Expr.lambda body text span).Adds ctx.functions scope ms ts := by
  unfold lambda at h
  cases hs : ctx.lambdas.get? text with
  | some s =>
    simp only [hs] at h
    exact ⟨_, _, (wrote_bindFunction h).added, Expr.adds_value s.toTy rfl (by simp)⟩
  | none =>
    simp only [hs] at h
    cases Attempt.fail_ne_ok h

theorem added_literal {value : Literal} {text : String} {span : Span} {scope : Scope}
    (h : literal value w = (.ok (), w')) :
    ∃ ms ts, Added w w' ms ts ∧ (Expr.literal value text span).Adds ctx.functions scope ms ts := by
  refine ⟨_, _, (wrote_literal h).added, Expr.adds_value value.ty ?_ (by simp)⟩
  cases value <;> rfl

/-! ## Calls and pairs -/

/-- The code of a wrapped constant is elsewhere. -/
theorem added_promote {e : Expr} {params : List Ty} {result : Ty}
    (h : promote ctx e params result (value ctx e) w = (.ok (), w')) :
    ∃ s : Signature, Added w w' [.of (.bind s.toValue)] [s.toTy] := by
  cases promotion h with
  | reused hs hbind => exact ⟨_, (wrote_bindFunction hbind).added.of_pool (.refl _)⟩
  | @wrapped s S _ _ _ _ _ hcompiled hbind =>
    have hcompile : Attempt.Keeps Session.GrowsTo (Session.compileWith s .synthetic e.span
        (w.frame.depth + 1) (returnBody ctx e.text e.span (value ctx e))) :=
      Session.growsTo_compileWith (growsTo_value ctx e).returnBody
    exact ⟨_, (wrote_bindFunction hbind).added.of_pool (hcompile.of_run hcompiled).pool⟩

theorem added_argument {e : Expr} {s : Signature} {position : Nat} {formal : Param}
    (h : argument ctx s position formal e (value ctx e) w = (.ok (), w'))
    (hvalue : ∀ {t w₁}, value ctx e w = (.ok t, w₁) →
      ∃ ms, Added w w₁ ms [] ∧ loadedReals ms = e.realLoads ctx.functions w.frame.scope) :
    ∃ ms, Added w w' ms [] ∧ loadedReals ms =
      if e.typeOf ctx.functions w.frame.scope = some formal.ty then
        e.realLoads ctx.functions w.frame.scope
      else [] := by
  obtain ⟨actual, _, hinfer, hrest⟩ := Attempt.bind_eq_ok.1 h
  obtain ⟨rfl, htype⟩ := infer_eq_ok hinfer
  dsimp only at hrest
  rw [htype]
  split at hrest
  next heq =>
    obtain ⟨t, hrun⟩ := Attempt.discard_eq_ok.1 hrest
    rw [if_pos (congrArg some heq)]
    exact hvalue hrun
  next hne =>
    rw [if_neg fun heq => hne (Option.some.inj heq)]
    cases hformal : formal.ty with
    | fn params result =>
      rw [hformal] at hrest
      dsimp only at hrest
      split at hrest
      next =>
        obtain ⟨_, w₁, hpromote, hpop⟩ := Attempt.bind_eq_ok.1 hrest
        obtain ⟨t, hpop⟩ := Attempt.discard_eq_ok.1 hpop
        obtain ⟨s', hadded⟩ := added_promote hpromote
        obtain ⟨-, -, hpopped⟩ := added_popTy hadded hpop
        exact ⟨_, hpopped, rfl⟩
      next => cases Attempt.fail_ne_ok hrest
    | _ =>
      rw [hformal] at hrest
      cases Attempt.fail_ne_ok hrest

theorem added_pair {first second : Expr} {text : String} {span : Span}
    (h : pair ctx first second span (value ctx first) (value ctx second) w = (.ok (), w'))
    (hfirst : ∀ {t w w'}, value ctx first w = (.ok t, w') →
      ∃ ms, Added w w' ms [] ∧ loadedReals ms = first.realLoads ctx.functions w.frame.scope)
    (hsecond : ∀ {t w w'}, value ctx second w = (.ok t, w') →
      ∃ ms, Added w w' ms [] ∧ loadedReals ms = second.realLoads ctx.functions w.frame.scope) :
    ∃ ms ts, Added w w' ms ts ∧
      (Expr.pair first second text span).Adds ctx.functions w.frame.scope ms ts := by
  obtain ⟨a, _, ha, hrest₁⟩ := Attempt.bind_eq_ok.1 h
  obtain ⟨rfl, -⟩ := infer_eq_ok ha
  obtain ⟨b, _, hb, hrest₂⟩ := Attempt.bind_eq_ok.1 hrest₁
  obtain ⟨rfl, -⟩ := infer_eq_ok hb
  obtain ⟨ty, _, hty, hrest₃⟩ := Attempt.bind_eq_ok.1 hrest₂
  obtain ⟨-, rfl⟩ := Attempt.ofExcept_eq_ok.1 hty
  obtain ⟨_, w₁, hnew, hrest₄⟩ := Attempt.bind_eq_ok.1 hrest₃
  obtain ⟨_, w₂, hdup, hrest₅⟩ := Attempt.bind_eq_ok.1 hrest₄
  obtain ⟨_, w₃, hx, hrest₆⟩ := Attempt.bind_eq_ok.1 hrest₅
  obtain ⟨_, w₄, hy, hrest₇⟩ := Attempt.bind_eq_ok.1 hrest₆
  obtain ⟨_, w₅, hinit, hpush⟩ := Attempt.bind_eq_ok.1 hrest₇
  obtain ⟨t, hx⟩ := Attempt.discard_eq_ok.1 hx
  obtain ⟨u, hy⟩ := Attempt.discard_eq_ok.1 hy
  have hstart := (wrote_emit rfl (fun e p => e.newPair_eq p _) hnew).trans
    (wrote_emit rfl (fun e p => e.dup_eq p) hdup)
  have hstop := (wrote_emit rfl (fun e p => e.initPair_eq p _) hinit).trans (wrote_pushTy hpush)
  obtain ⟨ms, hms, hreals⟩ := hfirst hx
  obtain ⟨ns, hns, hreals'⟩ := hsecond hy
  rw [hms.scope, hstart.added.scope] at hreals'
  rw [hstart.added.scope] at hreals
  refine ⟨_, _, ((hstart.added.trans hms).trans hns).trans hstop.added,
    Expr.adds_value ty ?_ (by simp)⟩
  rw [loadedReals_append, loadedReals_append, loadedReals_append, hreals, hreals', Expr.realLoads]
  exact List.append_nil _

/-! ## Expressions -/

mutual

/-- What compiling an expression adds. -/
theorem expr_added : ∀ (e : Expr) {w w' : Workbench}, expr ctx e w = (.ok (), w') →
    ∃ ms ts, Added w w' ms ts ∧ e.Adds ctx.functions w.frame.scope ms ts
  | .literal _ _ _, _, _, h => added_nested h fun hrun _ => added_literal hrun
  | .pair first second _ _, _, _, h => added_nested h fun hrun hscope => by
    rw [← hscope]
    exact added_pair hrun
      (fun hx => added_operand hx fun hcode => expr_added first hcode)
      (fun hy => added_operand hy fun hcode => expr_added second hcode)
  | .var _, _, _, h => added_nested h fun hrun hscope => hscope ▸ added_reference hrun
  | .placeholder _, _, _, h => added_nested h fun hrun hscope => hscope ▸ added_placeholder hrun
  | .lambda _ _ _, _, _, h => added_nested h fun hrun _ => added_lambda hrun
  | .call ident args text span, _, _, h => added_nested h fun {w₀ w₁} hrun hscope => by
    rw [← hscope]
    obtain ⟨s, _, hcallee, hrest⟩ := Attempt.bind_eq_ok.1 hrun
    obtain ⟨rfl, hs, hcount⟩ := callee_eq_ok hcallee
    obtain ⟨_, w₂, hargs, hfinish⟩ := Attempt.bind_eq_ok.1 hrest
    rw [hcount] at hfinish
    obtain ⟨ms, hadded, hreals⟩ := arguments_added args hcount hargs
    obtain ⟨-, hcall⟩ := wrote_finishCall hfinish
    have hall := hadded.trans hcall.added
    rw [List.append_nil] at hall
    exact ⟨_, _, hall, Expr.adds_call hs hreals⟩

/-- What compiling arguments adds, one for each parameter. -/
theorem arguments_added : ∀ (es : List Expr) {s : Signature} {position : Nat} {ps : List Param}
    {w w' : Workbench}, es.length = ps.length → arguments ctx s position ps es w = (.ok (), w') →
      ∃ ms, Added w w' ms [] ∧
        loadedReals ms = Expr.argLoads ctx.functions w.frame.scope ps es
  | [], _, _, ps, w, _, _, h => by
    cases h
    refine ⟨[], .refl w, ?_⟩
    cases ps <;> rfl
  | _ :: _, _, _, [], _, _, hlength, _ => by simp at hlength
  | e :: es, s, position, p :: ps, w, w', hlength, h => by
    obtain ⟨_, w₁, hargument, hrest⟩ := Attempt.bind_eq_ok.1 h
    obtain ⟨ms, hms, hreals⟩ := added_argument hargument fun hrun =>
      added_operand hrun fun hcode => expr_added e hcode
    obtain ⟨ns, hns, hreals'⟩ := arguments_added es (by simpa using hlength) hrest
    refine ⟨_, hms.trans hns, ?_⟩
    rw [loadedReals_append, hreals, hreals', hms.scope, Expr.argLoads]

end

/-- What compiling an operand adds. -/
theorem value_added {e : Expr} {t : Ty} (h : value ctx e w = (.ok t, w')) :
    ∃ ms, Added w w' ms [] ∧ loadedReals ms = e.realLoads ctx.functions w.frame.scope :=
  added_operand h fun hcode => expr_added e hcode

/-- What a return statement adds. -/
theorem added_returnValue {e : Expr} {text : String} {span : Span}
    (h : returnValue text span (value ctx e) w = (.ok (), w')) :
    ∃ ms, Added w w' ms [] ∧ loadedReals ms = e.realLoads ctx.functions w.frame.scope := by
  obtain ⟨t, w₁, hrun, hrest⟩ := Attempt.bind_eq_ok.1 h
  obtain ⟨ms, hms, hreals⟩ := value_added hrun
  obtain ⟨fr, _, hframe, hreturn⟩ := Attempt.bind_eq_ok.1 hrest
  cases hframe
  dsimp only at hreturn
  have hensure {w₂ : Workbench} (h : ensureNoOperands text span w₂ = (.ok (), w')) : w₂ = w' :=
    congrArg Prod.snd h
  obtain ⟨ns, hns, hnone⟩ : ∃ ns, Added w₁ w' ns [] ∧ loadedReals ns = [] := by
    split at hreturn
    next =>
      split at hreturn
      next =>
        obtain ⟨_, w₂, hret, hempty⟩ := Attempt.bind_eq_ok.1 hreturn
        obtain rfl := hensure hempty
        exact ⟨_, (wrote_returnUnit hret).added, rfl⟩
      next =>
        obtain ⟨_, w₂, hret, hempty⟩ := Attempt.bind_eq_ok.1 hreturn
        obtain rfl := hensure hempty
        exact ⟨_, (wrote_returnTop hret).added, rfl⟩
    next => cases Attempt.fail_ne_ok hreturn
  refine ⟨_, hms.trans hns, ?_⟩
  rw [loadedReals_append, hreals, hnone, List.append_nil]

/-- What a statement adds. -/
theorem stmt_added {s : Stmt} (h : stmt ctx s w = (.ok (), w')) :
    ∃ ms ts, Added w w' ms ts ∧ loadedReals ms = s.realLoads ctx.functions w.frame.scope := by
  cases s with
  | expr e =>
    obtain ⟨ms, ts, hadded, hadds⟩ := expr_added e h
    exact ⟨ms, ts, hadded, hadds.reals⟩
  | ret e span =>
    obtain ⟨ms, hadded, hreals⟩ := added_returnValue h
    exact ⟨ms, [], hadded, hreals⟩
  | decl => cases Attempt.fail_ne_ok h

end Gen

end BlockCompiler
