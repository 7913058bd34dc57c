import BlockCompiler.Proofs.Closure
import BlockCompiler.Proofs.TypeAgreement

/-!
# Wrapped constants

An argument may stand for a function if it is constant.  Whether it is, is checked once for each text
and type: later the wrapper is found by them.  This file says that the check can not be passed by, and
what it is worth.

* `Session.Gated` is the invariant.  Whatever is remembered was constant, and so was whatever the
  journal says was promoted.  `Session.Gated.remember` is the step where a constant passes the check,
  and the only one that makes the invariant say more.
* `Gen.stable_gates`, `Hoist.lambda_gates` and `Session.compileDecl_gates` carry it through a
  compilation.
* `ExprCode.ofConstant` is the induction on constant expressions: their code pushes constants and calls
  pure functions, and the function values in it are wrappers of lower expressions.

A wrapper is finished a moment before it is remembered.  In between the invariant has a hole, which has
the name of the wrapper.
-/

namespace BlockCompiler

/-! ## Constant expressions -/

namespace Expr

variable {functions : FunctionTable} {maxDepth : Nat}

mutual

theorem isConstantAt_eraseSpans : ∀ (e : Expr) (depth : Nat),
    e.eraseSpans.isConstantAt functions maxDepth depth = e.isConstantAt functions maxDepth depth
  | literal value _ _, _ => by cases value <;> rfl
  | pair _ _ _ _, _ | var _, _ | placeholder _, _ | lambda _ _ _, _ => rfl
  | call _ args _ _, depth => by
    rw [eraseSpans, isConstantAt, isConstantAt, areConstantAt_eraseSpansAll args (depth + 1)]
    rfl

theorem areConstantAt_eraseSpansAll : ∀ (es : List Expr) (depth : Nat),
    areConstantAt functions maxDepth depth (eraseSpansAll es) =
      areConstantAt functions maxDepth depth es
  | [], _ => rfl
  | e :: es, depth => by
    rw [eraseSpansAll, areConstantAt, areConstantAt, isConstantAt_eraseSpans e depth,
      areConstantAt_eraseSpansAll es depth]

end

/-- Equal expressions at different places are both constant or both not. -/
theorem isConstant_eq_of_eraseSpans_eq {e e' : Expr} (h : e.eraseSpans = e'.eraseSpans) :
    e.isConstant functions maxDepth = e'.isConstant functions maxDepth := by
  unfold isConstant
  rw [← isConstantAt_eraseSpans e, h, isConstantAt_eraseSpans]

theorem ensureConstant_eq_ok {e : Expr} :
    e.ensureConstant functions maxDepth = .ok () ↔ e.isConstant functions maxDepth = true := by
  unfold ensureConstant
  split <;> simp_all

/-- The type of a constant does not depend on the arguments in scope. -/
theorem typeOf_eq_of_isConstantAt {e : Expr} {depth : Nat}
    (h : e.isConstantAt functions maxDepth depth = true) (scope scope' : Scope) :
    e.typeOf functions scope = e.typeOf functions scope' := by
  cases e with
  | literal | call => rfl
  | _ => cases h

/-- The expressions below an expression are lower. -/
theorem height_lt_of_mem_tail {e e' : Expr} (h : e' ∈ e.subexprs.tail) : e'.height < e.height := by
  cases e with
  | literal | var | placeholder => cases h
  | pair first second =>
    rw [height]
    rcases List.mem_append.1 h with h | h
    · have := height_le_of_mem_subexprs first h
      omega
    · have := height_le_of_mem_subexprs second h
      omega
  | lambda body =>
    have := height_le_of_mem_subexprs body h
    rw [height]
    omega
  | call _ args =>
    rw [height]
    exact height_lt_of_mem_subexprsAll args h

end Expr

/-- Whether a text is that of expressions of the block, all of which are constant. -/
def Block.ConstantText (block : Block) (functions : FunctionTable) (options : Options)
    (text : String) : Prop :=
  (∃ e ∈ block.exprs, e.text = text) ∧
    ∀ e ∈ block.exprs, e.text = text → e.isConstant functions options.maxDepth = true

/-- Where texts are faithful, one constant expression speaks for its text. -/
theorem Block.TextFaithful.constantText {block : Block} (hfaithful : block.TextFaithful)
    {functions : FunctionTable} {options : Options} {e : Expr} (he : e ∈ block.exprs)
    (hconst : e.isConstant functions options.maxDepth = true) :
    block.ConstantText functions options e.text := by
  refine ⟨⟨e, he, rfl⟩, fun e' he' htext => ?_⟩
  rw [Expr.isConstant_eq_of_eraseSpans_eq (hfaithful e' he' e he htext), hconst]

/-! ## Names of wrappers -/

/-- The name of the wrapper with a number. -/
def Gen.wrapperName (id : Nat) : String := "_lambda_" ++ toString id ++ "$constant"

/-- The names of numbered anonymous functions are without a dollar sign. -/
theorem dollar_not_mem_lambdaName (id : Nat) : '$' ∉ (lambdaName id).toList := by
  intro hmem
  rw [lambdaName, String.toList_append, List.mem_append] at hmem
  rcases hmem with hprefix | hid
  · revert hprefix
    decide
  · rw [show toString id = id.repr from rfl, Nat.toList_repr] at hid
    have := Nat.isDigit_of_mem_toDigits (by decide) (by decide) hid
    revert this
    decide

/-- Functions made for anonymous functions have other names. -/
theorem Hoist.name_lambdaSignature_ne (id : Nat) (body : Expr) (result : Ty) (owner : String)
    (id' : Nat) : (lambdaSignature id body result owner).name ≠ Gen.wrapperName id' := by
  have hdollar : '$' ∈ (Gen.wrapperName id').toList := by
    simp [Gen.wrapperName, String.toList_append]
  intro hname
  rw [← hname] at hdollar
  unfold lambdaSignature at hdollar
  dsimp only at hdollar
  split at hdollar
  · revert hdollar
    decide
  · exact dollar_not_mem_lambdaName id hdollar

/-! ## The invariant -/

/-- The text of the argument that an event says was promoted.  No promotion is completed without such an
event: see `Gen.promoted_of_promote`. -/
def Event.promoted? : Event → Option String
  | constantReused _ text | constantPromoted text _ => some text
  | _ => none

/-- Whatever a session remembers or notes as promoted is constant, and every wrapper is remembered,
except one that has the name of the hole. -/
structure Session.Gated (functions : FunctionTable) (options : Options) (block : Block)
    (hole : Option String) (S : Session) : Prop where
  names : ∀ {key s}, S.wrapper? key = some s → ∃ id, s.name = Gen.wrapperName id
  constants : ∀ {e t s}, e ∈ block.exprs → S.wrapper? (Gen.wrapperKey t e.text) = some s →
    e.isConstant functions options.maxDepth = true ∧
      ∀ scope, e.typeOf functions scope = some s.result
  /-- Different constants have wrappers of different names. -/
  apart : ∀ {key key' s s'}, S.wrapper? key = some s → S.wrapper? key' = some s' →
    s.name = s'.name → key = key'
  remembered : ∀ {id entry}, hole ≠ some (Gen.wrapperName id) →
    S.registry.get? (Gen.wrapperName id) = some entry → entry.isSynthetic = true →
    entry.isDefined = true →
      ∃ e ∈ block.exprs, ∃ t, S.wrapper? (Gen.wrapperKey t e.text) = some entry.signature
  promoted : ∀ {event text}, event ∈ S.journal → event.promoted? = some text →
    block.ConstantText functions options text

namespace Session

variable {functions : FunctionTable} {options : Options} {block : Block} {hole : Option String}
  {S S' : Session}

/-- Neither the pool nor the counter matters. -/
theorem Gated.of_eq (h : S.Gated functions options block hole) (hwrappers : S'.wrappers = S.wrappers)
    (hregistry : S'.registry = S.registry) (hjournal : S'.journal = S.journal) :
    S'.Gated functions options block hole := by
  have hw : S'.wrapper? = S.wrapper? := by
    funext key
    rw [wrapper?, wrapper?, hwrappers]
  refine ⟨?_, ?_, ?_, ?_, ?_⟩
  · rw [hw]
    exact h.names
  · rw [hw]
    exact h.constants
  · rw [hw]
    exact h.apart
  · rw [hw, hregistry]
    exact h.remembered
  · rw [hjournal]
    exact h.promoted

/-- An event may be noted if what it says was promoted is constant. -/
theorem Gated.note (h : S.Gated functions options block hole) {event : Event}
    (hevent : ∀ text, event.promoted? = some text → block.ConstantText functions options text) :
    (S.note event).Gated functions options block hole := by
  refine ⟨h.names, h.constants, h.apart, h.remembered, fun {event' text} hmem htext => ?_⟩
  rcases Array.mem_push.1 hmem with hold | rfl
  · exact h.promoted hold htext
  · exact hevent text htext

/-- Of the registry only the entries with code matter. -/
theorem Gated.withRegistry (h : S.Gated functions options block none) {r : Registry}
    (hentries : ∀ {name entry}, hole ≠ some name → entry.isDefined = true →
      r.get? name = some entry → S.registry.get? name = some entry) :
    Gated functions options block hole { S with registry := r } := by
  refine ⟨h.names, h.constants, h.apart, fun hhole hget hsynthetic hdefined => ?_, h.promoted⟩
  exact h.remembered (by simp) (hentries hhole hdefined hget) hsynthetic hdefined

/-- A hole that no wrapper fills is none. -/
theorem Gated.close {name : String} (h : S.Gated functions options block (some name)) {entry : Entry}
    (hget : S.registry.get? name = some entry)
    (hother : entry.isSynthetic = false ∨ ∀ id, name ≠ Gen.wrapperName id) :
    S.Gated functions options block none := by
  refine ⟨h.names, h.constants, h.apart, fun {id entry'} _ hget' hsynthetic hdefined => ?_,
    h.promoted⟩
  refine h.remembered (fun hhole => ?_) hget' hsynthetic hdefined
  rw [Option.some.injEq] at hhole
  rcases hother with hother | hother
  · rw [← hhole, hget] at hget'
    rw [← Option.some.inj hget', hother] at hsynthetic
    cases hsynthetic
  · exact hother id hhole

/-- A constant that passed the check is remembered with its wrapper, which fills the hole. -/
theorem Gated.remember (hfaithful : block.TextFaithful) {e : Expr} (he : e ∈ block.exprs)
    (hconst : e.isConstant functions options.maxDepth = true) {scope : Scope} {s : Signature}
    (htype : e.typeOf functions scope = some s.result) {id : Nat} (hname : s.name = Gen.wrapperName id)
    (h : S.Gated functions options block (some s.name)) {chunk : Chunk}
    (hget : S.registry.get? s.name = some (.ofSignature s .synthetic (some chunk)))
    (hothers : ∀ {key s'}, S.wrapper? key = some s' → s'.name ≠ s.name) {t : Ty}
    (hfresh : S.wrapper? (Gen.wrapperKey t e.text) = none) :
    ((S.note (.constantPromoted e.text s)).rememberWrapper (Gen.wrapperKey t e.text) s).Gated
      functions options block none := by
  have hlookup (key : String) :
      ((S.note (.constantPromoted e.text s)).rememberWrapper (Gen.wrapperKey t e.text) s).wrapper?
        key = if Gen.wrapperKey t e.text = key then some s else S.wrapper? key :=
    wrapper?_rememberWrapper _ _ _ _
  have htext : block.ConstantText functions options e.text := hfaithful.constantText he hconst
  refine ⟨fun hs => ?_, fun {e' t' s'} he' hs => ?_, fun {key key' s₁ s₂} hs₁ hs₂ heq => ?_,
    fun {id' entry} _ hentry hsynthetic hdefined => ?_, fun hevent hpromoted => ?_⟩
  · rw [hlookup] at hs
    split at hs
    · rw [← Option.some.inj hs]
      exact ⟨id, hname⟩
    · exact h.names hs
  · rw [hlookup] at hs
    split at hs
    next hkey =>
      have heq := hfaithful e he e' he' (Gen.wrapperKey_inj hkey).2
      refine ⟨htext.2 e' he' (Gen.wrapperKey_inj hkey).2.symm, fun scope' => ?_⟩
      rw [← Option.some.inj hs, ← htype, ← Expr.typeOf_eq_of_eraseSpans_eq heq]
      exact Expr.typeOf_eq_of_isConstantAt hconst scope' scope
    next => exact h.constants he' hs
  · rw [hlookup] at hs₁ hs₂
    split at hs₁ <;> split at hs₂
    next hkey hkey' => rw [← hkey, hkey']
    next =>
      rw [← Option.some.inj hs₁] at heq
      exact absurd heq.symm (hothers hs₂)
    next =>
      rw [← Option.some.inj hs₂] at heq
      exact absurd heq (hothers hs₁)
    next => exact h.apart hs₁ hs₂ heq
  · have hentry : S.registry.get? (Gen.wrapperName id') = some entry := hentry
    by_cases hsame : s.name = Gen.wrapperName id'
    · rw [← hsame, hget] at hentry
      refine ⟨e, he, t, ?_⟩
      rw [hlookup, if_pos rfl, ← Option.some.inj hentry, Entry.ofSignature_signature]
    · obtain ⟨e', he', t', hs'⟩ := h.remembered (by simpa using hsame) hentry hsynthetic hdefined
      refine ⟨e', he', t', ?_⟩
      rw [hlookup, if_neg, hs']
      intro hkey
      rw [← hkey, hfresh] at hs'
      cases hs'
  · rcases Array.mem_push.1 hevent with hold | rfl
    · exact h.promoted hold hpromoted
    · rw [← Option.some.inj hpromoted]
      exact htext

/-! ## Functions -/

/-- From `S` on finished functions were kept, and with them the invariant. -/
def Gates (functions : FunctionTable) (lambdas : String → Option Signature) (options : Options)
    (block : Block) (S S' : Session) : Prop :=
  S.Secures functions lambdas S' ∧ (S.Closed functions lambdas →
    S.Gated functions options block none → S'.Gated functions options block none)

instance (lambdas : String → Option Signature) :
    IsPreorder Session (Gates functions lambdas options block) where
  refl S := ⟨refl_of _ S, fun _ h => h⟩
  trans _ _ _ h h' := ⟨trans_of _ h.1 h'.1, fun hclosed h₀ => h'.2 (h.1.2 hclosed) (h.2 hclosed h₀)⟩

/-- The invariant outlives the compilation of a function.  If that succeeds there is a hole, unless the
function is no wrapper, and no wrapper that was remembered meanwhile has its name. -/
theorem compileWith_gates {lambdas : String → Option Signature} {s : Signature} {flags : EntryFlags}
    {site : Span} {depth : Nat} {body : Gen Unit}
    (hbody : Gen.KeepsSession (Gates functions lambdas options block) body)
    {r : Except CompileError Unit} (hrun : compileWith s flags site depth body S = (r, S'))
    (hclosed : S.Closed functions lambdas) (h : S.Gated functions options block none) :
    (∃ e, r = .error e ∧ S'.Gated functions options block none) ∨
      r = .ok () ∧ S'.Gated functions options block (some s.name) ∧
        (∃ chunk, S'.registry.get? s.name = some (.ofSignature s flags (some chunk))) ∧
        ∀ {key s'}, S'.wrapper? key = some s' → s'.name ≠ s.name := by
  have hdeclared {r : Registry} (hdecl : S.registry.declare s flags site = .ok r) :
      Closed functions lambdas ({ S with registry := r }.note (.declared s)) ∧
        Gated functions options block none ({ S with registry := r }.note (.declared s)) := by
    refine ⟨hclosed.of_keepsCode (Registry.keepsCode_declare hdecl) rfl rfl, ?_⟩
    refine (h.withRegistry fun {name entry} _ hdefined hget => ?_).note fun _ hevent => nomatch hevent
    rw [Registry.get?_of_declare hdecl] at hget
    split at hget
    · rw [← Option.some.inj hget] at hdefined
      cases hdefined
    · exact hget
  cases functionRun (fun w => (hbody w).1.1) hrun with
  | taken hdecl => exact .inl ⟨_, rfl, h⟩
  | @failed r w e hdecl heq hgrows =>
    have hpending := Registry.get?_declared hdecl hgrows
    obtain ⟨hclosed₁, hgated₁⟩ := hdeclared hdecl
    have hnoted : (w.session.note (.abandoned s.name e)).Gated functions options block none :=
      ((hbody.of_run heq).2 hclosed₁ hgated₁).note fun _ hevent => nomatch hevent
    refine .inl ⟨e, rfl, hnoted.withRegistry fun {name entry} _ _ hget => ?_⟩
    by_cases hname : name = s.name
    · rw [hname, Registry.get?_abandon_self hpending rfl] at hget
      cases hget
    · rwa [Registry.get?_abandon_of_ne _ hname] at hget
  | @finished r r' w hdecl heq hgrows hdef =>
    have hpending := Registry.get?_declared hdecl hgrows
    obtain ⟨hclosed₁, hgated₁⟩ := hdeclared hdecl
    have hclosed := (hbody.of_run heq).1.2 hclosed₁
    have hgated := (hbody.of_run heq).2 hclosed₁ hgated₁
    refine .inr ⟨rfl, ?_, ⟨w.frame.emitter.finish w.frame.scope.maxLocals, ?_⟩,
      fun {key s'} hs' hname => ?_⟩
    · refine (hgated.withRegistry fun {name entry} hhole _ hget => ?_).note fun _ hevent => nomatch hevent
      rw [Registry.get?_define hdef, Option.map_eq_some_iff] at hget
      obtain ⟨entry', hget', rfl⟩ := hget
      have hname : entry'.name ≠ s.name := by
        rw [Registry.name_of_get? hget']
        exact fun heq => hhole (by rw [heq])
      rw [Registry.attach_of_ne hname]
      exact hget'
    · show r'.get? s.name = _
      rw [Registry.get?_define hdef, hpending, Option.map_some, Registry.attach_ofSignature]
    · obtain ⟨chunk, hmade⟩ := hclosed.wrappers hs'
      rw [hname, hpending] at hmade
      cases hmade

end Session

/-! ## Expressions -/

namespace Gen

/-- The invariant is kept while expressions are compiled. -/
theorem stable_gates (ctx : CodeContext) {block : Block} (hfaithful : block.TextFaithful) :
    Stable ctx block fun n S S' => S.Evolves block n S' ∧
      S.Gates ctx.functions ctx.lambdas.get? ctx.options block S' where
  preorder n :=
    { refl := fun S => ⟨.refl _ _ S, refl_of _ S⟩
      trans := fun _ _ _ h h' => ⟨h.1.trans h'.1, trans_of _ h.2 h'.2⟩ }
  mono hmn h := ⟨h.1.mono hmn, h.2⟩
  intern c hc S := ⟨Session.evolves_intern S c, (stable_secures ctx block).intern c hc S,
    fun _ h => h.of_eq rfl rfl rfl⟩
  promote e he hvalue scope params result ht w := by
    have hevolves : KeepsSession (Session.Evolves block e.height) (value ctx e) :=
      fun w => (hvalue w).1
    have hgates : KeepsSession (Session.Gates ctx.functions ctx.lambdas.get? ctx.options block)
        (value ctx e) := fun w => (hvalue w).2
    refine ⟨(stable_evolves ctx hfaithful).promote e he hevolves params ht w,
      (stable_secures ctx block).promote e he (fun w => (hgates w).1) params ht w,
      fun hclosed h => ?_⟩
    rcases hrun : promote ctx e params result (value ctx e) w with ⟨r, w'⟩
    cases promotion hrun with
    | @reused s _ _ hs hbind =>
      cases hbind
      have hnoted : (w.session.note (.constantReused s.name e.text)).Gated ctx.functions ctx.options
          block none := by
        refine h.note fun text htext => ?_
        rw [← Option.some.inj htext]
        exact hfaithful.constantText he (h.constants he hs).1
      exact hnoted.of_eq rfl rfl rfl
    | refused => exact h
    | failed _ _ _ hcompiled =>
      rcases Session.compileWith_gates hgates.returnBody hcompiled
        (hclosed.of_keepsCode (.refl _) rfl rfl) (h.of_eq rfl rfl rfl) with ⟨_, -, hgated⟩ | ⟨hok, -⟩
      · exact hgated
      · cases hok
    | @wrapped s S _ _ hnone hconst hs hcompiled hbind =>
      cases hbind
      have hfresh := wrapper?_eq_none_of_compileWith hfaithful he hevolves hnone hcompiled
      rcases Session.compileWith_gates hgates.returnBody hcompiled
        (hclosed.of_keepsCode (.refl _) rfl rfl) (h.of_eq rfl rfl rfl) with
        ⟨_, herr, -⟩ | ⟨-, hgated, ⟨chunk, hget⟩, hothers⟩
      · cases herr
      · have hname : s.name = wrapperName w.session.nextId := by
          rw [← hs]
          rfl
        have hresult : s.result = result := by
          rw [← hs]
          rfl
        rw [← hresult] at ht
        exact (hgated.remember hfaithful he (Expr.ensureConstant_eq_ok.1 hconst) ht hname hget hothers
          hfresh).of_eq rfl rfl rfl

/-- The last thing that is noted when an argument is promoted is its promotion. -/
theorem promoted_of_promote {ctx : CodeContext} {e : Expr} {params : List Ty} {result : Ty}
    {value : Gen Ty} {w w' : Workbench}
    (h : promote ctx e params result value w = (.ok (), w')) :
    ∃ event, w'.session.journal.back? = some event ∧ event.promoted? = some e.text := by
  cases promotion h with
  | @reused s _ _ hs hbind =>
    cases hbind
    exact ⟨.constantReused s.name e.text, Array.back?_push, rfl⟩
  | @wrapped s _ _ _ _ _ _ _ hbind =>
    cases hbind
    exact ⟨.constantPromoted e.text s, Array.back?_push, rfl⟩

end Gen

/-! ## Anonymous and declared functions -/

/-- From `w` on finished functions were kept, and with them the invariant. -/
def Walk.Gates (functions : FunctionTable) (options : Options) (block : Block) (w w' : Walk) :
    Prop :=
  w.Secures functions w' ∧ (w.Closed functions → w.session.Gated functions options block none →
    w'.session.Gated functions options block none)

instance (functions : FunctionTable) (options : Options) (block : Block) :
    IsPreorder Walk (Walk.Gates functions options block) where
  refl w := ⟨refl_of _ w, fun _ h => h⟩
  trans _ _ _ h h' := ⟨trans_of _ h.1 h'.1, fun hclosed h₀ => h'.2 (h.1.2 hclosed) (h.2 hclosed h₀)⟩

section Functions

variable {functions : FunctionTable} {options : Options} {block : Block}
  (hfaithful : block.TextFaithful)

include hfaithful

/-- Meeting an anonymous function keeps the invariant: the function is no wrapper. -/
theorem Hoist.lambda_gates {body : Expr} {text : String} {span : Span}
    (he : Expr.lambda body text span ∈ block.exprs) :
    Attempt.Keeps (Walk.Gates functions options block)
      (lambda functions options body text span) := by
  intro w
  refine ⟨lambda_secures he w, fun hclosed h => ?_⟩
  have hvalue : Gen.KeepsSession (Session.Gates functions w.table.get? options block)
      (Gen.value ⟨functions, options, w.table⟩ body) := fun w' =>
    ((Gen.stable_gates ⟨functions, options, w.table⟩ hfaithful).value (Block.body_mem_exprs he) w').2
  have hcounted : Session.Closed functions w.table.get?
      { w.session with nextId := w.session.nextId + 1 } :=
    hclosed.session.of_keepsCode (.refl _) rfl rfl
  rcases hrun : lambda functions options body text span w with ⟨r, w'⟩
  cases meeting hrun with
  | recorded => exact h.note fun _ hevent => nomatch hevent
  | identity => exact h.note fun _ hevent => nomatch hevent
  | untyped => exact h.of_eq rfl rfl rfl
  | failed _ _ _ hcompiled =>
    rcases Session.compileWith_gates hvalue.returnBody hcompiled hcounted (h.of_eq rfl rfl rfl) with
      ⟨_, -, hgated⟩ | ⟨hok, -⟩
    · exact hgated
    · cases hok
  | compiled _ _ hs hcompiled =>
    subst hs
    rcases Session.compileWith_gates hvalue.returnBody hcompiled hcounted (h.of_eq rfl rfl rfl) with
      ⟨_, herr, -⟩ | ⟨-, hgated, ⟨chunk, hget⟩, -⟩
    · cases herr
    · exact (hgated.close hget (.inr (name_lambdaSignature_ne _ _ _ _))).note
        fun _ hevent => nomatch hevent

/-- Compiling a declared function keeps the invariant: the compiler did not make it up. -/
theorem Session.compileDecl_gates {lambdas : LambdaTable} {d : Decl}
    (hd : ∀ e ∈ Stmt.exprsAll d.body, e ∈ block.exprs) :
    Attempt.Keeps (Gates functions lambdas.get? options block)
      (compileDecl ⟨functions, options, lambdas⟩ d) := by
  have hbody : Gen.KeepsSession (Gates functions lambdas.get? options block)
      (Gen.body ⟨functions, options, lambdas⟩ d.body) := fun w =>
    ((Gen.stable_gates ⟨functions, options, lambdas⟩ hfaithful).body hd w).choose_spec.2
  refine .bind (Attempt.keeps_ofExcept _) fun s S => ?_
  refine ⟨(compileWith_secures (fun w => (hbody w).1) rfl).1, fun hclosed h => ?_⟩
  rcases compileWith_gates hbody rfl hclosed h with ⟨_, -, hgated⟩ | ⟨-, hgated, ⟨chunk, hget⟩, -⟩
  · exact hgated
  · exact hgated.close hget (.inl rfl)

/-- A compilation ends in the invariant, however much of it failed. -/
theorem Block.gated_session :
    (block.session functions options).Gated functions options block none := by
  have hstart : Session.start.Gated functions options block none := by
    refine ⟨fun hs => ?_, fun _ hs => ?_, fun hs => ?_, fun _ hget => ?_, fun hevent => ?_⟩
    · simp [Session.wrapper?, Session.start] at hs
    · simp [Session.wrapper?, Session.start] at hs
    · simp [Session.wrapper?, Session.start] at hs
    · cases hget
    · simp [Session.start] at hevent
  have hwalk : Walk.Gates functions options block { session := .start }
      (block.walk functions options) :=
    Hoist.topLevel_keeps (fun _ _ _ he => Hoist.lambda_gates hfaithful he) block.stmts
      (fun _ he => he) _
  have hgated := hwalk.2 (Walk.closed_start functions) hstart
  have hclosed := (block.closed_walk functions options).session
  unfold session
  rw [hoist_eq]
  cases (Hoist.topLevel functions options block.stmts { session := .start }).1 with
  | error e => exact hgated.note fun _ hevent => by cases hevent
  | ok _ =>
    have hnote (S : Session) (name : String) (e : CompileError) :
        S.Gates functions (block.walk functions options).table.get? options block
          (S.note (.functionFailed name e)) :=
      ⟨⟨.refl _, fun h => h.of_keepsCode (.refl _) rfl rfl⟩,
        fun _ h => h.note fun _ hevent => by cases hevent⟩
    have hdecls := Session.compileDecls_keeps
      ⟨functions, options, (block.walk functions options).table⟩ hnote block.decls
      fun _ hd => Session.compileDecl_gates hfaithful (mem_exprs_of_mem_decls hd)
    exact (hdecls _).2 (hclosed.of_keepsCode (.refl _) rfl rfl)
      (hgated.note fun _ hevent => by cases hevent)

end Functions

/-! ## Code -/

/-- The operation codes that push constants and function values, and call functions. -/
def OpCode.constantCodes : List OpCode :=
  [.constant, .constantWide, .pushTrue, .pushFalse, .pushUnit, .bindFunction, .call]

/-- An instruction in the code of a constant pushes a constant, or a function value of some kind, or
calls a pure function. -/
inductive Instr.OfConstant (functions : FunctionTable) (binds : FunctionValue → Prop) :
    Instr → Prop where
  | push (c : Constant) : OfConstant functions binds (.push c)
  | bool (value : Bool) : OfConstant functions binds (.bool value)
  | unit : OfConstant functions binds .unit
  | call {s : Signature} (argCount : UInt8) (hs : functions.Knows s) (hpure : s.isPure = true) :
    OfConstant functions binds (.call s.hash argCount)
  | bind {v : FunctionValue} (hv : binds v) : OfConstant functions binds (.bind v)

theorem Instr.OfConstant.mono {functions : FunctionTable} {binds binds' : FunctionValue → Prop}
    (hbinds : ∀ {v}, binds v → binds' v) {i : Instr} (h : i.OfConstant functions binds) :
    i.OfConstant functions binds' := by
  cases h with
  | push c => exact .push c
  | bool value => exact .bool value
  | unit => exact .unit
  | call argCount hs hpure => exact .call argCount hs hpure
  | bind hv => exact .bind (hbinds hv)

theorem Instr.OfConstant.stored {functions : FunctionTable} {binds : FunctionValue → Prop}
    {i : Instr} (h : i.OfConstant functions binds) (p : Pool) :
    (i.stored p).OfConstant functions binds := by
  cases h with
  | push c => exact .push _
  | bool value => exact .bool value
  | unit => exact .unit
  | call argCount hs hpure => exact .call argCount hs hpure
  | bind hv => exact .bind hv

theorem Instr.OfConstant.op_mem {functions : FunctionTable} {binds : FunctionValue → Prop}
    {i : Instr} (h : i.OfConstant functions binds) (p : Pool) :
    i.op p ∈ OpCode.constantCodes := by
  cases h with
  | push c =>
    rw [Instr.op]
    split <;> decide
  | bool value => cases value <;> simp [Instr.op, OpCode.constantCodes]
  | unit | call | bind => simp [Instr.op, OpCode.constantCodes]

/-- A function value that is the wrapper of one of these expressions. -/
def CodeEnv.Wraps (env : CodeEnv) (es : List Expr) (v : FunctionValue) : Prop :=
  ∃ e ∈ es, ∃ t s, env.wrappers (Gen.wrapperKey t e.text) = some s ∧ v = s.toValue

theorem CodeEnv.Wraps.of_subset {env : CodeEnv} {es es' : List Expr} (hsub : es ⊆ es')
    {v : FunctionValue} (h : env.Wraps es v) : env.Wraps es' v := by
  obtain ⟨e, he, t, s, hs, rfl⟩ := h
  exact ⟨e, hsub he, t, s, hs, rfl⟩

section Code

variable {env : CodeEnv} {binds : FunctionValue → Prop}

private theorem OperandCode.ofConstant_of {e : Expr} {ms : List Emitted} {t : Ty}
    (ih : ∀ {ms t?}, ExprCode env e ms t? → ∀ i ∈ instrs ms, i.OfConstant env.functions binds)
    (h : OperandCode env e ms t) : ∀ i ∈ instrs ms, i.OfConstant env.functions binds := by
  cases h with
  | value h => exact ih h
  | unit h =>
    intro i hi
    rw [instrs_append, List.mem_append] at hi
    rcases hi with hi | hi
    · exact ih h i hi
    · rw [List.mem_singleton.1 hi]
      exact .unit

mutual

/-- The code of a constant, with wrappers of expressions below it. -/
theorem ExprCode.ofConstant {maxDepth : Nat} : ∀ (e : Expr) {depth : Nat} {ms : List Emitted}
    {t? : Option Ty}, e.isConstantAt env.functions maxDepth depth = true → ExprCode env e ms t? →
      ∀ i ∈ instrs ms, i.OfConstant env.functions (env.Wraps e.subexprs.tail)
  | .literal value _ _, _, _, _, hconst, h => by
    cases h with
    | literal =>
      intro i hi
      rw [List.mem_singleton.1 hi]
      cases value with
      | int v => exact .push _
      | real v => exact .push _
      | bool v => exact .bool v
      | string | unit => cases hconst
  | .pair _ _ _ _, _, _, _, hconst, _ | .var _, _, _, _, hconst, _
  | .placeholder _, _, _, _, hconst, _ | .lambda _ _ _, _, _, _, hconst, _ => nomatch hconst
  | .call callee args _ _, depth, _, _, hconst, h => by
    cases h with
    | @call _ _ s _ _ _ hs harity hargs =>
      simp only [Expr.isConstantAt, hs, Option.any_some, Bool.and_eq_true] at hconst
      intro i hi
      rw [instrs_append, List.mem_append] at hi
      rcases hi with hi | hi
      · exact ArgsCode.ofConstant args hconst.2 hargs i hi
      · rw [List.mem_singleton.1 hi]
        exact .call _ (FunctionTable.knows_of_get? hs) hconst.1.2

theorem ArgsCode.ofConstant {maxDepth : Nat} : ∀ (args : List Expr) {depth : Nat} {ps : List Param}
    {ms : List Emitted}, Expr.areConstantAt env.functions maxDepth depth args = true →
      ArgsCode env ps args ms →
        ∀ i ∈ instrs ms, i.OfConstant env.functions (env.Wraps (Expr.subexprsAll args))
  | [], _, _, _, _, h => by
    cases h
    exact fun i hi => nomatch hi
  | e :: args, depth, _, _, hconst, h => by
    simp only [Expr.areConstantAt, Bool.and_eq_true] at hconst
    have hbelow : e.subexprs.tail ⊆ Expr.subexprsAll (e :: args) := fun _ he' =>
      List.mem_append_left _ (List.mem_of_mem_tail he')
    have hrest : Expr.subexprsAll args ⊆ Expr.subexprsAll (e :: args) := fun _ he' =>
      List.mem_append_right _ he'
    cases h with
    | value he hes =>
      intro i hi
      rw [instrs_append, List.mem_append] at hi
      rcases hi with hi | hi
      · have hvalue := he.ofConstant_of fun h => ExprCode.ofConstant e hconst.1 h
        exact (hvalue i hi).mono (.of_subset hbelow)
      · exact (ArgsCode.ofConstant args hconst.2 hes i hi).mono (.of_subset hrest)
    | wrapped hp _ hs hes =>
      intro i hi
      rcases List.mem_cons.1 hi with rfl | hi
      · exact .bind ⟨e, List.mem_append_left _ e.mem_subexprs_self, _, _, hs, rfl⟩
      · exact (ArgsCode.ofConstant args hconst.2 hes i hi).mono (.of_subset hrest)

end

/-- The code of a body that returns a constant of the result type. -/
theorem BodyCode.ofConstant {e : Expr} {span : Span} {result : Ty} {ms : List Emitted}
    {maxDepth : Nat} (hconst : e.isConstant env.functions maxDepth = true)
    (htype : e.typeOf env.functions env.scope = some result)
    (h : BodyCode env result [.ret e span] ms) :
    ∃ is, instrs ms = is ++ [.ret (.ofTy result)] ∧
      ∀ i ∈ is, i.OfConstant env.functions (env.Wraps e.subexprs.tail) := by
  cases h with
  | @ret _ ms t _ he ht =>
    have hsame : result = t := Option.some.inj (htype.symm.trans he.typeOf)
    subst hsame
    refine ⟨instrs ms, ?_, he.ofConstant_of fun h => ExprCode.ofConstant e hconst h⟩
    simp [returnCode]

end Code

/-! ## Modules -/

/-- A function made for a constant. -/
def Entry.IsWrapper (entry : Entry) : Prop :=
  entry.isSynthetic = true ∧ ∃ id : Nat, entry.name = "_lambda_" ++ toString id ++ "$constant"

/-- A function value over a wrapper in the module that has another name than an entry. -/
def Module.WrapsBeside (m : Module) (entry : Entry) (v : FunctionValue) : Prop :=
  ∃ entry' ∈ m.functions, entry'.IsWrapper ∧ entry'.name ≠ entry.name ∧
    v = entry'.signature.toValue

namespace Block

variable {block : Block} {functions : FunctionTable} {options : Options}
  (hfaithful : block.TextFaithful)

include hfaithful

/-- The wrappers that a session remembers are in the module. -/
theorem mem_functions_of_wrapper {key : String} {s : Signature}
    (hs : (block.session functions options).wrapper? key = some s) :
    ∃ entry ∈ (compileBlock functions options block).module.functions,
      entry.IsWrapper ∧ entry.signature = s := by
  obtain ⟨chunk, hget⟩ := (block.closed_session functions options).wrappers hs
  have hgated : (block.session functions options).Gated functions options block none :=
    gated_session hfaithful
  rw [module_compileBlock]
  exact ⟨_, List.mem_of_find?_eq_some hget, ⟨rfl, hgated.names hs⟩, rfl⟩

/-- A wrapper was made for a constant of the block. -/
theorem constant_of_wrapper {entry : Entry}
    (hentry : entry ∈ (compileBlock functions options block).module.functions)
    (hwrapper : entry.IsWrapper) :
    ∃ e ∈ block.exprs, ∃ t,
      (block.session functions options).wrapper? (Gen.wrapperKey t e.text) = some entry.signature ∧
        e.isConstant functions options.maxDepth = true ∧
          ∀ scope, e.typeOf functions scope = some entry.signature.result := by
  obtain ⟨chunk, hcode, -⟩ := code_of_mem options hfaithful hentry
  have hgated : (block.session functions options).Gated functions options block none :=
    gated_session hfaithful
  obtain ⟨hsynthetic, id, hname⟩ := hwrapper
  rw [module_compileBlock] at hentry
  have hget := (sound_session options hfaithful).1.filed entry hentry
  rw [hname] at hget
  obtain ⟨e, he, t, hs⟩ := hgated.remembered (by simp) hget hsynthetic
    (by rw [Entry.isDefined, hcode]; rfl)
  exact ⟨e, he, t, hs, hgated.constants he hs⟩

/-- The code of a wrapper is that of a constant, and the wrappers in it are others. -/
theorem code_of_wrapper {entry : Entry}
    (hentry : entry ∈ (compileBlock functions options block).module.functions)
    (hwrapper : entry.IsWrapper) :
    ∃ chunk is, entry.code? = some chunk ∧
      chunk.code.toList = codeBytes (compileBlock functions options block).module.pool
        (is ++ [.ret (.ofTy entry.signature.result)]) ∧
      (∀ i ∈ is ++ [.ret (.ofTy entry.signature.result)],
        i.Interned (compileBlock functions options block).module.pool) ∧
      ∀ i ∈ is, i.OfConstant functions
        ((compileBlock functions options block).module.WrapsBeside entry) := by
  obtain ⟨e, he, t, hs, hconst, htype⟩ := constant_of_wrapper hfaithful hentry hwrapper
  obtain ⟨chunk, hchunk, -, hcompiled⟩ := code_of_mem options hfaithful hentry
  obtain ⟨-, -, ms, hms, hinterned, hcode⟩ := hcompiled (.wrapper he hs)
  obtain ⟨is, his, hof⟩ := hms.ofConstant hconst (htype _)
  have hinterned := hinterned.instrs
  rw [his] at hcode hinterned
  refine ⟨chunk, is, hchunk, hcode, hinterned, fun i hi => (hof i hi).mono ?_⟩
  rintro v ⟨e', he', t', s', hs', rfl⟩
  obtain ⟨entry', hentry', hwrapper', rfl⟩ := mem_functions_of_wrapper hfaithful hs'
  refine ⟨entry', hentry', hwrapper', fun hname => ?_, rfl⟩
  -- Wrappers of one name would be those of one text, but a lower expression has another text.
  have hgated : (block.session functions options).Gated functions options block none :=
    gated_session hfaithful
  have htext := (Gen.wrapperKey_inj (hgated.apart hs' hs hname)).2
  have hblock := mem_exprs_of_mem_subexprs (List.mem_of_mem_tail he') he
  have hsame := Expr.height_eq_of_eraseSpans_eq (hfaithful e' hblock e he htext)
  have hlower := Expr.height_lt_of_mem_tail he'
  omega

end Block

/-- The gate for constants.  Whatever was promoted to a function, through a new wrapper or a remembered
one, is constant.  The journal says what that was: a promotion that is completed is the last thing that
is noted there.  The code of a wrapper only pushes constants and calls functions, and then returns.  As
long as indices fit, the functions that it calls are known and pure, and those that it pushes are other
wrappers of the module. -/
theorem constants_gated {block : Block} (functions : FunctionTable) (options : Options)
    (hfaithful : block.TextFaithful) :
    (∀ event ∈ (compileBlock functions options block).journal, ∀ text,
      event.promoted? = some text → block.ConstantText functions options text) ∧
    (∀ (ctx : CodeContext) (e : Expr) (params : List Ty) (result : Ty) (value : Gen Ty)
        (w w' : Workbench), Gen.promote ctx e params result value w = (.ok (), w') →
      ∃ event, w'.session.journal.back? = some event ∧ event.promoted? = some e.text) ∧
    ∀ entry ∈ (compileBlock functions options block).module.functions, entry.IsWrapper →
      ∃ chunk ops kind, entry.code? = some chunk ∧ chunk.opcodes = ops ++ [ValueKind.returnOp kind] ∧
        (∀ op ∈ ops, op ∈ OpCode.constantCodes) ∧
        ((compileBlock functions options block).module.pool.size ≤ 65536 →
          ∃ is, chunk.listing? (compileBlock functions options block).module.pool = some is ∧
            (∀ target argCount, Instr.call target argCount ∈ is →
              ∃ s, functions.get? s.name = some s ∧ s.isPure = true ∧ s.hash = target) ∧
            ∀ v, Instr.bind v ∈ is →
              (compileBlock functions options block).module.WrapsBeside entry v) := by
  refine ⟨?_, fun _ _ _ _ _ _ _ => Gen.promoted_of_promote, ?_⟩
  · intro event hevent text htext
    have hgated : (block.session functions options).Gated functions options block none :=
      Block.gated_session hfaithful
    rw [Block.journal_compileBlock] at hevent
    exact hgated.promoted hevent htext
  · intro entry hentry hwrapper
    obtain ⟨chunk, is, hchunk, hcode, hinterned, hof⟩ :=
      Block.code_of_wrapper hfaithful hentry hwrapper
    generalize (compileBlock functions options block).module.WrapsBeside entry = binds at hof ⊢
    generalize (compileBlock functions options block).module.pool = p at hcode hinterned ⊢
    have hlisted {i : Instr}
        (hi : i ∈ (is ++ [Instr.ret (.ofTy entry.signature.result)]).map (Instr.stored · p)) :
        i.OfConstant functions binds ∨ i = .ret (.ofTy entry.signature.result) := by
      obtain ⟨j, hj, rfl⟩ := List.mem_map.1 hi
      rcases List.mem_append.1 hj with hj | hj
      · exact .inl ((hof j hj).stored p)
      · rw [List.mem_singleton.1 hj]
        exact .inr rfl
    refine ⟨chunk, is.map fun i => i.op p, .ofTy entry.signature.result, hchunk, ?_, ?_,
      fun hsize => ⟨_, Chunk.listing?_of_code hcode hinterned hsize, ?_, ?_⟩⟩
    · rw [Chunk.opcodes_of_code hcode, List.map_append]
      rfl
    · intro op hop
      obtain ⟨i, hi, rfl⟩ := List.mem_map.1 hop
      exact (hof i hi).op_mem p
    · intro target argCount hcall
      rcases hlisted hcall with h | h
      · cases h with
        | call _ hs hpure => exact ⟨_, hs, hpure, rfl⟩
      · cases h
    · intro v hbind
      rcases hlisted hbind with h | h
      · cases h with
        | bind hv => exact hv
      · cases h

/-- A block that declares one function, which returns `g(h(2))`. -/
def constantBlock : Block :=
  ⟨[.decl ⟨"f", default⟩
    [.ret (.call ⟨"g", default⟩
      [.call ⟨"h", default⟩ [.literal (.int 2) "2" default] "h(2)" default] "g(h(2))" default)
      default] default]⟩

/-- The functions that `constantBlock` refers to: `g` and `h` take a function each, and `h` is pure. -/
def constantFunctions : FunctionTable :=
  .ofList [⟨"f", [], .int, "Main", false⟩, ⟨"g", [⟨"a", .fn [.real] .int⟩], .int, "Main", false⟩,
    ⟨"h", [⟨"a", .fn [.real] .int⟩], .int, "Main", true⟩]

theorem textFaithful_constantBlock : constantBlock.TextFaithful := by
  intro e he e' he' htext
  simp only [constantBlock, Block.exprs, Stmt.exprsAll, Stmt.exprs, Expr.subexprs, Expr.subexprsAll,
    List.append_nil, List.mem_cons, List.not_mem_nil, or_false] at he he'
  rcases he with rfl | rfl | rfl <;> rcases he' with rfl | rfl | rfl <;>
    first | rfl | simp [Expr.text] at htext

/-- The argument of `h` in `constantBlock`. -/
def constantTwo : Expr := .literal (.int 2) "2" default

/-- The first function of a session, before its body. -/
def constantStart : Workbench := ⟨.start, .start ⟨"f", [], .int, "Main", false⟩ default 0⟩

/-- What it is compiled against, if there are no anonymous functions. -/
def constantContext : CodeContext := ⟨constantFunctions, {}, .empty⟩

/-- The promotion of `constantTwo` there. -/
def constantRun : Except CompileError Unit × Workbench :=
  Gen.promote constantContext constantTwo [.real] .int (Gen.value constantContext constantTwo)
    constantStart

theorem constantRun_eq_ok : constantRun = (.ok (), constantRun.2) :=
  Prod.ext (by decide +kernel) rfl

theorem constants_gated_constantBlock :
    (compileBlock constantFunctions {} constantBlock).journal.toList.filterMap Event.promoted? =
        ["2", "h(2)"] ∧
      constantBlock.ConstantText constantFunctions {} "2" ∧
      constantBlock.ConstantText constantFunctions {} "h(2)" ∧
      (∃ event, constantRun.2.session.journal.back? = some event ∧ event.promoted? = some "2") ∧
      (compileBlock constantFunctions {} constantBlock).module.functions.map Entry.name =
        ["f", "_lambda_0$constant", "_lambda_1$constant"] ∧
      ∀ entry ∈ (compileBlock constantFunctions {} constantBlock).module.functions, entry.IsWrapper →
        ∃ chunk ops kind, entry.code? = some chunk ∧
          chunk.opcodes = ops ++ [ValueKind.returnOp kind] ∧
          ∀ op ∈ ops, op ∈ OpCode.constantCodes := by
  have hjournal : (compileBlock constantFunctions {} constantBlock).journal.toList.filterMap
      Event.promoted? = ["2", "h(2)"] := by
    decide +kernel
  obtain ⟨hpromoted, hnoted, hwrappers⟩ :=
    constants_gated constantFunctions {} textFaithful_constantBlock
  have htext : ∀ text ∈ ["2", "h(2)"], constantBlock.ConstantText constantFunctions {} text := by
    intro text hmem
    rw [← hjournal] at hmem
    obtain ⟨event, hevent, htext⟩ := List.mem_filterMap.1 hmem
    exact hpromoted event (Array.mem_toList_iff.1 hevent) text htext
  refine ⟨hjournal, htext _ (by decide), htext _ (by decide),
    hnoted _ _ _ _ _ _ _ constantRun_eq_ok, by decide +kernel, fun entry hentry hwrapper => ?_⟩
  obtain ⟨chunk, ops, kind, hchunk, hops, hcodes, -⟩ := hwrappers entry hentry hwrapper
  exact ⟨chunk, ops, kind, hchunk, hops, hcodes⟩

end BlockCompiler
