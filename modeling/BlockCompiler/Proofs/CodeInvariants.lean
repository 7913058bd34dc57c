import BlockCompiler.Proofs.Accounting

/-!
# Properties of all code

Much of what is said of a module is said of the code of each of its functions: it is sized for what it
needs, or it loads the reals that its source writes.  Such a property outlives everything else that
happens to the session, so it has to be shown only where a body was just compiled.

* `Registry.AllCode` says that all code in a registry has a property, and `Session.AllCode` lets the
  property depend on the pool.  Here the pool grows, and the property must survive that.
* `Session.GrowsTo` is the growth, and `Session.KeepsCode` adds that the property is kept.
* `Session.keepsCode_compileWith` is the step, `Gen.stable_keepsCode` carries it through expressions, and
  `Block.allCode_session` through a whole block.
-/

namespace BlockCompiler

/-! ## Growing sessions -/

/-- Pool and registry of a session grow. -/
structure Session.GrowsTo (S S' : Session) : Prop where
  pool : S.pool.GrowsTo S'.pool
  registry : S.registry.GrowsTo S'.registry

namespace Session

instance : IsPreorder Session GrowsTo where
  refl _ := ⟨.refl _, .refl _⟩
  trans _ _ _ h h' := ⟨h.pool.trans h'.pool, h.registry.trans h'.registry⟩

/-- However the compilation of a function ends, the session grows if it does with the body. -/
theorem growsTo_compileWith {s : Signature} {flags : EntryFlags} {site : Span} {depth : Nat}
    {body : Gen Unit} (hbody : Gen.KeepsSession GrowsTo body) :
    Attempt.Keeps GrowsTo (compileWith s flags site depth body) := by
  intro S
  rcases hrun : compileWith s flags site depth body S with ⟨r, S'⟩
  cases functionRun (fun w => (hbody w).registry) hrun with
  | taken hdecl => exact refl_of GrowsTo S
  | failed hdecl heq hgrows =>
    have hgrown := hbody.of_run heq
    exact ⟨hgrown.pool, Registry.growsTo_abandon hdecl hgrows⟩
  | finished hdecl heq hgrows hdef =>
    have hgrown := hbody.of_run heq
    exact ⟨hgrown.pool, Registry.growsTo_define hdecl hgrows hdef⟩

end Session

namespace Gen

/-- A session grows while a constant is promoted. -/
theorem growsTo_promote {ctx : CodeContext} {e : Expr} {value : Gen Ty}
    (hvalue : KeepsSession Session.GrowsTo value) (params : List Ty) (result : Ty) :
    KeepsSession Session.GrowsTo (promote ctx e params result value) := by
  intro w
  have hcompile (s : Signature) (depth : Nat) : Attempt.Keeps Session.GrowsTo
      (Session.compileWith s .synthetic e.span depth (returnBody ctx e.text e.span value)) :=
    Session.growsTo_compileWith hvalue.returnBody
  rcases hrun : promote ctx e params result value w with ⟨r, w'⟩
  cases promotion hrun with
  | reused hs hbind =>
    cases hbind
    exact ⟨Pool.growsTo_add _ _, .refl _⟩
  | refused => exact ⟨.refl _, .refl _⟩
  | failed _ _ _ hcompiled =>
    have hgrown := (hcompile _ _).of_run hcompiled
    exact ⟨hgrown.pool, hgrown.registry⟩
  | wrapped _ _ _ hcompiled hbind =>
    cases hbind
    have hgrown := (hcompile _ _).of_run hcompiled
    exact ⟨hgrown.pool.trans (Pool.growsTo_add _ _), hgrown.registry⟩

theorem stable_growsTo (ctx : CodeContext) (block : Block) :
    Stable ctx block fun _ => Session.GrowsTo where
  preorder _ := inferInstance
  mono _ h := h
  intern _ _ _ := ⟨Pool.growsTo_add _ _, .refl _⟩
  promote _ _ hvalue _ params result _ := growsTo_promote hvalue params result

theorem growsTo_value (ctx : CodeContext) (e : Expr) :
    KeepsSession Session.GrowsTo (value ctx e) := by
  have hmem : e ∈ Block.exprs ⟨[.expr e]⟩ := List.mem_append_left _ e.mem_subexprs_self
  exact (stable_growsTo ctx ⟨[.expr e]⟩).value hmem

end Gen

/-! ## Registries -/

namespace Registry

/-- Whether all code in a registry is as a property of a signature and code says. -/
def AllCode (P : Signature → Chunk → Prop) (r : Registry) : Prop :=
  ∀ ⦃name entry chunk⦄, r.get? name = some entry → entry.code? = some chunk → P entry.signature chunk

variable {P : Signature → Chunk → Prop} {r r' : Registry} {s : Signature} {flags : EntryFlags} {span : Span}

/-- A registered function has no code yet. -/
theorem AllCode.declare (h : r.AllCode P) (hdecl : r.declare s flags span = .ok r') : r'.AllCode P := by
  intro name entry chunk hentry hchunk
  rw [get?_of_declare hdecl] at hentry
  split at hentry
  · cases hentry
    cases hchunk
  · exact h hentry hchunk

theorem AllCode.abandon (h : r.AllCode P) (hpending : r.get? s.name = some (.ofSignature s flags)) :
    (r.abandon s.name).AllCode P := by
  intro name entry chunk hentry hchunk
  by_cases hname : name = s.name
  · subst hname
    rw [get?_abandon_self hpending rfl] at hentry
    cases hentry
  · rw [get?_abandon_of_ne _ hname] at hentry
    exact h hentry hchunk

theorem AllCode.define (h : r.AllCode P) (hpending : r.get? s.name = some (.ofSignature s flags))
    {code : Chunk} (hcode : P s code) (hdef : r.define s.name code span = .ok r') : r'.AllCode P := by
  intro name entry chunk hentry hchunk
  obtain ⟨old, hget, rfl⟩ := Option.map_eq_some_iff.1 ((get?_define hdef name).symm.trans hentry)
  by_cases hname : old.name = s.name
  · obtain rfl : old = .ofSignature s flags := by
      rw [← name_of_get? hget, hname, hpending] at hget
      exact (Option.some.inj hget).symm
    rw [attach, if_pos hname] at hchunk ⊢
    cases hchunk
    exact hcode
  · rw [attach_of_ne hname] at hchunk ⊢
    exact h hget hchunk

end Registry

/-! ## Sessions -/

/-- What may be known of the code of a function with a signature, where the constants are a pool's. -/
abbrev CodeProperty : Type := Pool → Signature → Chunk → Prop

/-- Whether a property of code survives the growth of the pool. -/
def CodeProperty.Survives (P : CodeProperty) : Prop :=
  ∀ ⦃p q s chunk⦄, P p s chunk → p.GrowsTo q → P q s chunk

namespace Session

variable {P : CodeProperty} {S S' S'' : Session}

/-- Whether all code of a session has a property. -/
def AllCode (P : CodeProperty) (S : Session) : Prop := S.registry.AllCode (P S.pool)

/-- From `S` on the session grew, and its code kept a property. -/
def KeepsCode (P : CodeProperty) (S S' : Session) : Prop := S.GrowsTo S' ∧ (S.AllCode P → S'.AllCode P)

instance : IsPreorder Session (KeepsCode P) where
  refl S := ⟨refl_of GrowsTo S, id⟩
  trans _ _ _ h h' := ⟨trans_of GrowsTo h.1 h'.1, h'.2 ∘ h.2⟩

/-- There is no code in the beginning. -/
theorem allCode_start (P : CodeProperty) : start.AllCode P := by
  intro name entry chunk hentry
  cases hentry

/-- The property outlives the compilation of a function whose code has it. -/
theorem keepsCode_compileWith {s : Signature} {flags : EntryFlags} {site : Span} {depth : Nat}
    {body : Gen Unit} (hbody : Gen.KeepsSession (KeepsCode P) body)
    (hcode : ∀ {S w}, body ⟨S, .start s site depth⟩ = (.ok (), w) →
      P w.session.pool s (w.frame.emitter.finish w.frame.scope.maxLocals)) :
    Attempt.Keeps (KeepsCode P) (compileWith s flags site depth body) := by
  intro S
  have hgrows : GrowsTo S (compileWith s flags site depth body S).2 :=
    growsTo_compileWith (fun w => (hbody w).1) S
  refine ⟨hgrows, fun h => ?_⟩
  have hdeclared {r : Registry} (hdecl : S.registry.declare s flags site = .ok r) :
      AllCode P ({ S with registry := r }.note (.declared s)) :=
    Registry.AllCode.declare h hdecl
  rcases hrun : compileWith s flags site depth body S with ⟨r, S'⟩
  cases functionRun (fun w => (hbody w).1.registry) hrun with
  | taken hdecl => exact h
  | failed hdecl heq hgrown =>
    have hall := (hbody.of_run heq).2 (hdeclared hdecl)
    exact Registry.AllCode.abandon hall (Registry.get?_declared hdecl hgrown)
  | finished hdecl heq hgrown hdef =>
    have hall := (hbody.of_run heq).2 (hdeclared hdecl)
    exact Registry.AllCode.define hall (Registry.get?_declared hdecl hgrown) (hcode heq) hdef

section Survives

variable (hP : P.Survives)

include hP

/-- More constants make no difference. -/
theorem AllCode.of_pool (h : S.AllCode P) (hregistry : S'.registry = S.registry)
    (hpool : S.pool.GrowsTo S'.pool) : S'.AllCode P := by
  intro name entry chunk hentry hcode
  rw [hregistry] at hentry
  exact hP (h hentry hcode) hpool

theorem keepsCode_of_pool (hregistry : S'.registry = S.registry) (hpool : S.pool.GrowsTo S'.pool) :
    KeepsCode P S S' :=
  ⟨⟨hpool, hregistry ▸ .refl _⟩, fun h => h.of_pool hP hregistry hpool⟩

theorem KeepsCode.trans_pool (h : KeepsCode P S S') (hregistry : S''.registry = S'.registry)
    (hpool : S'.pool.GrowsTo S''.pool) : KeepsCode P S S'' :=
  trans_of (KeepsCode P) h (keepsCode_of_pool hP hregistry hpool)

/-- The counter does not matter. -/
theorem KeepsCode.of_nextId {id : Nat} (h : KeepsCode P { S with nextId := id } S') : KeepsCode P S S' := by
  have hcounted : KeepsCode P S { S with nextId := id } := keepsCode_of_pool hP rfl (.refl _)
  exact trans_of (KeepsCode P) hcounted h

end Survives

end Session

/-! ## Expressions -/

/-- Whether a function with a signature that returns an expression, in a statement at a place, has a property
once it is compiled. -/
def Gen.ReturnHas (P : CodeProperty) (ctx : CodeContext) (e : Expr) (span : Span) (s : Signature) : Prop :=
  ∀ ⦃S site depth w⦄,
    returnBody ctx e.text span (value ctx e) ⟨S, .start s site depth⟩ = (.ok (), w) →
      P w.session.pool s (w.frame.emitter.finish w.frame.scope.maxLocals)

/-- Whether the wrapper of an expression has a property once it is compiled. -/
def Gen.WrapperHas (P : CodeProperty) (ctx : CodeContext) (e : Expr) : Prop :=
  ∀ id params result, ReturnHas P ctx e e.span (wrapperSignature id params result ctx.options.owner)

section Blocks

variable {P : CodeProperty} (hP : P.Survives)

include hP

/-- The property is kept while the expressions of a block are compiled, if their wrappers have it. -/
theorem Gen.stable_keepsCode {ctx : CodeContext} {block : Block}
    (hcode : ∀ e ∈ block.exprs, WrapperHas P ctx e) :
    Stable ctx block fun _ => Session.KeepsCode P where
  preorder _ := inferInstance
  mono _ h := h
  intern _ _ _ := Session.keepsCode_of_pool hP rfl (Pool.growsTo_add _ _)
  promote e he hvalue _ params result _ w := by
    have hcompile (id depth : Nat) : Attempt.Keeps (Session.KeepsCode P)
        (Session.compileWith (wrapperSignature id params result ctx.options.owner) .synthetic e.span depth
          (returnBody ctx e.text e.span (value ctx e))) :=
      Session.keepsCode_compileWith hvalue.returnBody fun hrun => hcode e he id params result hrun
    rcases hrun : promote ctx e params result (value ctx e) w with ⟨r, w'⟩
    cases promotion hrun with
    | reused hs hbind =>
      cases hbind
      exact Session.keepsCode_of_pool hP rfl (Pool.growsTo_add _ _)
    | refused => exact refl_of (Session.KeepsCode P) w.session
    | failed _ _ hs hcompiled =>
      cases hs
      exact ((hcompile _ _).of_run hcompiled).of_nextId hP
    | @wrapped s S _ _ _ _ hs hcompiled hbind =>
      cases hs
      cases hbind
      have hkept := ((hcompile _ _).of_run hcompiled).of_nextId hP
      exact hkept.trans_pool hP rfl (Pool.growsTo_add S.pool (.bound _))

/-- It is kept when an anonymous function is met, if its function and the wrappers in it have it. -/
theorem Hoist.lambda_keepsCode {functions : FunctionTable} {options : Options} {body : Expr}
    {text : String} {span : Span}
    (hcode : ∀ lambdas id result, Gen.ReturnHas P ⟨functions, options, lambdas⟩ body span
      (lambdaSignature id body result options.owner))
    (hwrappers : ∀ lambdas, ∀ e ∈ body.subexprs, Gen.WrapperHas P ⟨functions, options, lambdas⟩ e) :
    Attempt.Keeps (InvImage (Session.KeepsCode P) Walk.session)
      (lambda functions options body text span) := by
  intro w
  have hexprs : ∀ e ∈ Block.exprs ⟨[.expr body]⟩, e ∈ body.subexprs := by
    intro e he
    simpa [Block.exprs, Stmt.exprsAll, Stmt.exprs] using he
  have hmem : body ∈ Block.exprs ⟨[.expr body]⟩ := List.mem_append_left _ body.mem_subexprs_self
  have hvalue := (Gen.stable_keepsCode hP fun e he => hwrappers w.table e (hexprs e he)).value hmem
  have hcompile (id : Nat) (result : Ty) : Attempt.Keeps (Session.KeepsCode P)
      (Session.compileWith (lambdaSignature id body result options.owner) .synthetic span 0
        (Gen.returnBody ⟨functions, options, w.table⟩ body.text span
          (Gen.value ⟨functions, options, w.table⟩ body))) :=
    Session.keepsCode_compileWith hvalue.returnBody fun hrun => hcode w.table id result hrun
  rcases hrun : lambda functions options body text span w with ⟨r, w'⟩
  cases meeting hrun with
  | recorded | identity | untyped => exact Session.keepsCode_of_pool hP rfl (.refl _)
  | failed _ _ hs hcompiled =>
    cases hs
    exact ((hcompile _ _).of_run hcompiled).of_nextId hP
  | compiled _ _ hs hcompiled =>
    cases hs
    exact (((hcompile _ _).of_run hcompiled).of_nextId hP).trans_pool hP rfl (.refl _)

/-- It is kept when a declared function is compiled, if its code and the wrappers in it have it. -/
theorem Session.keepsCode_compileDecl {ctx : CodeContext} {d : Decl}
    (hwrappers : ∀ e ∈ Stmt.exprsAll d.body, Gen.WrapperHas P ctx e)
    (hbody : ∀ {S : Session} {s : Signature} {site : Span} {depth : Nat} {w : Workbench},
      ctx.functions.get? d.name.name = some s →
        Gen.body ctx d.body ⟨S, .start s site depth⟩ = (.ok (), w) →
          P w.session.pool s (w.frame.emitter.finish w.frame.scope.maxLocals)) :
    Attempt.Keeps (KeepsCode P) (compileDecl ctx d) := by
  have hblock : ∀ e ∈ Block.exprs ⟨d.body⟩, Gen.WrapperHas P ctx e := hwrappers
  have hkeeps : Gen.KeepsSession (KeepsCode P) (Gen.body ctx d.body) := fun w =>
    ((Gen.stable_keepsCode hP hblock).body (fun _ he => he) w).choose_spec
  refine .bind_of_run (Attempt.keeps_ofExcept _) fun s _ _ hresolve => ?_
  have hs := Expr.resolve_eq_ok.1 (Attempt.ofExcept_eq_ok.1 hresolve).1
  exact keepsCode_compileWith hkeeps (hbody hs)

/-- All code of a block has the property, if the code of its anonymous functions has it, and that of its
declared functions after a walk that succeeds. -/
theorem Block.allCode_session {block : Block} {functions : FunctionTable} {options : Options}
    (hlambdas : Hoist.VisitedLambdasKeep block functions options
      (InvImage (Session.KeepsCode P) Walk.session))
    (hdecls : ∀ w, Hoist.topLevel functions options block.stmts { session := .start } = (.ok (), w) →
      ∀ d ∈ block.decls, Attempt.Keeps (Session.KeepsCode P)
        (Session.compileDecl ⟨functions, options, w.table⟩ d)) :
    (block.session functions options).AllCode P := by
  have hwalk : Session.KeepsCode P .start (block.walk functions options).session :=
    Hoist.topLevel_keeps_of_visited hlambdas block.stmts (fun _ he => he) { session := .start }
  have hall := hwalk.2 (Session.allCode_start P)
  unfold session
  rw [hoist_eq]
  cases hrun : (Hoist.topLevel functions options block.stmts { session := .start }).1 with
  | error e => exact hall.of_pool hP rfl (.refl _)
  | ok _ =>
    have hkeeps := Session.compileDecls_keeps (R := Session.KeepsCode P)
      ⟨functions, options, (block.walk functions options).table⟩
      (fun _ _ _ => Session.keepsCode_of_pool hP rfl (.refl _)) block.decls
      (hdecls _ (Prod.ext hrun rfl))
    exact (hkeeps _).2 (hall.of_pool hP rfl (.refl _))

end Blocks

/-- What is known of all code of a block is known of the functions of its module. -/
theorem Block.code_has_of_mem {P : CodeProperty} {block : Block} {functions : FunctionTable}
    {options : Options} (hall : (block.session functions options).AllCode P) {entry : Entry} {chunk : Chunk}
    (hentry : entry ∈ (compileBlock functions options block).module.functions)
    (hcode : entry.code? = some chunk) :
    P (compileBlock functions options block).module.pool entry.signature chunk := by
  obtain ⟨-, hnodup, -⟩ := block.session_outcomes functions options
  rw [module_compileBlock] at hentry ⊢
  exact hall (Registry.get?_of_mem hnodup hentry) hcode

end BlockCompiler
