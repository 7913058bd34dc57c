import BlockCompiler.Proofs.Accounting

/-!
# Modules are closed

The pool of a module is never rolled back: a constant that the code of a failed function added stays
there.  So a function value in the pool may have been asked for by code that no longer exists.  Even
so there is always something behind it.

* `Registry.Made r s` says that the compiler made up a function with the signature `s` and finished it.
  That can not be undone: `Registry.KeepsCode` is kept by every step of a registration.
* `Session.Closed` is the invariant.  Function values are over known or finished functions, callees
  are known, and so are the signatures that later code may find: wrappers and anonymous functions are
  looked up only after they were finished.
* `Gen.stable_secures` carries it through expressions, `Hoist.lambda_secures` through the walk, and
  `Session.compileDecls_secures` through the declarations.
-/

namespace BlockCompiler

/-! ## Finished functions -/

namespace Registry

/-- Entries that have code stay as they are. -/
def KeepsCode (r r' : Registry) : Prop :=
  ∀ ⦃name e chunk⦄, r.get? name = some e → e.code? = some chunk → r'.get? name = some e

theorem KeepsCode.refl (r : Registry) : r.KeepsCode r := fun _ _ _ he _ => he

theorem GrowsTo.keepsCode {r r' : Registry} (h : r.GrowsTo r') : r.KeepsCode r' :=
  fun _ _ _ he _ => h.kept he

theorem keepsCode_declare {r r' : Registry} {s : Signature} {flags : EntryFlags} {span : Span}
    (h : r.declare s flags span = .ok r') : r.KeepsCode r' := by
  intro name e chunk he _
  rw [get?_of_declare h, if_neg, he]
  rintro rfl
  rw [get?_of_declare_self h] at he
  cases he

section Pending

variable {r : Registry} {s : Signature} {flags : EntryFlags}
  (hpending : r.get? s.name = some (.ofSignature s flags))

include hpending

theorem ne_of_pending {name : String} {e : Entry} {chunk : Chunk} (he : r.get? name = some e)
    (hcode : e.code? = some chunk) : name ≠ s.name := by
  rintro rfl
  obtain rfl := Option.some.inj (hpending.symm.trans he)
  cases hcode

theorem keepsCode_abandon : r.KeepsCode (r.abandon s.name) := by
  intro name e chunk he hcode
  rw [get?_abandon_of_ne r (ne_of_pending hpending he hcode), he]

theorem keepsCode_define {r' : Registry} {code : Chunk} {span : Span}
    (hdef : r.define s.name code span = .ok r') : r.KeepsCode r' := by
  intro name e chunk he hcode
  have hne := ne_of_pending hpending he hcode
  rw [← name_of_get? he] at hne
  rw [get?_define hdef, he, Option.map_some, attach_of_ne hne]

end Pending

/-- The compiler made up a function with this signature, and it has its code. -/
def Made (r : Registry) (s : Signature) : Prop :=
  ∃ chunk, r.get? s.name = some (.ofSignature s .synthetic (some chunk))

theorem Made.mono {r r' : Registry} {s : Signature} (h : r.Made s) (hr : r.KeepsCode r') :
    r'.Made s := by
  obtain ⟨chunk, hget⟩ := h
  exact ⟨chunk, hr hget rfl⟩

/-- A pending function of the compiler's own is made once it has its code. -/
theorem made_define {r r' : Registry} {s : Signature} {code : Chunk} {span : Span}
    (hpending : r.get? s.name = some (.ofSignature s .synthetic))
    (hdef : r.define s.name code span = .ok r') : r'.Made s := by
  refine ⟨code, ?_⟩
  rw [get?_define hdef, hpending, Option.map_some, attach_ofSignature]

end Registry

/-! ## The invariant -/

/-- Whatever the pool of a session refers to is known or finished, and so is whatever later code may
refer to. -/
structure Session.Closed (functions : FunctionTable) (lambdas : String → Option Signature)
    (S : Session) : Prop where
  bound : ∀ {i v}, S.pool.get? i = some (.bound v) →
    ∃ s, v = s.toValue ∧ (functions.Knows s ∨ S.registry.Made s)
  called : ∀ {i h}, S.pool.get? i = some (.function h) → ∃ s, functions.Knows s ∧ s.hash = h
  lambdas : ∀ {text s}, lambdas text = some s → S.registry.Made s
  wrappers : ∀ {key s}, S.wrapper? key = some s → S.registry.Made s

namespace Session

variable {functions : FunctionTable} {lambdas : String → Option Signature} {S S' : Session}

/-- Only finished functions matter. -/
theorem Closed.of_keepsCode (h : S.Closed functions lambdas)
    (hregistry : S.registry.KeepsCode S'.registry) (hpool : S'.pool = S.pool)
    (hwrappers : S'.wrappers = S.wrappers) : S'.Closed functions lambdas := by
  refine ⟨fun hi => ?_, fun hi => ?_, fun hs => (h.lambdas hs).mono hregistry, fun {key s} hs => ?_⟩
  · rw [hpool] at hi
    obtain ⟨s, rfl, hs⟩ := h.bound hi
    exact ⟨s, rfl, hs.imp id fun hmade => hmade.mono hregistry⟩
  · rw [hpool] at hi
    exact h.called hi
  · rw [wrapper?, hwrappers] at hs
    exact (h.wrappers hs).mono hregistry

/-- A constant may be added if what it refers to is known or finished. -/
theorem Closed.intern (h : S.Closed functions lambdas) {c : Constant}
    (hbound : ∀ v, c = .bound v → ∃ s, v = s.toValue ∧ (functions.Knows s ∨ S.registry.Made s))
    (hcalled : ∀ t, c = .function t → ∃ s, functions.Knows s ∧ s.hash = t) :
    Closed functions lambdas { S with pool := (S.pool.add c).1 } := by
  have hget {i : Nat} {d : Constant} (hi : (S.pool.add c).1.get? i = some d) :
      S.pool.get? i = some d ∨ c = d := by
    cases hfind : S.pool.find? c with
    | some j =>
      rw [Pool.add_of_find? hfind] at hi
      exact .inl hi
    | none =>
      rw [Pool.add_of_not_find? hfind, Pool.get?_push] at hi
      split at hi
      · exact .inr (Option.some.inj hi)
      · exact .inl hi
  refine ⟨fun {i v} hi => ?_, fun {i t} hi => ?_, h.lambdas, h.wrappers⟩
  · rcases hget hi with hi | hc
    · exact h.bound hi
    · exact hbound v hc
  · rcases hget hi with hi | hc
    · exact h.called hi
    · exact hcalled t hc

/-- A function value may be added over a finished function. -/
theorem Closed.bind (h : S.Closed functions lambdas) {s : Signature} (hs : S.registry.Made s) :
    Closed functions lambdas { S with pool := (S.pool.add (.bound s.toValue)).1 } :=
  h.intern (fun _ hv => by cases hv; exact ⟨s, rfl, .inr hs⟩) fun _ ht => nomatch ht

/-- A finished function may be remembered as a wrapper. -/
theorem Closed.rememberWrapper (h : S.Closed functions lambdas) {s : Signature}
    (hs : S.registry.Made s) (key : String) :
    (S.rememberWrapper key s).Closed functions lambdas := by
  refine ⟨h.bound, h.called, h.lambdas, fun {key' s'} hs' => ?_⟩
  rw [wrapper?_rememberWrapper] at hs'
  split at hs'
  · rw [← Option.some.inj hs']
    exact hs
  · exact h.wrappers hs'

/-! ## Functions -/

/-- From `S` on the registry grew, and the invariant was kept. -/
def Secures (functions : FunctionTable) (lambdas : String → Option Signature)
    (S S' : Session) : Prop :=
  S.registry.GrowsTo S'.registry ∧ (S.Closed functions lambdas → S'.Closed functions lambdas)

instance : IsPreorder Session (Secures functions lambdas) where
  refl _ := ⟨.refl _, id⟩
  trans _ _ _ h h' := ⟨h.1.trans h'.1, h'.2 ∘ h.2⟩

section CompileWith

variable {s : Signature} {flags : EntryFlags} {site : Span} {depth : Nat} {body : Gen Unit}
  (hbody : Gen.KeepsSession (Secures functions lambdas) body)

include hbody

/-- The invariant outlives the compilation of a function, which is finished if nothing failed. -/
theorem compileWith_secures {r : Except CompileError Unit}
    (hrun : compileWith s flags site depth body S = (r, S')) :
    Secures functions lambdas S S' ∧ (r = .ok () → flags = .synthetic → S'.registry.Made s) := by
  cases functionRun (fun w => (hbody w).1) hrun with
  | taken hdecl => exact ⟨refl_of _ S, fun hok => nomatch hok⟩
  | failed hdecl heq hgrows =>
    have hpending := Registry.get?_declared hdecl hgrows
    refine ⟨⟨Registry.growsTo_abandon hdecl hgrows, fun h => ?_⟩, fun hok => nomatch hok⟩
    have hclosed := (hbody.of_run heq).2
      (h.of_keepsCode (Registry.keepsCode_declare hdecl) rfl rfl)
    exact hclosed.of_keepsCode (Registry.keepsCode_abandon hpending) rfl rfl
  | finished hdecl heq hgrows hdef =>
    have hpending := Registry.get?_declared hdecl hgrows
    refine ⟨⟨Registry.growsTo_define hdecl hgrows hdef, fun h => ?_⟩, fun _ hflags => ?_⟩
    · have hclosed := (hbody.of_run heq).2
        (h.of_keepsCode (Registry.keepsCode_declare hdecl) rfl rfl)
      exact hclosed.of_keepsCode (Registry.keepsCode_define hpending hdef) rfl rfl
    · subst hflags
      exact Registry.made_define hpending hdef

end CompileWith

end Session

/-! ## Expressions -/

namespace Gen

variable {ctx : CodeContext} {block : Block}

/-- What an expression adds to the pool is over known or finished functions. -/
theorem closed_interns {S : Session} (h : S.Closed ctx.functions ctx.lambdas.get?) {c : Constant}
    (hc : ctx.Interns block c) :
    Session.Closed ctx.functions ctx.lambdas.get? { S with pool := (S.pool.add c).1 } := by
  cases hc with
  | int | real | string => exact h.intern (fun _ hv => nomatch hv) fun _ ht => nomatch ht
  | @function s hs =>
    refine h.intern (fun _ hv => nomatch hv) fun t ht => ?_
    cases ht
    exact ⟨s, hs, rfl⟩
  | @known s hs =>
    refine h.intern (fun v hv => ?_) fun _ ht => nomatch ht
    cases hv
    exact ⟨s, rfl, .inl hs⟩
  | lambda hs => exact h.bind (h.lambdas hs)

/-- The invariant is kept while expressions are compiled.  A wrapper is bound once it is finished, or
because it was remembered, which happens to finished ones only. -/
theorem stable_secures (ctx : CodeContext) (block : Block) :
    Stable ctx block fun _ => Session.Secures ctx.functions ctx.lambdas.get? where
  preorder _ := inferInstance
  mono _ h := h
  intern _ hc _ := ⟨.refl _, fun h => closed_interns h hc⟩
  promote e _ hvalue _ params result _ w := by
    rcases hrun : promote ctx e params result (value ctx e) w with ⟨r, w'⟩
    cases promotion hrun with
    | @reused s _ _ hs hbind =>
      cases hbind
      refine ⟨.refl _, fun h => ?_⟩
      have hnoted : Session.Closed ctx.functions ctx.lambdas.get?
          (w.session.note (.constantReused s.name e.text)) := h.of_keepsCode (.refl _) rfl rfl
      exact hnoted.bind (h.wrappers hs)
    | refused => exact refl_of _ w
    | failed _ _ _ hcompiled =>
      obtain ⟨⟨hgrows, hclosed⟩, -⟩ := Session.compileWith_secures hvalue.returnBody hcompiled
      exact ⟨hgrows, fun h => hclosed (h.of_keepsCode (.refl _) rfl rfl)⟩
    | @wrapped s S _ _ _ _ _ hcompiled hbind =>
      obtain ⟨⟨hgrows, hclosed⟩, hmade⟩ := Session.compileWith_secures hvalue.returnBody hcompiled
      cases hbind
      have hs := hmade rfl rfl
      refine ⟨hgrows, fun h => ?_⟩
      have hcompiled := hclosed (h.of_keepsCode (.refl _) rfl rfl)
      have hnoted : Session.Closed ctx.functions ctx.lambdas.get?
          (S.note (.constantPromoted e.text s)) := hcompiled.of_keepsCode (.refl _) rfl rfl
      exact (hnoted.rememberWrapper hs _).bind hs

end Gen

/-! ## Anonymous functions -/

/-- A finished function may be recorded for an anonymous function. -/
theorem Session.Closed.insertLambda {functions : FunctionTable} {table : LambdaTable} {S : Session}
    (h : S.Closed functions table.get?) {s : Signature} (hs : S.registry.Made s) (text : String) :
    S.Closed functions (table.insert text s).get? := by
  refine ⟨h.bound, h.called, fun {text' s'} hs' => ?_, h.wrappers⟩
  rw [LambdaTable.get?_insert] at hs'
  split at hs'
  · rw [← Option.some.inj hs']
    exact hs
  · exact h.lambdas hs'

/-- The invariant of the walk through the anonymous functions of a block. -/
structure Walk.Closed (functions : FunctionTable) (w : Walk) : Prop where
  session : w.session.Closed functions w.table.get?
  identity : ∀ {s}, w.identity? = some s → w.session.registry.Made s

/-- From `w` on the registry grew, and the invariant was kept. -/
def Walk.Secures (functions : FunctionTable) (w w' : Walk) : Prop :=
  w.session.registry.GrowsTo w'.session.registry ∧ (w.Closed functions → w'.Closed functions)

instance (functions : FunctionTable) : IsPreorder Walk (Walk.Secures functions) where
  refl _ := ⟨.refl _, id⟩
  trans _ _ _ h h' := ⟨h.1.trans h'.1, h'.2 ∘ h.2⟩

/-- Meeting an anonymous function keeps the invariant: it is recorded once it is finished. -/
theorem Hoist.lambda_secures {block : Block} {functions : FunctionTable} {options : Options}
    {body : Expr} {text : String} {span : Span} (he : Expr.lambda body text span ∈ block.exprs) :
    Attempt.Keeps (Walk.Secures functions) (lambda functions options body text span) := by
  intro w
  have hvalue := (Gen.stable_secures ⟨functions, options, w.table⟩ block).value
    (Block.body_mem_exprs he)
  rcases hrun : lambda functions options body text span w with ⟨r, w'⟩
  cases meeting hrun with
  | recorded =>
    exact ⟨.refl _, fun h => ⟨h.session.of_keepsCode (.refl _) rfl rfl, h.identity⟩⟩
  | identity _ _ hs =>
    refine ⟨.refl _, fun h => ⟨?_, h.identity⟩⟩
    exact (h.session.insertLambda (h.identity hs) text).of_keepsCode (.refl _) rfl rfl
  | untyped =>
    exact ⟨.refl _, fun h => ⟨h.session.of_keepsCode (.refl _) rfl rfl, h.identity⟩⟩
  | failed _ _ _ hcompiled =>
    obtain ⟨⟨hgrows, hclosed⟩, -⟩ := Session.compileWith_secures hvalue.returnBody hcompiled
    refine ⟨hgrows, fun h => ⟨hclosed (h.session.of_keepsCode (.refl _) rfl rfl), fun hs => ?_⟩⟩
    exact (h.identity hs).mono hgrows.keepsCode
  | @compiled s S _ _ _ _ hcompiled =>
    obtain ⟨⟨hgrows, hclosed⟩, hmade⟩ := Session.compileWith_secures hvalue.returnBody hcompiled
    have hs := hmade rfl rfl
    refine ⟨hgrows, fun h => ⟨?_, fun {s'} hs' => ?_⟩⟩
    · have hsession := hclosed (h.session.of_keepsCode (.refl _) rfl rfl)
      exact (hsession.insertLambda hs text).of_keepsCode (.refl _) rfl rfl
    · dsimp only at hs'
      split at hs'
      · rw [← Option.some.inj hs']
        exact hs
      · exact (h.identity hs').mono hgrows.keepsCode

/-! ## Whole blocks -/

theorem Walk.closed_start (functions : FunctionTable) :
    Walk.Closed functions { session := .start } := by
  refine ⟨⟨fun hi => ?_, fun hi => ?_, fun hs => ?_, fun hs => ?_⟩, fun hs => nomatch hs⟩
  · simp [Session.start, Pool.empty, Pool.get?] at hi
  · simp [Session.start, Pool.empty, Pool.get?] at hi
  · rw [LambdaTable.get?_empty] at hs
    cases hs
  · simp [Session.wrapper?, Session.start] at hs

/-- The invariant is kept while a declared function is compiled. -/
theorem Session.compileDecl_secures {ctx : CodeContext} {block : Block} {d : Decl}
    (hd : ∀ e ∈ Stmt.exprsAll d.body, e ∈ block.exprs) :
    Attempt.Keeps (Secures ctx.functions ctx.lambdas.get?) (compileDecl ctx d) := by
  have hbody : Gen.KeepsSession (Secures ctx.functions ctx.lambdas.get?) (Gen.body ctx d.body) :=
    fun w => ((Gen.stable_secures ctx block).body hd w).choose_spec
  refine .bind (Attempt.keeps_ofExcept _) fun s S => ?_
  exact (compileWith_secures hbody rfl).1

namespace Block

variable (block : Block) (functions : FunctionTable) (options : Options)

theorem closed_walk : (block.walk functions options).Closed functions := by
  have hkeeps : Walk.Secures functions { session := .start } (block.walk functions options) :=
    Hoist.topLevel_keeps (fun _ _ _ he => Hoist.lambda_secures he) block.stmts (fun _ he => he) _
  exact hkeeps.2 (Walk.closed_start functions)

/-- A compilation ends in the invariant, however much of it failed. -/
theorem closed_session :
    (block.session functions options).Closed functions (block.walk functions options).table.get? := by
  have hwalk := (block.closed_walk functions options).session
  unfold session
  rw [hoist_eq]
  cases (Hoist.topLevel functions options block.stmts { session := .start }).1 with
  | error e => exact hwalk.of_keepsCode (.refl _) rfl rfl
  | ok _ =>
    have hdecls := Session.compileDecls_keeps
      (R := Session.Secures functions (block.walk functions options).table.get?)
      ⟨functions, options, (block.walk functions options).table⟩
      (fun _ _ _ => ⟨.refl _, fun h => h.of_keepsCode (.refl _) rfl rfl⟩) block.decls
      fun _ hd => Session.compileDecl_secures (mem_exprs_of_mem_decls hd)
    exact (hdecls _).2 (hwalk.of_keepsCode (.refl _) rfl rfl)

end Block

/-- A module is closed.  A function value in its pool is over a known function, or over one that the
compiler made up and that is there, under the identity that the value has, with its code.  A function
that is called by the code is known, and if the block declares it, it was compiled with that very
signature and registered under that very identity. -/
theorem module_closed (functions : FunctionTable) (options : Options) (block : Block) (i : Nat) :
    (∀ v, (compileBlock functions options block).module.pool.get? i = some (.bound v) →
      (∃ s, functions.get? s.name = some s ∧ v = s.toValue) ∨
      ∃ entry ∈ (compileBlock functions options block).module.syntheticFunctions,
        entry.isDefined = true ∧ v = entry.signature.toValue ∧ v.target = entry.hash) ∧
    ∀ h, (compileBlock functions options block).module.pool.get? i = some (.function h) →
      ∃ s, functions.get? s.name = some s ∧ s.hash = h ∧
        ∀ entry ∈ (compileBlock functions options block).module.declaredFunctions,
          entry.name = s.name → entry.signature = s ∧ entry.hash = h := by
  have hclosed := block.closed_session functions options
  rw [Block.module_compileBlock]
  constructor
  · intro v hv
    obtain ⟨s, rfl, hs | ⟨chunk, hs⟩⟩ := hclosed.bound hv
    · exact .inl ⟨s, hs, rfl⟩
    · have hmem := List.mem_of_find?_eq_some hs
      exact .inr ⟨_, List.mem_filter.2 ⟨hmem, rfl⟩, rfl, rfl, rfl⟩
  · intro h hh
    obtain ⟨s, hs, rfl⟩ := hclosed.called hh
    refine ⟨s, hs, rfl, fun entry hentry hname => ?_⟩
    obtain ⟨s', chunk, hknown, rfl⟩ := Block.ofSignature_of_declared hentry
    rw [hname, hs] at hknown
    obtain rfl := Option.some.inj hknown
    exact ⟨rfl, rfl⟩

theorem module_closed_identityBlock :
    ∃ v, (compileBlock identityFunctions {} identityBlock).module.pool.get? 0 = some (.bound v) ∧
      ((∃ s, identityFunctions.get? s.name = some s ∧ v = s.toValue) ∨
        ∃ entry ∈ (compileBlock identityFunctions {} identityBlock).module.syntheticFunctions,
          entry.isDefined = true ∧ v = entry.signature.toValue ∧ v.target = entry.hash) := by
  let s : Signature := ⟨identityName, [lambdaParam], .real, "Main", false⟩
  have hbound : (compileBlock identityFunctions {} identityBlock).module.pool.get? 0 =
      some (.bound s.toValue) := by
    decide +kernel
  exact ⟨s.toValue, hbound, (module_closed identityFunctions {} identityBlock 0).1 s.toValue hbound⟩

end BlockCompiler
