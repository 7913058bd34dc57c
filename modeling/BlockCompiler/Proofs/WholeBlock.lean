import BlockCompiler.Proofs.Provenance

/-!
# Whole blocks

The invariant of a session holds throughout the compilation of a block.  The anonymous functions come
first, from the inside out, and the table of those that were compiled grows while they are; then come
the declared functions.

* `Walk.Sound` is the invariant of the walk, `Hoist.lambda_keeps` its step, and `Hoist.topLevel_keeps`
  the whole walk.
* `Session.Sound.compileDecls` is the run through the declared functions, of which
  `Session.compiledDecls` lists those that compile.
* `Block.sound_session` says what the session of a block is like in the end, however much failed, and
  `Block.code_of_mem` what that means for each function in its module.
-/

namespace BlockCompiler

/-! ## Anonymous functions -/

section Lambdas

variable {block : Block} {functions : FunctionTable} {table : LambdaTable} {done : List Decl}
  {S S' : Session} {text : String} {s : Signature}

private theorem sources_growsTo_insert (hfresh : table.get? text = none) :
    Sources.GrowsTo ⟨block, functions, table.get?, done⟩
      ⟨block, functions, (table.insert text s).get?, done⟩ := by
  refine ⟨rfl, rfl, fun {text' s'} hs' => ?_, fun _ => id⟩
  dsimp only at hs' ⊢
  rw [LambdaTable.get?_insert, if_neg, hs']
  rintro rfl
  rw [hfresh] at hs'
  cases hs'

/-- A source in the larger table is a source in the smaller one, or it is the new one. -/
private theorem comesFrom_insert {r : String → Option Signature} {s' : Signature}
    {body : List Stmt}
    (h : ComesFrom ⟨block, functions, (table.insert text s).get?, done⟩ r s' body) :
    ComesFrom ⟨block, functions, table.get?, done⟩ r s' body ∨
      s' = s ∧ ∃ e span, Expr.lambda e text span ∈ block.exprs ∧ body = [.ret e e.span] := by
  cases h with
  | decl hd hs => exact .inl (.decl hd hs)
  | @lambda e text' span _ he hs =>
    dsimp only at hs
    rw [LambdaTable.get?_insert] at hs
    split at hs
    next htext =>
      subst htext
      exact .inr ⟨(Option.some.inj hs).symm, e, span, he, rfl⟩
    next => exact .inl (.lambda he hs)
  | wrapper he hs => exact .inl (.wrapper he hs)

/-- Anonymous functions of one text have one body. -/
theorem Block.TextFaithful.body_eq (hfaithful : block.TextFaithful) {e e' : Expr}
    {span span' : Span} (he : Expr.lambda e text span ∈ block.exprs)
    (he' : Expr.lambda e' text span' ∈ block.exprs) : e.eraseSpans = e'.eraseSpans := by
  have h := hfaithful _ he _ he' rfl
  simp only [Expr.eraseSpans, Expr.lambda.injEq] at h
  exact h.1

variable (hfaithful : block.TextFaithful) (hfresh : table.get? text = none)

include hfaithful hfresh

/-- A function made for an anonymous function gets its code and is recorded. -/
theorem Session.Sound.defineLambda (h : S.Sound ⟨block, functions, table.get?, done⟩) {e : Expr}
    {span : Span} (he : Expr.lambda e text span ∈ block.exprs) {flags : EntryFlags}
    {chunk : Chunk} {site : Span}
    (hpending : S.registry.get? s.name = some (.ofSignature s flags))
    (hdef : S.registry.define s.name chunk site = .ok S'.registry) (hpool : S'.pool = S.pool)
    (hwrappers : S'.wrappers = S.wrappers) {span' : Span}
    (hcompiled : CompiledFrom functions table.get? S.wrapper? S.pool s [.ret e span'] chunk) :
    S'.Sound ⟨block, functions, (table.insert text s).get?, done⟩ := by
  have hw : S'.wrapper? = S.wrapper? := by
    funext key
    rw [Session.wrapper?, Session.wrapper?, hwrappers]
  have hsource : ComesFrom ⟨block, functions, (table.insert text s).get?, done⟩ S'.wrapper? s
      [.ret e e.span] :=
    .lambda he (by
      show (table.insert text s).get? text = some s
      rw [LambdaTable.get?_insert, if_pos rfl])
  refine h.define hpending hdef hpool ?_ ?_ (sources_growsTo_insert hfresh) ⟨_, hsource⟩ ?_
  · rw [hw]
    exact id
  · rw [hw]
    exact h.wrappers
  · intro s' body hs'
    rw [hw] at hs'
    rcases comesFrom_insert hs' with hold | ⟨rfl, e', span', he', rfl⟩
    · exact .inl hold
    · exact .inr ⟨rfl, hcompiled.of_eraseSpans_eq (hfaithful.body_eq he he') _⟩

/-- An anonymous function is recorded with the function of an equal one. -/
theorem Session.Sound.aliasLambda (h : S.Sound ⟨block, functions, table.get?, done⟩)
    {e e₀ : Expr} {text₀ : String} {span span₀ : Span}
    (he : Expr.lambda e text span ∈ block.exprs)
    (he₀ : Expr.lambda e₀ text₀ span₀ ∈ block.exprs) (hs : table.get? text₀ = some s)
    (heq : e₀.eraseSpans = e.eraseSpans) :
    S.Sound ⟨block, functions, (table.insert text s).get?, done⟩ := by
  have hgrows : Sources.GrowsTo ⟨block, functions, table.get?, done⟩
      ⟨block, functions, (table.insert text s).get?, done⟩ := sources_growsTo_insert hfresh
  refine ⟨h.filed, fun hget hc => ?_, fun {s' body} hs' => ?_, h.reals, h.wrappers⟩
  · obtain ⟨body, hbody⟩ := h.sourced hget hc
    exact ⟨body, hbody.mono hgrows id⟩
  · rcases comesFrom_insert hs' with hold | ⟨rfl, e', span', he', rfl⟩
    · obtain ⟨flags, chunk, hget, hcompiled⟩ := h.compiled hold
      exact ⟨flags, chunk, hget, hcompiled.mono hgrows.lambdas id (.refl _)⟩
    · obtain ⟨flags, chunk, hget, hcompiled⟩ := h.compiled (.lambda he₀ hs)
      have heq' := heq.trans (hfaithful.body_eq he he')
      exact ⟨flags, chunk, hget,
        (hcompiled.of_eraseSpans_eq heq' _).mono hgrows.lambdas id (.refl _)⟩

omit hfresh in
/-- A signature of the right type may be recorded. -/
theorem Block.TypesLambdas.insert (h : block.TypesLambdas functions table.get?) {e : Expr}
    {span : Span} (he : Expr.lambda e text span ∈ block.exprs)
    (hparams : s.params = [lambdaParam]) (ht : e.typeOf functions .empty = some s.result) :
    block.TypesLambdas functions (table.insert text s).get? := by
  intro body text' span' s' hbody hs'
  rw [LambdaTable.get?_insert] at hs'
  split at hs'
  next htext =>
    subst htext
    obtain rfl := Option.some.inj hs'
    refine ⟨hparams, ?_⟩
    rw [← ht]
    exact Expr.typeOf_eq_of_eraseSpans_eq (hfaithful.body_eq hbody he)
  next => exact h hbody hs'

end Lambdas

/-- The invariant of the walk through the anonymous functions of a block. -/
structure Walk.Sound (block : Block) (functions : FunctionTable) (w : Walk) : Prop where
  session : w.session.Sound ⟨block, functions, w.table.get?, []⟩
  lambdas : block.TypesLambdas functions w.table.get?
  /-- The function of the bare placeholder is recorded under some text. -/
  identity : ∀ {s}, w.identity? = some s → ∃ text span span',
    Expr.lambda (.placeholder span') text span ∈ block.exprs ∧ w.table.get? text = some s

/-- A new text does not hide the function of the bare placeholder. -/
private theorem Walk.Sound.identity_insert {block : Block} {functions : FunctionTable} {w : Walk}
    (h : w.Sound block functions) {text : String} (hfresh : w.table.get? text = none)
    (s₀ : Signature) {s : Signature} (hs : w.identity? = some s) :
    ∃ text' span span', Expr.lambda (.placeholder span') text' span ∈ block.exprs ∧
      (w.table.insert text s₀).get? text' = some s := by
  obtain ⟨text', span, span', he, hs'⟩ := h.identity hs
  refine ⟨text', span, span', he, ?_⟩
  rw [LambdaTable.get?_insert, if_neg, hs']
  rintro rfl
  rw [hfresh] at hs'
  cases hs'

/-- From `w` on the registry grew, and the invariant was kept. -/
def Walk.Preserves (block : Block) (functions : FunctionTable) (w w' : Walk) : Prop :=
  w.Sound block functions →
    w.session.registry.GrowsTo w'.session.registry ∧ w'.Sound block functions

instance (block : Block) (functions : FunctionTable) :
    IsPreorder Walk (Walk.Preserves block functions) where
  refl _ hw := ⟨.refl _, hw⟩
  trans _ _ _ h h' hw := ⟨(h hw).1.trans (h' (h hw).2).1, (h' (h hw).2).2⟩

namespace Hoist

variable {block : Block} {functions : FunctionTable} {options : Options} {body : Expr}
  {text : String} {span : Span}

/-- A body of the block keeps what `Session.compileWith` needs to be kept. -/
theorem keepsSession_returnBody {ctx : CodeContext} (hctx : ctx.Fits block) (done : List Decl)
    (hbody : body ∈ block.exprs) (span : Span) :
    Gen.KeepsSession (Gen.Advances (ctx.sources block done) body.height)
      (Gen.returnBody ctx body.text span (Gen.value ctx body)) := by
  have hstable := Gen.stable_sound hctx done
  have := hstable.preorder body.height
  exact (hstable.value hbody).returnBody

/-- Meeting an anonymous function keeps the invariant. -/
theorem lambda_keeps (hfaithful : block.TextFaithful)
    (he : Expr.lambda body text span ∈ block.exprs) :
    Attempt.Keeps (Walk.Preserves block functions) (lambda functions options body text span) := by
  intro w hw
  have hbody := Block.body_mem_exprs he
  have hctx : CodeContext.Fits ⟨functions, options, w.table⟩ block := ⟨hfaithful, hw.lambdas⟩
  have hkeeps := keepsSession_returnBody hctx [] hbody span
  have hcounted : Session.Sound ⟨block, functions, w.table.get?, []⟩
      { w.session with nextId := w.session.nextId + 1 } := hw.session.of_eq rfl rfl rfl
  rcases hrun : lambda functions options body text span w with ⟨r, w'⟩
  cases meeting hrun with
  | recorded => exact ⟨.refl _, hw.session.of_eq rfl rfl rfl, hw.lambdas, hw.identity⟩
  | @identity s hfresh hplaceholder hs =>
    cases body with
    | placeholder span' =>
      obtain ⟨text₀, span₀, span₀', he₀, hs₀⟩ := hw.identity hs
      have hnoted : Session.Sound ⟨block, functions, w.table.get?, []⟩
          (w.session.note (.lambdaReused s.name text)) := hw.session.of_eq rfl rfl rfl
      obtain ⟨hparams, ht⟩ := hw.lambdas he₀ hs₀
      exact ⟨.refl _, hnoted.aliasLambda hfaithful hfresh he he₀ hs₀ rfl,
        hw.lambdas.insert hfaithful he hparams ht, hw.identity_insert hfresh s⟩
    | _ => cases hplaceholder
  | untyped => exact ⟨.refl _, hcounted, hw.lambdas, hw.identity⟩
  | failed _ _ _ hcompiled =>
    obtain ⟨hgrows, hsound⟩ :=
      hcounted.compileWith_error (fun w => (hkeeps w).preserves) hcompiled
    exact ⟨hgrows, hsound, hw.lambdas, hw.identity⟩
  | @compiled s S typing hfresh htype hs hcompiled =>
    have ht : body.typeOf functions .empty = some s.result := by
      rw [← hs]
      exact Expr.typeOf_of_inferAt body htype
    have hparams : s.params = [lambdaParam] := by
      rw [← hs]
      rfl
    obtain ⟨hgrows, S₁, w₁, hrun₁, hsound, hpending, hdef, hpool, hwrappers⟩ :=
      hcounted.compileWith_ok (fun w => (hkeeps w).preserves) hcompiled
    have hcode := Gen.returnBody_compiled hctx hbody hrun₁
    refine ⟨hgrows, ?_, hw.lambdas.insert hfaithful he hparams ht, fun {s'} hs' => ?_⟩
    · exact hsound.defineLambda hfaithful hfresh he hpending hdef hpool hwrappers
        ⟨hcode.names, hcode.arity, hcode.code⟩
    · dsimp only at hs' ⊢
      split at hs'
      next hplaceholder =>
        cases body with
        | placeholder span' =>
          refine ⟨text, span, span', he, ?_⟩
          rw [LambdaTable.get?_insert, if_pos rfl, hs']
        | _ => cases hplaceholder
      next => exact hw.identity_insert hfresh s hs'

section Walk

variable {R : Walk → Walk → Prop} [IsPreorder Walk R]

/-- Whether a relation is kept whenever an anonymous function of a block is met. -/
def LambdasKeep (block : Block) (functions : FunctionTable) (options : Options)
    (R : Walk → Walk → Prop) : Prop :=
  ∀ ⦃body text span⦄, Expr.lambda body text span ∈ block.exprs →
    Attempt.Keeps R (lambda functions options body text span)

/-- Whether a relation is kept whenever an anonymous function of a block is met after its body, through
which the walk got. -/
def VisitedLambdasKeep (block : Block) (functions : FunctionTable) (options : Options)
    (R : Walk → Walk → Prop) : Prop :=
  ∀ ⦃body text span⦄, Expr.lambda body text span ∈ block.exprs →
    ∀ ⦃depth w w'⦄, expr functions options depth body w = (.ok (), w') →
      Attempt.Keeps R (lambda functions options body text span)

omit [IsPreorder Walk R] in
theorem LambdasKeep.visited (h : LambdasKeep block functions options R) :
    VisitedLambdasKeep block functions options R :=
  fun _ _ _ he _ _ _ _ => h he

mutual

theorem expr_keeps_of_visited (h : VisitedLambdasKeep block functions options R) :
    ∀ e ∈ block.exprs, ∀ depth : Nat, Attempt.Keeps R (expr functions options depth e)
  | .literal _ _ _, _, _ | .var _, _, _ | .placeholder _, _, _ => Attempt.keeps_ofExcept _
  | .pair first second _ _, he, depth => by
    refine .bind (Attempt.keeps_ofExcept _) fun _ => .bind ?_ fun _ => ?_
    · exact expr_keeps_of_visited h first (Block.first_mem_exprs he) (depth + 1)
    · exact expr_keeps_of_visited h second (Block.second_mem_exprs he) (depth + 1)
  | .lambda body _ _, he, depth => by
    refine .bind (Attempt.keeps_ofExcept _) fun _ => .bind_of_run ?_ fun _ w w' hrun => ?_
    · exact expr_keeps_of_visited h body (Block.body_mem_exprs he) (depth + 1)
    · exact h he hrun
  | .call _ args _ _, he, depth => by
    refine .bind (Attempt.keeps_ofExcept _) fun _ => ?_
    exact exprs_keeps_of_visited h args (fun _ => Block.arg_mem_exprs he) (depth + 1)

theorem exprs_keeps_of_visited (h : VisitedLambdasKeep block functions options R) :
    ∀ es : List Expr, (∀ e ∈ es, e ∈ block.exprs) → ∀ depth : Nat,
      Attempt.Keeps R (exprs functions options depth es)
  | [], _, _ => Attempt.keeps_pure _
  | e :: es, hes, depth => by
    refine .bind (expr_keeps_of_visited h e (hes e (by simp)) depth) fun _ => ?_
    exact exprs_keeps_of_visited h es (fun e' he' => hes e' (by simp [he'])) depth

end

mutual

theorem stmt_keeps_of_visited (h : VisitedLambdasKeep block functions options R) :
    ∀ s : Stmt, (∀ e ∈ s.exprs, e ∈ block.exprs) → ∀ depth : Nat,
      Attempt.Keeps R (stmt functions options depth s)
  | .expr e, hs, depth => by
    refine .bind (Attempt.keeps_ofExcept _) fun _ => ?_
    exact expr_keeps_of_visited h e (hs e e.mem_subexprs_self) depth
  | .ret e _, hs, depth => by
    refine .bind (Attempt.keeps_ofExcept _) fun _ => ?_
    exact expr_keeps_of_visited h e (hs e e.mem_subexprs_self) depth
  | .decl _ body _, hs, depth => by
    refine .bind (Attempt.keeps_ofExcept _) fun _ => ?_
    exact stmts_keeps_of_visited h body hs (depth + 1)

theorem stmts_keeps_of_visited (h : VisitedLambdasKeep block functions options R) :
    ∀ ss : List Stmt, (∀ e ∈ Stmt.exprsAll ss, e ∈ block.exprs) → ∀ depth : Nat,
      Attempt.Keeps R (stmts functions options depth ss)
  | [], _, _ => Attempt.keeps_pure _
  | s :: ss, hss, depth => by
    refine .bind ?_ fun _ => ?_
    · exact stmt_keeps_of_visited h s (fun e he => hss e (List.mem_append_left _ he)) depth
    · exact stmts_keeps_of_visited h ss (fun e he => hss e (List.mem_append_right _ he)) depth

end

/-- The walk through a block keeps a relation that is kept when its anonymous functions are met, however
it ends. -/
theorem topLevel_keeps_of_visited (h : VisitedLambdasKeep block functions options R) :
    ∀ ss : List Stmt, (∀ e ∈ Stmt.exprsAll ss, e ∈ block.exprs) →
      Attempt.Keeps R (topLevel functions options ss)
  | [], _ => Attempt.keeps_pure _
  | .decl name body span :: ss, hss => by
    refine .bind ?_ fun _ => ?_
    · exact stmts_keeps_of_visited h body (fun e he => hss e (List.mem_append_left _ he)) 0
    · exact topLevel_keeps_of_visited h ss fun e he => hss e (List.mem_append_right _ he)
  | .expr e :: ss, hss => by
    refine .bind ?_ fun _ => ?_
    · exact stmt_keeps_of_visited h (.expr e) (fun e he => hss e (List.mem_append_left _ he)) 0
    · exact topLevel_keeps_of_visited h ss fun e he => hss e (List.mem_append_right _ he)
  | .ret e span :: ss, hss => by
    refine .bind ?_ fun _ => ?_
    · exact stmt_keeps_of_visited h (.ret e span) (fun e he => hss e (List.mem_append_left _ he)) 0
    · exact topLevel_keeps_of_visited h ss fun e he => hss e (List.mem_append_right _ he)

theorem expr_keeps (h : LambdasKeep block functions options R) (e : Expr) (he : e ∈ block.exprs)
    (depth : Nat) : Attempt.Keeps R (expr functions options depth e) :=
  expr_keeps_of_visited h.visited e he depth

theorem stmt_keeps (h : LambdasKeep block functions options R) (s : Stmt)
    (hs : ∀ e ∈ s.exprs, e ∈ block.exprs) (depth : Nat) :
    Attempt.Keeps R (stmt functions options depth s) :=
  stmt_keeps_of_visited h.visited s hs depth

/-- The walk through a block keeps the invariant, however it ends. -/
theorem topLevel_keeps (h : LambdasKeep block functions options R) (ss : List Stmt)
    (hss : ∀ e ∈ Stmt.exprsAll ss, e ∈ block.exprs) :
    Attempt.Keeps R (topLevel functions options ss) :=
  topLevel_keeps_of_visited h.visited ss hss

end Walk

end Hoist

/-! ## Declared functions -/

namespace Session

/-- The functions of a list of declarations that compile, in order. -/
def compiledDecls (ctx : CodeContext) (session : Session) : List Decl → List Decl
  | [] => []
  | d :: ds =>
    match compileDecl ctx d session with
    | (.ok (), session) => d :: compiledDecls ctx session ds
    | (.error e, session) => compiledDecls ctx (session.note (.functionFailed d.name.name e)) ds

theorem compiledDecls_subset (ctx : CodeContext) (S : Session) (ds : List Decl) :
    S.compiledDecls ctx ds ⊆ ds := by
  induction ds generalizing S with
  | nil => exact List.Subset.refl []
  | cons d ds ih =>
    rw [compiledDecls]
    split
    · exact List.cons_subset_cons d (ih _)
    · exact List.subset_cons_of_subset d (ih _)

/-- A relation that declared functions keep, and notes of their failures, is kept by all of them
together. -/
theorem compileDecls_keeps {R : Session → Session → Prop} [IsPreorder Session R] (ctx : CodeContext)
    (hnote : ∀ S name e, R S (S.note (.functionFailed name e))) : ∀ ds : List Decl,
      (∀ d ∈ ds, Attempt.Keeps R (compileDecl ctx d)) → ∀ S, R S (S.compileDecls ctx ds).1
  | [], _, S => refl_of R S
  | d :: ds, hds, S => by
    have hrest := compileDecls_keeps ctx hnote ds fun d' hd' => hds d' (by simp [hd'])
    rcases hrun : compileDecl ctx d S with ⟨e | _, S'⟩
    · simp only [Session.compileDecls, hrun]
      have hfailed := trans_of R ((hds d (by simp)).of_run hrun)
        (hnote S' d.name.name e)
      exact trans_of R hfailed (hrest _)
    · simp only [Session.compileDecls, hrun]
      exact trans_of R ((hds d (by simp)).of_run hrun) (hrest S')

variable {ctx : CodeContext} {block : Block} (hctx : ctx.Fits block) {done : List Decl}
  {S S' : Session} {d : Decl} (hd : ∀ e ∈ Stmt.exprsAll d.body, e ∈ block.exprs)

include hctx hd

private theorem keepsSession_body (done : List Decl) :
    Gen.KeepsSession (Preserves (ctx.sources block done)) (Gen.body ctx d.body) := by
  intro w
  obtain ⟨n, hn⟩ := (Gen.stable_sound hctx done).body hd w
  exact hn.preserves

/-- A declared function that fails leaves the invariant as it was. -/
theorem Sound.compileDecl_error (h : S.Sound (ctx.sources block done)) {e : CompileError}
    (hrun : compileDecl ctx d S = (.error e, S')) :
    S.registry.GrowsTo S'.registry ∧ S'.Sound (ctx.sources block done) := by
  unfold compileDecl at hrun
  rw [Attempt.bind_run] at hrun
  cases hresolve : resolve ctx.functions d.name with
  | ok s =>
    simp only [hresolve, Attempt.ofExcept] at hrun
    exact h.compileWith_error (keepsSession_body hctx hd done) hrun
  | error e =>
    simp only [hresolve, Attempt.ofExcept] at hrun
    cases hrun
    exact ⟨.refl _, h⟩

/-- A declared function that compiles is from now on a source. -/
theorem Sound.compileDecl_ok (h : S.Sound (ctx.sources block done))
    (hrun : compileDecl ctx d S = (.ok (), S')) :
    S.registry.GrowsTo S'.registry ∧ S'.Sound (ctx.sources block (done ++ [d])) := by
  obtain ⟨s, S₁, hresolve, hcompile⟩ := Attempt.bind_eq_ok.1 hrun
  obtain ⟨hs, rfl⟩ := Attempt.ofExcept_eq_ok.1 hresolve
  have hs := Expr.resolve_eq_ok.1 hs
  obtain ⟨hregistry, S₂, w, hbody, hsound, hpending, hdef, hpool, hwrappers⟩ :=
    h.compileWith_ok (keepsSession_body hctx hd done) hcompile
  have hcompiled := Gen.body_compiled hctx hd hbody
  have hw : S'.wrapper? = w.session.wrapper? := by
    funext key
    rw [wrapper?, wrapper?, hwrappers]
  have hsource : ComesFrom (ctx.sources block (done ++ [d])) S'.wrapper? s d.body :=
    .decl (List.mem_append_right _ (List.mem_singleton.2 rfl)) hs
  have hgrows : (ctx.sources block done).GrowsTo (ctx.sources block (done ++ [d])) :=
    ⟨rfl, rfl, id, List.subset_append_left _ _⟩
  refine ⟨hregistry, hsound.define hpending hdef hpool ?_ ?_ hgrows ⟨_, hsource⟩ ?_⟩
  · rw [hw]
    exact id
  · rw [hw]
    exact hsound.wrappers
  · intro s' body hs'
    rw [hw] at hs'
    cases hs' with
    | decl hd' hs' =>
      rcases List.mem_append.1 hd' with hd' | hd'
      · exact .inl (.decl hd' hs')
      · obtain rfl := List.mem_singleton.1 hd'
        have heq := Option.some.inj (hs'.symm.trans hs)
        exact .inr ⟨heq, hcompiled.names, hcompiled.arity, hcompiled.code⟩
    | lambda he hs' => exact .inl (.lambda he hs')
    | wrapper he hs' => exact .inl (.wrapper he hs')

omit hd in
/-- Compiling declared functions keeps the invariant, with those that compile as sources. -/
theorem Sound.compileDecls : ∀ (ds : List Decl) {done : List Decl} {S : Session},
    (∀ d ∈ ds, ∀ e ∈ Stmt.exprsAll d.body, e ∈ block.exprs) →
    S.Sound (ctx.sources block done) →
      S.registry.GrowsTo (S.compileDecls ctx ds).1.registry ∧
        (S.compileDecls ctx ds).1.Sound
          (ctx.sources block (done ++ compiledDecls ctx S ds))
  | [], done, S, _, h => by
    rw [compiledDecls, List.append_nil]
    exact ⟨.refl _, h⟩
  | d :: ds, done, S, hds, h => by
    have hd := hds d (by simp)
    have hrest : ∀ d' ∈ ds, ∀ e ∈ Stmt.exprsAll d'.body, e ∈ block.exprs :=
      fun d' hd' => hds d' (by simp [hd'])
    rcases hrun : compileDecl ctx d S with ⟨e | _, S'⟩
    · simp only [Session.compileDecls, compiledDecls, hrun]
      obtain ⟨hgrows, hsound⟩ := h.compileDecl_error hctx hd hrun
      have hnoted : (S'.note (.functionFailed d.name.name e)).Sound (ctx.sources block done) :=
        hsound.of_eq rfl rfl rfl
      obtain ⟨hgrows', hsound'⟩ := Sound.compileDecls ds hrest hnoted
      exact ⟨hgrows.trans hgrows', hsound'⟩
    · simp only [Session.compileDecls, compiledDecls, hrun]
      obtain ⟨hgrows, hsound⟩ := h.compileDecl_ok hctx hd hrun
      obtain ⟨hgrows', hsound'⟩ := Sound.compileDecls ds hrest hsound
      rw [List.append_assoc] at hsound'
      exact ⟨hgrows.trans hgrows', hsound'⟩

end Session

/-! ## Blocks -/

namespace Block

variable (block : Block) (functions : FunctionTable) (options : Options)

/-- The walk through the anonymous functions of a block, as it ended. -/
def walk : Walk := (Hoist.topLevel functions options block.stmts { session := .start }).2

/-- The session of a block after its compilation. -/
def session : Session :=
  match Session.hoist functions options block .start with
  | (.ok lambdas, session) => (session.compileDecls ⟨functions, options, lambdas⟩ block.decls).1
  | (.error e, session) => session.note (.hoistingFailed e)

/-- The declared functions of a block that compile. -/
def compiled : List Decl :=
  match Session.hoist functions options block .start with
  | (.ok lambdas, session) => session.compiledDecls ⟨functions, options, lambdas⟩ block.decls
  | (.error _, _) => []

/-- What the functions in the module of a block come from. -/
def sources : Sources :=
  ⟨block, functions, (block.walk functions options).table.get?, block.compiled functions options⟩

theorem module_compileBlock : (compileBlock functions options block).module =
    (block.session functions options).toModule options.owner := by
  unfold compileBlock session
  rcases Session.hoist functions options block .start with ⟨e | lambdas, S⟩ <;> rfl

theorem journal_compileBlock : (compileBlock functions options block).journal =
    (block.session functions options).journal := by
  unfold compileBlock session
  rcases Session.hoist functions options block .start with ⟨e | lambdas, S⟩ <;> rfl

/-- The table of the anonymous functions is what the walk ended with. -/
theorem hoist_eq : Session.hoist functions options block .start =
    match (Hoist.topLevel functions options block.stmts { session := .start }).1 with
    | .ok () =>
      (.ok (block.walk functions options).table,
        (block.walk functions options).session.note
          (.hoisted (block.walk functions options).table.size))
    | .error e => (.error e, (block.walk functions options).session) := by
  unfold Session.hoist walk
  simp only [bind]
  rcases Hoist.topLevel functions options block.stmts { session := .start } with ⟨e | _, w⟩ <;>
    rfl

variable {block functions options} in
/-- If an anonymous function fails, that is all that is reported. -/
theorem session_of_error {e : CompileError}
    (h : (Hoist.topLevel functions options block.stmts { session := .start }).1 = .error e) :
    block.session functions options = (block.walk functions options).session.note (.hoistingFailed e) ∧
      (compileBlock functions options block).errors = [e] := by
  unfold session compileBlock
  rw [hoist_eq, h]
  exact ⟨rfl, rfl⟩

variable {block functions options} in
/-- Otherwise the declarations follow. -/
theorem session_of_ok
    (h : (Hoist.topLevel functions options block.stmts { session := .start }).1 = .ok ()) :
    let hoisted := (block.walk functions options).session.note
      (.hoisted (block.walk functions options).table.size)
    let final := hoisted.compileDecls ⟨functions, options, (block.walk functions options).table⟩ block.decls
    block.session functions options = final.1 ∧
      (compileBlock functions options block).errors = final.2 := by
  unfold session compileBlock
  rw [hoist_eq, h]
  exact ⟨rfl, rfl⟩

/-- A function in the module of a block comes from this body. -/
def HasSource (s : Signature) (body : List Stmt) : Prop :=
  ComesFrom (block.sources functions options) (block.session functions options).wrapper? s body

variable {block functions}

theorem mem_exprs_of_mem_decls {d : Decl} (hd : d ∈ block.decls) :
    ∀ e ∈ Stmt.exprsAll d.body, e ∈ block.exprs := by
  intro e he
  simp only [decls, List.mem_filterMap] at hd
  obtain ⟨s, hs, hd⟩ := hd
  cases s with
  | decl name body span =>
    cases hd
    exact Stmt.mem_exprsAll.2 ⟨_, hs, he⟩
  | _ => cases hd

theorem hasSource_of_compiled {d : Decl} {s : Signature}
    (hd : d ∈ block.compiled functions options) (hs : functions.get? d.name.name = some s) :
    block.HasSource functions options s d.body :=
  .decl hd hs

theorem compiled_subset : block.compiled functions options ⊆ block.decls := by
  unfold compiled
  split
  · exact Session.compiledDecls_subset _ _ _
  · exact List.nil_subset _

theorem sound_start (src : Sources) (hdone : src.done = [])
    (hlambdas : ∀ text, src.lambdas text = none) : Session.start.Sound src := by
  have hwrapper (key : String) : Session.start.wrapper? key = none := by
    simp [Session.wrapper?, Session.start]
  refine ⟨fun e he => ?_, fun hget => ?_, fun hs => ?_, fun hi => ?_, fun hs => ?_⟩
  · cases he
  · cases hget
  · cases hs with
    | decl hd =>
      rw [hdone] at hd
      cases hd
    | lambda he hs =>
      rw [hlambdas] at hs
      cases hs
    | wrapper he hs =>
      rw [hwrapper] at hs
      cases hs
  · simp [Session.start, Pool.empty, Pool.get?] at hi
  · rw [hwrapper] at hs
    cases hs

variable (hfaithful : block.TextFaithful)

include hfaithful

/-- The walk ends in the invariant, whether or not it met a failure. -/
theorem sound_walk : (block.walk functions options).Sound block functions ∧
    Registry.empty.GrowsTo (block.walk functions options).session.registry := by
  have hstart : Walk.Sound block functions { session := .start } := by
    refine ⟨sound_start _ rfl LambdaTable.get?_empty, fun _ _ _ _ _ hs => ?_, fun hs => ?_⟩
    · rw [LambdaTable.get?_empty] at hs
      cases hs
    · cases hs
  have hkeeps : Walk.Preserves block functions { session := .start }
      (block.walk functions options) :=
    Hoist.topLevel_keeps (fun _ _ _ he => Hoist.lambda_keeps hfaithful he) block.stmts
      (fun _ he => he) _
  obtain ⟨hgrows, hsound⟩ := hkeeps hstart
  exact ⟨hsound, hgrows⟩

/-- A compilation ends in the invariant, and leaves no function without code. -/
theorem sound_session : (block.session functions options).Sound (block.sources functions options) ∧
    Registry.empty.GrowsTo (block.session functions options).registry := by
  have hwalk : (block.walk functions options).Sound block functions ∧ _ :=
    sound_walk options hfaithful
  obtain ⟨hwalk, hgrows⟩ := hwalk
  unfold session sources compiled
  rw [hoist_eq]
  cases (Hoist.topLevel functions options block.stmts { session := .start }).1 with
  | ok _ =>
    have hctx : CodeContext.Fits ⟨functions, options, (block.walk functions options).table⟩
        block := ⟨hfaithful, hwalk.lambdas⟩
    have hnoted : Session.Sound ⟨block, functions, (block.walk functions options).table.get?, []⟩
        ((block.walk functions options).session.note
          (.hoisted (block.walk functions options).table.size)) :=
      hwalk.session.of_eq rfl rfl rfl
    obtain ⟨hgrows', hsound⟩ := Session.Sound.compileDecls hctx block.decls
      (fun d hd => mem_exprs_of_mem_decls hd) hnoted
    exact ⟨hsound, hgrows.trans hgrows'⟩
  | error e => exact ⟨hwalk.session.of_eq rfl rfl rfl, hgrows⟩

/-- A function in the module has code, comes from some body, and its code is that of any body that
it comes from. -/
theorem code_of_mem {entry : Entry}
    (hentry : entry ∈ (compileBlock functions options block).module.functions) :
    ∃ chunk, entry.code? = some chunk ∧
      (∃ body, block.HasSource functions options entry.signature body) ∧
      ∀ {body}, block.HasSource functions options entry.signature body →
        CompiledFrom functions (block.walk functions options).table.get?
          (block.session functions options).wrapper?
          (compileBlock functions options block).module.pool entry.signature body chunk := by
  obtain ⟨hsound, hgrows⟩ := sound_session options hfaithful
  rw [module_compileBlock] at hentry ⊢
  have hget := hsound.filed entry hentry
  cases hcode : entry.code? with
  | none => exact nomatch hgrows.unfinished hget hcode
  | some chunk =>
    refine ⟨chunk, rfl, hsound.sourced hget hcode, fun hbody => ?_⟩
    obtain ⟨flags, chunk', hfound, hcompiled⟩ := hsound.compiled hbody
    have heq := Option.some.inj (hget.symm.trans hfound)
    rw [heq] at hcode
    obtain rfl := Option.some.inj hcode
    exact hcompiled

end Block

/-! ## A block -/

/-- A block that declares one function, which returns the anonymous function `{_}`. -/
def identityBlock : Block :=
  ⟨[.decl ⟨"f", default⟩ [.ret (.lambda (.placeholder default) "{_}" default) default] default]⟩

theorem exprs_identityBlock : identityBlock.exprs =
    [.lambda (.placeholder default) "{_}" default, .placeholder default] :=
  rfl

theorem textFaithful_identityBlock : identityBlock.TextFaithful := by
  intro e he e' he' htext
  rw [exprs_identityBlock] at he he'
  simp only [List.mem_cons, List.not_mem_nil, or_false] at he he'
  rcases he with rfl | rfl <;> rcases he' with rfl | rfl
  · rfl
  · simp [Expr.text, Expr.placeholderText] at htext
  · simp [Expr.text, Expr.placeholderText] at htext
  · rfl

/-- The functions that `identityBlock` refers to. -/
def identityFunctions : FunctionTable := .ofList [⟨"f", [], .fn [.real] .real, "Main", false⟩]

end BlockCompiler
