import BlockCompiler.Proofs.HoistedFunctions
import BlockCompiler.Proofs.Recompilation

/-!
# The order of declarations

A block that is compiled with its statements in another order declares the same functions, but for one
thing.  A constant is wrapped where it is first met, and remembered.  The code of its wrapper lies one
level deeper than that place, so an order that meets the constant at a deeper place may exceed the
limit of nesting where another does not.

* `Block.precedent` collects what one compilation shows of the expressions in the block.
* `Hoist.excused_topLevel` and `Session.excused_compileDecls` follow another compilation along it,
  through the anonymous functions and through the declarations.
* `declares_of_perm` is what it comes to.
-/

namespace BlockCompiler

/-! ## The journal -/

/-- From `S` to `S'` events were only added to the journal. -/
def Session.Recalls (S S' : Session) : Prop := ∀ event ∈ S.journal, event ∈ S'.journal

namespace Session

instance : IsPreorder Session Recalls where
  refl _ _ h := h
  trans _ _ _ h h' event hevent := h' event (h event hevent)

theorem recalls_note (S : Session) (event : Event) : S.Recalls (S.note event) :=
  fun _ => Array.mem_push_of_mem _

theorem recalls_compileWith {s : Signature} {flags : EntryFlags} {site : Span} {depth : Nat}
    {body : Gen Unit} (hbody : Gen.KeepsSession Recalls body) :
    Attempt.Keeps Recalls (compileWith s flags site depth body) := by
  intro S
  rw [compileWith_eq]
  split
  · exact refl_of Recalls S
  next registry _ =>
    have hrun := hbody ⟨{ S with registry }.note (.declared s), .start s site depth⟩
    have hdeclared := trans_of Recalls (recalls_note { S with registry } (.declared s)) hrun
    split
    next e w heq =>
      rw [heq] at hdeclared
      exact trans_of Recalls hdeclared (recalls_note w.session _)
    next w heq =>
      rw [heq] at hdeclared
      dsimp only
      split
      · exact hdeclared
      next registry' _ =>
        exact trans_of Recalls hdeclared (recalls_note { w.session with registry := registry' } _)

end Session

/-- Code for expressions forgets no event. -/
theorem Gen.stable_recalls (ctx : CodeContext) (block : Block) :
    Stable ctx block fun _ => Session.Recalls where
  preorder _ := inferInstance
  mono _ h := h
  intern _ _ S := refl_of Session.Recalls S
  promote e _ hvalue _ params result _ w := by
    rcases hrun : promote ctx e params result (value ctx e) w with ⟨r, w'⟩
    cases promotion hrun with
    | reused _ hbind =>
      cases hbind
      exact Session.recalls_note w.session _
    | refused => exact refl_of Session.Recalls w.session
    | failed _ _ _ hcompiled =>
      have hrecalls := (Session.recalls_compileWith hvalue.returnBody).of_run hcompiled
      exact hrecalls
    | wrapped _ _ _ hcompiled hbind =>
      cases hbind
      have hrecalls := (Session.recalls_compileWith hvalue.returnBody).of_run hcompiled
      exact trans_of Session.Recalls hrecalls (Session.recalls_note _ _)

namespace Session

variable {ctx : CodeContext} {block : Block}

/-- Declared functions forget no event, and note how they fail. -/
theorem recalls_compileDecls (ds : List Decl)
    (hds : ∀ d ∈ ds, ∀ e ∈ Stmt.exprsAll d.body, e ∈ block.exprs) (S : Session) :
    S.Recalls (S.compileDecls ctx ds).1 := by
  refine compileDecls_keeps ctx (fun S name e => recalls_note S _) ds (fun d hd => ?_) S
  refine .bind (Attempt.keeps_ofExcept _) fun s => recalls_compileWith fun w => ?_
  exact ((Gen.stable_recalls ctx block).body (hds d hd) w).choose_spec

theorem Excuses.recalls {limit : Nat} {deep : Prop} {err : CompileError} {S S' : Session}
    (h : S.Excuses limit deep err) (hrecalls : S.Recalls S') : S'.Excuses limit deep err :=
  ⟨h.cause, h.wrapper.imp_right fun ⟨id, hid⟩ => ⟨id, hrecalls _ hid⟩⟩

end Session

/-! ## The precedent -/

section Precedents

variable {block : Block} {functions : FunctionTable} (options : Options)

/-- A step of the walk that ends well records the anonymous functions that it meets. -/
theorem Hoist.Meets.covers_of_run {options : Options} {x : Hoist Unit} {es : List Expr}
    (h : Meets block functions options x es) {w w' : Walk} (hrun : x w = (.ok (), w')) :
    w'.table.Covers es := by
  have hends := h w
  unfold Attempt.Ends at hends
  rw [hrun] at hends
  exact hends.2

theorem Block.covers_walk {w : Walk}
    (hrun : Hoist.topLevel functions options block.stmts { session := .start } = (.ok (), w)) :
    w.table.Covers block.exprs := by
  have hmeets : Hoist.Meets block functions options (Hoist.topLevel functions options block.stmts)
      block.exprs := Hoist.meets_topLevel block.stmts fun _ he => he
  exact hmeets.covers_of_run hrun

/-- What a compilation shows of the expressions in a block, if the anonymous functions in it compile. -/
theorem Block.precedent (hfaithful : block.TextFaithful)
    (hhoist : (Hoist.topLevel functions options block.stmts { session := .start }).1 = .ok ()) :
    Precedent block functions options (block.walk functions options).table.get?
      (block.session functions options).wrapper? := by
  have hrun : Hoist.topLevel functions options block.stmts { session := .start } =
      (.ok (), block.walk functions options) := Prod.ext hhoist rfl
  have hwalk : (block.walk functions options).Sound block functions :=
    (sound_walk options hfaithful).1
  have hsound : (block.session functions options).Sound (block.sources functions options) :=
    (sound_session options hfaithful).1
  refine ⟨hfaithful, Hoist.height_le_of_topLevel block.stmts hrun, fun {body text span} he => ?_,
    fun {e params result s} he hs => ?_⟩
  · obtain ⟨s, hs⟩ := covers_walk options hrun he
    obtain ⟨hparams, htype⟩ := hwalk.lambdas he hs
    obtain ⟨_, _, -, hcompiled⟩ := hsound.compiled (.lambda he hs)
    obtain ⟨ms, hms, -⟩ := hcompiled.code
    rw [hparams] at hms
    cases hms with
    | ret _ hbody ht => exact ⟨_, _, _, htype, ht, hbody⟩
  · have hgated : (block.session functions options).Gated functions options block none :=
      gated_session hfaithful
    have htype := hsound.wrappers hs
    obtain ⟨_, _, -, hcompiled⟩ := hsound.compiled (.wrapper he hs)
    obtain ⟨ms, hms, -⟩ := hcompiled.code
    have harity := hcompiled.arity
    rw [Signature.toTy, Ty.fn.injEq] at htype
    rw [← htype.1, Signature.paramTypes, List.length_map]
    cases hms with
    | ret _ hbody _ => exact ⟨(hgated.constants he hs).1, harity, _, _, _, hbody⟩

/-- The precedent of a block is one for any block with the same expressions. -/
theorem Precedent.of_exprs {block block' : Block} {functions : FunctionTable} {options : Options}
    {lambdas wrappers : String → Option Signature}
    (h : Precedent block functions options lambdas wrappers)
    (hexprs : ∀ e ∈ block'.exprs, e ∈ block.exprs) :
    Precedent block' functions options lambdas wrappers :=
  ⟨fun e he e' he' => h.faithful e (hexprs e he) e' (hexprs e' he'),
    fun e he => h.height e (hexprs e he), fun he => h.lambda (hexprs _ he),
    fun he => h.constant (hexprs _ he)⟩

end Precedents

/-! ## Anonymous functions -/

/-- The state of a walk in which the next anonymous function can be met: names are free, also that of the
function for the bare placeholder, unless it was compiled. -/
structure Walk.Ready (block : Block) (functions : FunctionTable) (w : Walk) : Prop where
  sound : w.Sound block functions
  fresh : w.session.Fresh
  identity : identityName ∈ w.session.registry.names → ∃ s, w.identity? = some s

/-- Readiness is kept. -/
def Walk.Readies (block : Block) (functions : FunctionTable) (w w' : Walk) : Prop :=
  w.Ready block functions → w'.Ready block functions

instance (block : Block) (functions : FunctionTable) :
    IsPreorder Walk (Walk.Readies block functions) where
  refl _ h := h
  trans _ _ _ h h' hw := h' (h hw)

theorem identityName_ne_wrapperName (id : Nat) : identityName ≠ Gen.wrapperName id := by
  intro hname
  have hdollar : '$' ∈ identityName.toList := by
    rw [hname]
    simp [Gen.wrapperName, String.toList_append]
  revert hdollar
  decide

namespace Hoist

variable {block : Block} {functions : FunctionTable} {options : Options}

/-- The name of the function made for an anonymous function is none of later numbers. -/
theorem name_lambdaSignature_ne_later {id : Nat} {body : Expr} {result : Ty} {owner : String} :
    ∀ id', id + 1 ≤ id' → (lambdaSignature id body result owner).name ≠ Gen.wrapperName id' ∧
      (lambdaSignature id body result owner).name ≠ lambdaName id' := by
  intro id' hid
  refine ⟨name_lambdaSignature_ne _ _ _ _ _, ?_⟩
  unfold lambdaSignature
  dsimp only
  split
  · exact (lambdaName_ne_identityName id').symm
  · intro hname
    have := lambdaName_inj hname
    omega

/-- The name of the function to be made for an anonymous function is free. -/
theorem name_not_mem_of_ready {w : Walk} (h : w.Ready block functions)
    {body : Expr} (hidentity : body.isPlaceholder = true → w.identity? = none) (result : Ty)
    (owner : String) :
    (lambdaSignature w.session.nextId body result owner).name ∉ w.session.registry.names := by
  unfold lambdaSignature
  dsimp only
  split
  next hplaceholder =>
    intro hmem
    obtain ⟨s, hs⟩ := h.identity hmem
    rw [hidentity hplaceholder] at hs
    cases hs
  next => exact h.fresh.lambdas w.session.nextId (Nat.le_refl _)

theorem numbers_returnBody {ctx : CodeContext} {body : Expr} (hbody : body ∈ block.exprs) (span : Span) :
    Gen.KeepsSession Session.Numbers (Gen.returnBody ctx body.text span (Gen.value ctx body)) :=
  ((Gen.stable_numbers ctx block).value hbody).returnBody

/-- After an anonymous function was met, the next one can be met. -/
theorem lambda_ready (hfaithful : block.TextFaithful) :
    LambdasKeep block functions options (Walk.Readies block functions) := by
  intro body text span he w h
  have hbody := Block.body_mem_exprs he
  have hsound : (lambda functions options body text span w).2.Sound block functions :=
    (lambda_keeps hfaithful he w h.sound).2
  rcases hrun : lambda functions options body text span w with ⟨r, w'⟩
  rw [hrun] at hsound
  refine ⟨hsound, ?_, ?_⟩
  · cases meeting hrun with
    | recorded | identity => exact ⟨h.fresh.nodup, h.fresh.wrappers, h.fresh.lambdas⟩
    | untyped => exact h.fresh.count
    | failed _ _ hs hcompiled =>
      subst hs
      exact h.fresh.count.compileWith (numbers_returnBody hbody span) hcompiled
        name_lambdaSignature_ne_later
    | compiled _ _ hs hcompiled =>
      subst hs
      have hfresh := h.fresh.count.compileWith (numbers_returnBody hbody span) hcompiled
        name_lambdaSignature_ne_later
      exact ⟨hfresh.nodup, hfresh.wrappers, hfresh.lambdas⟩
  · have hnew {S : Session} {ids : List Nat} {names : List String}
        (hnames : S.registry.names = names ++ ids.map Gen.wrapperName)
        (hmem : identityName ∈ S.registry.names) : identityName ∈ names := by
      rw [hnames, List.mem_append] at hmem
      refine hmem.resolve_right fun hwrapper => ?_
      obtain ⟨id, -, hid⟩ := List.mem_map.1 hwrapper
      exact identityName_ne_wrapperName id hid.symm
    cases meeting hrun with
    | recorded | identity | untyped => exact h.identity
    | failed _ _ _ hcompiled =>
      obtain ⟨ids, -, ⟨_, -, hnames⟩ | ⟨hok, -⟩⟩ :=
        Session.compileWith_numbers (numbers_returnBody hbody span) hcompiled h.fresh.nodup
      · exact fun hmem => h.identity (hnew hnames hmem)
      · cases hok
    | @compiled s S typing _ _ hs hcompiled =>
      obtain ⟨ids, -, ⟨_, herr, -⟩ | ⟨-, -, hnames⟩⟩ :=
        Session.compileWith_numbers (numbers_returnBody hbody span) hcompiled h.fresh.nodup
      · cases herr
      · intro hmem
        rw [← List.singleton_append, ← List.append_assoc] at hnames
        have hmem := hnew hnames hmem
        split
        · exact ⟨s, rfl⟩
        next hother =>
          rcases List.mem_append.1 hmem with hold | hself
          · exact h.identity hold
          · rw [List.mem_singleton, ← hs] at hself
            simp only [lambdaSignature, if_neg hother] at hself
            exact absurd hself.symm (lambdaName_ne_identityName _)

/-- Whether a step of the walk has an excuse if it fails: a wrapper was too deep. -/
abbrev Excused (options : Options) (x : Hoist Unit) (w : Walk) : Prop :=
  Attempt.FailsWithin (fun err w' => w'.session.Excuses options.maxDepth False err) x w

/-- Whether some walk gets through a step. -/
def Passes (x : Hoist Unit) : Prop := ∃ w w', x w = (.ok (), w')

theorem Passes.bind {x : Hoist Unit} {y : Unit → Hoist Unit} (h : Passes (x >>= y)) :
    Passes x ∧ Passes (y ()) := by
  obtain ⟨w, w'', hrun⟩ := h
  obtain ⟨_, w', hx, hy⟩ := Attempt.bind_eq_ok.1 hrun
  exact ⟨⟨w, w', hx⟩, ⟨w', w'', hy⟩⟩

/-- A check of the depth that some walk gets through fails in none. -/
theorem excused_checked {depth : Nat} {span : Span} {x : Hoist Unit} {w : Walk}
    (hpass : Passes (Attempt.ofExcept (ensureDepth options.maxDepth depth span) >>= fun _ => x))
    (hx : Passes x → Excused options x w) :
    Excused options (Attempt.ofExcept (ensureDepth options.maxDepth depth span) >>= fun _ => x) w := by
  obtain ⟨⟨_, _, hdepth⟩, hrest⟩ := hpass.bind
  rw [(Attempt.ofExcept_eq_ok.1 hdepth).1]
  exact hx hrest

/-- The statements of a block are met one after the other. -/
theorem topLevel_cons (s : Stmt) (ss : List Stmt) : topLevel functions options (s :: ss) =
    topLevel functions options [s] >>= fun _ => topLevel functions options ss := by
  cases s <;> simp [topLevel]

/-- A walk that gets through statements gets through each of them. -/
theorem passes_of_topLevel : ∀ {ss : List Stmt}, Passes (topLevel functions options ss) →
    ∀ s ∈ ss, Passes (topLevel functions options [s])
  | s :: ss, hpass, s', hs' => by
    rw [topLevel_cons] at hpass
    rcases List.mem_cons.1 hs' with rfl | hs'
    · exact hpass.bind.1
    · exact passes_of_topLevel hpass.bind.2 s' hs'

section Excuses

variable {lambdas wrappers : String → Option Signature}
  (hprecedent : Precedent block functions options lambdas wrappers)

include hprecedent

/-- An anonymous function that was compiled before has an excuse if it fails. -/
theorem excused_lambda {body : Expr} {text : String} {span : Span}
    (he : Expr.lambda body text span ∈ block.exprs) {w : Walk} (h : w.Ready block functions)
    (hcovers : w.table.Covers body.subexprs) :
    Excused options (lambda functions options body text span) w := by
  intro err w' hrun
  have hbody := Block.body_mem_exprs he
  have hheight := hprecedent.height body hbody
  obtain ⟨ms, t, result, htype, haccepts, hms⟩ := hprecedent.lambda he
  have hinfer : ∃ typing, body.infer ⟨functions, .empty, w.table, options.maxDepth⟩ = .ok typing ∧
      typing.ty = result := Expr.inferAt_of_typeOf body htype (by dsimp only; omega)
  cases meeting hrun with
  | untyped _ herr =>
    obtain ⟨_, hok, -⟩ := hinfer
    rw [hok] at herr
    cases herr
  | @failed s _ S typing hfresh hok hs hcompiled =>
    obtain ⟨_, hok', rfl⟩ := hinfer
    obtain rfl := Except.ok.inj (hok.symm.trans hok')
    have hctx : CodeContext.Follows ⟨functions, options, w.table⟩ block lambdas wrappers :=
      ⟨⟨hprecedent.faithful, h.sound.lambdas⟩, hprecedent⟩
    have hidentity (hplaceholder : body.isPlaceholder = true) : w.identity? = none := by
      cases hidentity : w.identity? with
      | none => rfl
      | some s₀ =>
        rw [lambda_eq, hfresh] at hrun
        simp only [hplaceholder, if_true, hidentity] at hrun
        cases hrun
    subst hs
    have hfree := name_not_mem_of_ready h hidentity typing.ty options.owner
    refine (Session.excuses_compileWith (numbers_returnBody hbody span)
      (S := { w.session with nextId := w.session.nextId + 1 }) hfree (fun hdecl => ?_) hcompiled).1
    refine Gen.excused_returnBody hctx hbody (List.nodup_singleton _)
      (by simp [lambdaSignature, Scope.slotLimit]) hms.typeOf haccepts fun {w₁} h₁ => ?_
    have hscope : w₁.frame.scope = .ofParams [lambdaParam] := h₁.scope
    rw [← hscope] at hms
    refine Gen.repeats_value hctx hbody hcovers hms (.inr ?_) ?_
    · rw [h₁.depth]
      dsimp only
      omega
    · rw [h₁.session]
      exact h.fresh.count.declare hdecl name_lambdaSignature_ne_later

mutual

theorem excused_expr : ∀ e ∈ block.exprs, ∀ {depth : Nat}, Passes (expr functions options depth e) →
    ∀ {w : Walk}, w.Ready block functions → Excused options (expr functions options depth e) w
  | .literal _ _ _, _, _, ⟨_, _, hpass⟩, _, _ | .var _, _, _, ⟨_, _, hpass⟩, _, _
  | .placeholder _, _, _, ⟨_, _, hpass⟩, _, _ =>
    Attempt.failsWithin_of_ok (Attempt.ofExcept_eq_ok.2 ⟨(Attempt.ofExcept_eq_ok.1 hpass).1, rfl⟩)
  | .pair first second _ _, he, depth, hpass, w, h => by
    have hfirst := Block.first_mem_exprs he
    have hready : LambdasKeep block functions options (Walk.Readies block functions) :=
      lambda_ready hprecedent.faithful
    refine excused_checked hpass fun hpass => .bind (excused_expr first hfirst hpass.bind.1 h) ?_
    intro _ w₁ hrun
    exact excused_expr second (Block.second_mem_exprs he) hpass.bind.2
      ((expr_keeps hready first hfirst (depth + 1)).of_run hrun h)
  | .lambda body text span, he, depth, hpass, w, h => by
    have hbody := Block.body_mem_exprs he
    have hready : LambdasKeep block functions options (Walk.Readies block functions) :=
      lambda_ready hprecedent.faithful
    have hmeets : Meets block functions options (expr functions options (depth + 1) body)
        body.subexprs := meets_expr body hbody (depth + 1)
    refine excused_checked hpass fun hpass => .bind (excused_expr body hbody hpass.bind.1 h) ?_
    intro _ w₁ hrun
    exact excused_lambda hprecedent he
      ((expr_keeps hready body hbody (depth + 1)).of_run hrun h) (hmeets.covers_of_run hrun)
  | .call _ args _ _, he, _, hpass, _, h =>
    excused_checked hpass fun hpass => excused_exprs args (fun _ => Block.arg_mem_exprs he) hpass h

theorem excused_exprs : ∀ es : List Expr, (∀ e ∈ es, e ∈ block.exprs) → ∀ {depth : Nat},
    Passes (exprs functions options depth es) → ∀ {w : Walk}, w.Ready block functions →
      Excused options (exprs functions options depth es) w
  | [], _, _, _, _, _ => Attempt.failsWithin_of_ok rfl
  | e :: es, hes, depth, hpass, w, h => by
    have he := hes e (by simp)
    have hready : LambdasKeep block functions options (Walk.Readies block functions) :=
      lambda_ready hprecedent.faithful
    refine .bind (excused_expr e he hpass.bind.1 h) fun _ w₁ hrun => ?_
    exact excused_exprs es (fun e' he' => hes e' (by simp [he'])) hpass.bind.2
      ((expr_keeps hready e he depth).of_run hrun h)

end

mutual

theorem excused_stmt : ∀ s : Stmt, (∀ e ∈ s.exprs, e ∈ block.exprs) → ∀ {depth : Nat},
    Passes (stmt functions options depth s) → ∀ {w : Walk}, w.Ready block functions →
      Excused options (stmt functions options depth s) w
  | .expr e, hs, _, hpass, _, h | .ret e _, hs, _, hpass, _, h =>
    excused_checked hpass fun hpass =>
      excused_expr hprecedent e (hs e e.mem_subexprs_self) hpass h
  | .decl _ body _, hs, _, hpass, _, h =>
    excused_checked hpass fun hpass => excused_stmts body hs hpass h

theorem excused_stmts : ∀ ss : List Stmt, (∀ e ∈ Stmt.exprsAll ss, e ∈ block.exprs) → ∀ {depth : Nat},
    Passes (stmts functions options depth ss) → ∀ {w : Walk}, w.Ready block functions →
      Excused options (stmts functions options depth ss) w
  | [], _, _, _, _, _ => Attempt.failsWithin_of_ok rfl
  | s :: ss, hss, depth, hpass, w, h => by
    have hs : ∀ e ∈ s.exprs, e ∈ block.exprs := fun e he => hss e (List.mem_append_left _ he)
    have hready : LambdasKeep block functions options (Walk.Readies block functions) :=
      lambda_ready hprecedent.faithful
    refine .bind (excused_stmt s hs hpass.bind.1 h) fun _ w₁ hrun => ?_
    exact excused_stmts ss (fun e he => hss e (List.mem_append_right _ he)) hpass.bind.2
      ((stmt_keeps hready s hs depth).of_run hrun h)

end

/-- A walk through statements that other walks get through one by one has an excuse if it fails. -/
theorem excused_topLevel : ∀ ss : List Stmt, (∀ e ∈ Stmt.exprsAll ss, e ∈ block.exprs) →
    (∀ s ∈ ss, Passes (topLevel functions options [s])) → ∀ {w : Walk}, w.Ready block functions →
      Excused options (topLevel functions options ss) w
  | [], _, _, _, _ => Attempt.failsWithin_of_ok rfl
  | s :: ss, hss, hpass, w, h => by
    have hs : ∀ e ∈ Stmt.exprsAll [s], e ∈ block.exprs := fun e he =>
      hss e (List.mem_append_left _ (by simpa [Stmt.exprsAll] using he))
    have hready : LambdasKeep block functions options (Walk.Readies block functions) :=
      lambda_ready hprecedent.faithful
    have hhead : Excused options (topLevel functions options [s]) w := by
      have hpass := hpass s (by simp)
      have hs : ∀ e ∈ s.exprs, e ∈ block.exprs := fun e he => hs e (by simpa [Stmt.exprsAll] using he)
      cases s with
      | expr e | ret e span =>
        exact .bind (excused_stmt hprecedent _ hs hpass.bind.1 h) fun _ _ _ =>
          Attempt.failsWithin_of_ok rfl
      | decl name body span =>
        exact .bind (excused_stmts hprecedent _ hs hpass.bind.1 h) fun _ _ _ =>
          Attempt.failsWithin_of_ok rfl
    rw [topLevel_cons]
    refine .bind hhead fun _ w₁ hrun => ?_
    exact excused_topLevel ss (fun e he => hss e (List.mem_append_right _ he))
      (fun s' hs' => hpass s' (by simp [hs'])) ((topLevel_keeps hready [s] hs).of_run hrun h)

end Excuses

end Hoist

/-! ## Declarations -/

/-- Whether a name is one that the compiler makes up. -/
def IsMadeUp (name : String) : Prop := "_lambda_".toList <+: name.toList

theorem isMadeUp_lambdaName (id : Nat) : IsMadeUp (lambdaName id) := by
  rw [IsMadeUp, lambdaName, String.toList_append]
  exact List.prefix_append _ _

theorem isMadeUp_wrapperName (id : Nat) : IsMadeUp (Gen.wrapperName id) := by
  rw [IsMadeUp, Gen.wrapperName, String.toList_append, String.toList_append, List.append_assoc]
  exact List.prefix_append _ _

namespace Session

variable {ctx : CodeContext} {block : Block} {lambdas wrappers : String → Option Signature}
  {S S' : Session} {d : Decl}

/-- The session before the declarations of a list: names are free, and so are those declared. -/
structure Awaits (S : Session) (ds : List Decl) : Prop where
  fresh : S.Fresh
  free : ∀ d ∈ ds, d.name.name ∉ S.registry.names
  apart : (ds.map fun d => d.name.name).Nodup
  genuine : ∀ d ∈ ds, ¬IsMadeUp d.name.name

theorem numbers_body (hd : ∀ e ∈ Stmt.exprsAll d.body, e ∈ block.exprs) :
    Gen.KeepsSession Numbers (Gen.body ctx d.body) := fun w =>
  ((Gen.stable_numbers ctx block).body hd w).choose_spec

/-- After a declaration the session is ready for the next ones. -/
theorem Awaits.tail {ds : List Decl} (h : S.Awaits (d :: ds))
    (hd : ∀ e ∈ Stmt.exprsAll d.body, e ∈ block.exprs) {r : Except CompileError Unit}
    (hrun : compileDecl ctx d S = (r, S')) : S'.Awaits ds := by
  have hgenuine := h.genuine d (by simp)
  have hapart := List.nodup_cons.1
    (by simpa using h.apart : ((d.name.name :: ds.map fun d => d.name.name)).Nodup)
  have hsession : S'.Fresh ∧ ∀ name ∈ S'.registry.names, name ∈ S.registry.names ∨
      name = d.name.name ∨ IsMadeUp name := by
    unfold compileDecl at hrun
    rw [Attempt.bind_run] at hrun
    cases hresolve : resolve ctx.functions d.name with
    | error e =>
      simp only [hresolve, Attempt.ofExcept] at hrun
      cases hrun
      exact ⟨h.fresh, fun _ => .inl⟩
    | ok s =>
      simp only [hresolve, Attempt.ofExcept] at hrun
      have hname : s.name = d.name.name := ctx.functions.name_of_get? (Expr.resolve_eq_ok.1 hresolve)
      refine ⟨h.fresh.compileWith (numbers_body hd) hrun fun id _ => ?_, fun name hmem => ?_⟩
      · rw [hname]
        refine ⟨fun heq => hgenuine ?_, fun heq => hgenuine ?_⟩ <;> rw [heq]
        · exact isMadeUp_wrapperName id
        · exact isMadeUp_lambdaName id
      · obtain ⟨ids, -, hnames⟩ := compileWith_numbers (numbers_body hd) hrun h.fresh.nodup
        have hwrapper {name : String} (hmem : name ∈ ids.map Gen.wrapperName) : IsMadeUp name := by
          obtain ⟨id, -, rfl⟩ := List.mem_map.1 hmem
          exact isMadeUp_wrapperName id
        rcases hnames with ⟨_, -, hnames⟩ | ⟨-, -, hnames⟩ <;> rw [hnames, List.mem_append] at hmem
        · exact hmem.imp_right fun hnew => .inr (hwrapper hnew)
        · refine hmem.imp_right fun hnew => ?_
          rw [List.mem_cons, hname] at hnew
          exact hnew.imp_right hwrapper
  refine ⟨hsession.1, fun d' hd' hmem => ?_, hapart.2, fun d' hd' => h.genuine d' (by simp [hd'])⟩
  rcases hsession.2 _ hmem with hold | hself | hmade
  · exact h.free d' (by simp [hd']) hold
  · exact hapart.1 (hself ▸ List.mem_map_of_mem hd')
  · exact h.genuine d' (by simp [hd']) hmade

theorem Awaits.note {ds : List Decl} (h : S.Awaits ds) (event : Event) : (S.note event).Awaits ds :=
  ⟨⟨h.fresh.nodup, h.fresh.wrappers, h.fresh.lambdas⟩, h.free, h.apart, h.genuine⟩

section Repetition

variable (hctx : ctx.Follows block lambdas wrappers) (hcovers : ctx.lambdas.Covers block.exprs)
  {s : Signature} (hs : ctx.functions.get? d.name.name = some s) {pool : Pool} {chunk : Chunk}
  (hcode : CompiledFrom ctx.functions lambdas wrappers pool s d.body chunk)

include hctx hcovers hs hcode

/-- A function that was compiled before has an excuse if it fails. -/
theorem excused_compileDecl (hd : ∀ e ∈ Stmt.exprsAll d.body, e ∈ block.exprs) {ds : List Decl}
    (h : S.Awaits (d :: ds)) :
    Attempt.FailsWithin (fun err S' => S'.Excuses ctx.options.maxDepth False err) (compileDecl ctx d) S := by
  intro err S' hrun
  have hresolve : resolve ctx.functions d.name = .ok s := Expr.resolve_eq_ok.2 hs
  have hname : s.name = d.name.name := ctx.functions.name_of_get? hs
  have hgenuine : ¬IsMadeUp s.name := by
    rw [hname]
    exact h.genuine d (by simp)
  have hfree : s.name ∉ S.registry.names := by
    rw [hname]
    exact h.free d (by simp)
  unfold compileDecl at hrun
  rw [Attempt.bind_run, hresolve] at hrun
  obtain ⟨ms, hms, -⟩ := hcode.code
  refine (excuses_compileWith (numbers_body hd) hfree (fun hdecl => ?_) hrun).1
  refine Gen.excused_body hctx hcode.names hcode.arity hms hd (hcovers.of_subset hd)
    (h.fresh.declare hdecl fun id _ => ⟨fun heq => hgenuine ?_, fun heq => hgenuine ?_⟩) <;> rw [heq]
  · exact isMadeUp_wrapperName id
  · exact isMadeUp_lambdaName id

/-- Among other declarations, a function that was compiled before is compiled again, or it fails and has
an excuse. -/
theorem excused_compileDecls : ∀ (ds : List Decl) {S : Session},
    (∀ d' ∈ ds, ∀ e ∈ Stmt.exprsAll d'.body, e ∈ block.exprs) → S.Awaits ds → d ∈ ds →
      (∃ entry ∈ (S.compileDecls ctx ds).1.registry.declared, entry.name = d.name.name) ∨
        ∃ err ∈ (S.compileDecls ctx ds).2,
          (S.compileDecls ctx ds).1.Excuses ctx.options.maxDepth False err ∧
            Event.functionFailed d.name.name err ∈ (S.compileDecls ctx ds).1.journal
  | d' :: ds, S, hds, h, hmem => by
    have hd' := hds d' (by simp)
    have hrest : ∀ d'' ∈ ds, ∀ e ∈ Stmt.exprsAll d''.body, e ∈ block.exprs :=
      fun d'' hd'' => hds d'' (by simp [hd''])
    rcases hrun : compileDecl ctx d' S with ⟨e | _, S'⟩ <;> simp only [compileDecls, hrun]
    · have hnoted := (h.tail hd' hrun).note (.functionFailed d'.name.name e)
      rcases List.mem_cons.1 hmem with rfl | hmem
      · have hrecalls : (S'.note (.functionFailed d.name.name e)).Recalls
            ((S'.note (.functionFailed d.name.name e)).compileDecls ctx ds).1 :=
          recalls_compileDecls ds hrest _
        have hexcuses := excused_compileDecl hctx hcovers hs hcode hd' h e S' hrun
        refine .inr ⟨e, by simp, ?_, hrecalls _ Array.mem_push_self⟩
        exact (hexcuses.recalls (recalls_note S' _)).recalls hrecalls
      · refine (excused_compileDecls ds hrest hnoted hmem).imp_right ?_
        rintro ⟨err, herr, hfailed⟩
        exact ⟨err, by simp [herr], hfailed⟩
    · rcases List.mem_cons.1 hmem with rfl | hmem
      · obtain ⟨-, -, ⟨_, herr, -⟩ | ⟨-, s', chunk', hs', hdeclared⟩⟩ := compileDecl_outcome hd' hrun
        · cases herr
        · obtain ⟨-, -, os, -, -, hentries⟩ := compileDecls_outcomes ctx ds S' hrest
          refine .inl ⟨.ofSignature s' .user (some chunk'), ?_, ctx.functions.name_of_get? hs'⟩
          rw [hentries, hdeclared]
          simp
      · exact excused_compileDecls ds hrest (h.tail hd' hrun) hmem

end Repetition

end Session

/-! ## Whole blocks -/

/-- Whether a declared function of this name is in the module. -/
def Compilation.Declares (c : Compilation) (name : String) : Prop :=
  ∃ entry ∈ c.module.declaredFunctions, entry.name = name

instance (c : Compilation) (name : String) : Decidable (c.Declares name) :=
  inferInstanceAs (Decidable (∃ entry ∈ c.module.declaredFunctions, entry.name = name))

/-- Whether a declared function, or an anonymous one before it, failed because the code of a wrapper was
nested too deeply: the wrapper was abandoned with the error that is reported. -/
def Compilation.WrapsTooDeep (c : Compilation) (limit : Nat) (name : String) : Prop :=
  ∃ err ∈ c.errors, err.cause = .nestingTooDeep limit ∧
    (∃ id, Event.abandoned (Gen.wrapperName id) err ∈ c.journal) ∧
    (Event.functionFailed name err ∈ c.journal ∨ Event.hoistingFailed err ∈ c.journal)

namespace Block

variable {block block' : Block} {functions : FunctionTable} {options : Options}

/-- Where a declared function is in the module, no anonymous function failed. -/
theorem topLevel_ok_of_declared {entry : Entry}
    (hentry : entry ∈ (block.session functions options).registry.declared) :
    (Hoist.topLevel functions options block.stmts { session := .start }).1 = .ok () := by
  obtain ⟨-, -, houtcomes⟩ := block.session_outcomes functions options
  rw [hoist_eq] at houtcomes
  cases hrun : (Hoist.topLevel functions options block.stmts { session := .start }).1 with
  | ok _ => rfl
  | error e =>
    simp only [hrun] at houtcomes
    rw [houtcomes.2] at hentry
    cases hentry

/-- A declared function in the module was compiled from a declaration of its name. -/
theorem compiledFrom_of_declared (hfaithful : block.TextFaithful) {entry : Entry}
    (hentry : entry ∈ (block.session functions options).registry.declared) :
    ∃ d ∈ block.decls, d.name.name = entry.name ∧
      functions.get? d.name.name = some entry.signature ∧
        ∃ pool chunk, CompiledFrom functions (block.walk functions options).table.get?
          (block.session functions options).wrapper? pool entry.signature d.body chunk := by
  obtain ⟨hgrows, hnodup, -⟩ := block.session_outcomes functions options
  have hsound : (block.session functions options).Sound (block.sources functions options) :=
    (sound_session options hfaithful).1
  have hclosed := block.closed_session functions options
  obtain ⟨hmem, hdeclared⟩ := List.mem_filter.1 hentry
  have hget := Registry.get?_of_mem hnodup hmem
  -- Functions that the compiler made up are not declared.
  have hmade (h : (block.session functions options).registry.Made entry.signature) : False := by
    obtain ⟨chunk, hsynthetic⟩ := h
    have hflags : entry.isSynthetic = true :=
      (congrArg Entry.isSynthetic (Option.some.inj (hsynthetic.symm.trans hget))).symm
    simp [hflags] at hdeclared
  cases hcode : entry.code? with
  | none => exact nomatch hgrows.unfinished hget hcode
  | some chunk =>
    obtain ⟨body, hbody⟩ := hsound.sourced hget hcode
    cases hbody with
    | @decl d _ hd hs =>
      obtain ⟨_, chunk', -, hcompiled⟩ := hsound.compiled (.decl hd hs)
      exact ⟨d, compiled_subset options hd, (functions.name_of_get? hs).symm, hs, _, chunk', hcompiled⟩
    | lambda _ hs => exact (hmade (hclosed.lambdas hs)).elim
    | wrapper _ hs => exact (hmade (hclosed.wrappers hs)).elim

/-- At the start of a walk the next anonymous function can be met. -/
theorem ready_start : Walk.Ready block functions { session := .start } := by
  have hnames : Session.start.registry.names = [] := rfl
  refine ⟨⟨sound_start _ rfl LambdaTable.get?_empty, fun _ _ _ _ _ hs => ?_, fun hs => nomatch hs⟩,
    ⟨?_, ?_, ?_⟩, ?_⟩
  · rw [LambdaTable.get?_empty] at hs
    cases hs
  all_goals simp [hnames]

/-- After the anonymous functions there are only names that the compiler made up. -/
theorem isMadeUp_of_mem_walk
    (h : (Hoist.topLevel functions options block.stmts { session := .start }).1 = .ok ()) :
    ∀ name ∈ (block.walk functions options).session.registry.names, IsMadeUp name := by
  intro name hname
  have hhoist := block.hoist_eq functions options
  rw [h] at hhoist
  obtain ⟨hhoisted, -, -⟩ := hoisted_of_hoist hhoist
  rcases hhoisted.made name hname with ⟨id, rfl⟩ | ⟨text, s, hs, rfl⟩
  · exact isMadeUp_wrapperName id
  · obtain ⟨l, -, hl⟩ := hhoisted.first hs
    cases hplaceholder : l.body.isPlaceholder with
    | true =>
      rw [hl.identity hplaceholder]
      show "_lambda_".toList <+: identityName.toList
      decide
    | false =>
      obtain ⟨id, hid⟩ := hl.numbered hplaceholder
      rw [hid]
      exact isMadeUp_lambdaName id

/-! ## Another order -/

variable (hperm : block.stmts.Perm block'.stmts)

include hperm

theorem mem_exprs_of_perm {e : Expr} (he : e ∈ block'.exprs) : e ∈ block.exprs := by
  obtain ⟨s, hs, he⟩ := Stmt.mem_exprsAll.1 he
  exact Stmt.mem_exprsAll.2 ⟨s, hperm.mem_iff.2 hs, he⟩

theorem decls_perm : block.decls.Perm block'.decls :=
  hperm.filterMap _

theorem TextFaithful.perm (hfaithful : block.TextFaithful) : block'.TextFaithful :=
  fun e he e' he' => hfaithful e (mem_exprs_of_perm hperm he) e' (mem_exprs_of_perm hperm he')

variable (hfaithful : block.TextFaithful)
  (hhoist : (Hoist.topLevel functions options block.stmts { session := .start }).1 = .ok ())

include hfaithful hhoist

/-- If no anonymous function failed in one order, one that fails in another has an excuse. -/
theorem excused_walk_of_perm : Hoist.Excused options (Hoist.topLevel functions options block'.stmts)
    { session := .start } := by
  have hpasses : Hoist.Passes (Hoist.topLevel functions options block.stmts) :=
    ⟨{ session := .start }, _, Prod.ext hhoist rfl⟩
  have hprecedent : Precedent block' functions options (block.walk functions options).table.get?
      (block.session functions options).wrapper? :=
    (precedent options hfaithful hhoist).of_exprs fun _ => mem_exprs_of_perm hperm
  exact Hoist.excused_topLevel hprecedent block'.stmts (fun _ => id)
    (fun s hs => Hoist.passes_of_topLevel hpasses s (hperm.mem_iff.2 hs)) ready_start

/-- What is declared in one order is declared in another, or a wrapper is nested too deeply there. -/
theorem declares_or_wrapsTooDeep {d : Decl} (hd : d ∈ block.decls) {s : Signature}
    (hs : functions.get? d.name.name = some s) {pool : Pool} {chunk : Chunk}
    (hcode : CompiledFrom functions (block.walk functions options).table.get?
      (block.session functions options).wrapper? pool s d.body chunk)
    (hapart : (block.decls.map fun d => d.name.name).Nodup)
    (hgenuine : ∀ d ∈ block.decls, ¬IsMadeUp d.name.name) :
    (compileBlock functions options block').Declares d.name.name ∨
      (compileBlock functions options block').WrapsTooDeep options.maxDepth d.name.name := by
  have hexprs : ∀ e ∈ block'.exprs, e ∈ block.exprs := fun _ => mem_exprs_of_perm hperm
  have hfaithful' := hfaithful.perm hperm
  have hexcused := excused_walk_of_perm hperm hfaithful hhoist
  unfold Compilation.Declares Compilation.WrapsTooDeep
  rw [module_compileBlock, journal_compileBlock]
  rcases hrun : Hoist.topLevel functions options block'.stmts { session := .start } with ⟨e | _, w⟩
  · obtain ⟨hsession, herrors⟩ := session_of_error (congrArg Prod.fst hrun)
    have hexcuses := hexcused e w hrun
    have hw : block'.walk functions options = w := congrArg Prod.snd hrun
    rw [hsession, herrors, hw]
    refine .inr ⟨e, List.mem_singleton_self e, hexcuses.cause, ?_, .inr Array.mem_push_self⟩
    obtain ⟨id, hid⟩ := hexcuses.wrapper.resolve_left id
    exact ⟨id, Session.recalls_note w.session _ _ hid⟩
  · have hhoist' := congrArg Prod.fst hrun
    obtain ⟨hsession, herrors⟩ := session_of_ok hhoist'
    have hready : (block'.walk functions options).Ready block' functions := by
      have hkeeps : Hoist.LambdasKeep block' functions options (Walk.Readies block' functions) :=
        Hoist.lambda_ready hfaithful'
      exact Hoist.topLevel_keeps hkeeps block'.stmts (fun _ => id) _ ready_start
    have hfollows : CodeContext.Follows
        ⟨functions, options, (block'.walk functions options).table⟩ block'
        (block.walk functions options).table.get? (block.session functions options).wrapper? :=
      ⟨⟨hfaithful', hready.sound.lambdas⟩, (precedent options hfaithful hhoist).of_exprs hexprs⟩
    have hcovers : (block'.walk functions options).table.Covers block'.exprs :=
      covers_walk options (Prod.ext hhoist' rfl)
    have hdecls := decls_perm hperm
    have hawaits : (block'.walk functions options).session.Awaits block'.decls := by
      refine ⟨hready.fresh, fun d hd hmem => ?_, (hdecls.map _).nodup_iff.1 hapart, fun d hd => ?_⟩
      · exact hgenuine d (hdecls.mem_iff.2 hd) (isMadeUp_of_mem_walk hhoist' _ hmem)
      · exact hgenuine d (hdecls.mem_iff.2 hd)
    rw [hsession, herrors]
    refine (Session.excused_compileDecls hfollows hcovers hs hcode block'.decls
      (fun d hd => mem_exprs_of_mem_decls hd) (hawaits.note _) (hdecls.mem_iff.1 hd)).imp_right ?_
    rintro ⟨err, herr, hexcuses, hfailed⟩
    exact ⟨err, herr, hexcuses.cause, hexcuses.wrapper.resolve_left id, .inl hfailed⟩

end Block

/-- The order of declarations decides nothing about which of them compile, except through the limit of
nesting.

The block has texts by which its expressions are known, and no two declarations of one name or of a name
that the compiler makes up.  If a function that is declared in the module for one order is not in the one
for another order, then there the code of a wrapper was nested too deeply, and it is with this error that
the function, or an anonymous function of the block, failed. -/
theorem declares_of_perm {functions : FunctionTable} {options : Options} {block block' : Block}
    (hfaithful : block.TextFaithful) (hapart : (block.decls.map fun d => d.name.name).Nodup)
    (hgenuine : ∀ d ∈ block.decls, ¬IsMadeUp d.name.name) (hperm : block.stmts.Perm block'.stmts)
    (name : String) :
    ((compileBlock functions options block).Declares name →
      (compileBlock functions options block').Declares name ∨
        (compileBlock functions options block').WrapsTooDeep options.maxDepth name) ∧
    ((compileBlock functions options block').Declares name →
      (compileBlock functions options block).Declares name ∨
        (compileBlock functions options block).WrapsTooDeep options.maxDepth name) := by
  have hdirection {block block' : Block} (hfaithful : block.TextFaithful)
      (hapart : (block.decls.map fun d => d.name.name).Nodup)
      (hgenuine : ∀ d ∈ block.decls, ¬IsMadeUp d.name.name)
      (hperm : block.stmts.Perm block'.stmts) :
      (compileBlock functions options block).Declares name →
        (compileBlock functions options block').Declares name ∨
          (compileBlock functions options block').WrapsTooDeep options.maxDepth name := by
    rintro ⟨entry, hentry, rfl⟩
    rw [Block.module_compileBlock] at hentry
    have hhoist := Block.topLevel_ok_of_declared hentry
    obtain ⟨d, hd, hname, hs, _, _, hcode⟩ := Block.compiledFrom_of_declared hfaithful hentry
    rw [← hname]
    exact Block.declares_or_wrapsTooDeep hperm hfaithful hhoist hd hs hcode hapart hgenuine
  have hdecls := Block.decls_perm hperm
  refine ⟨hdirection hfaithful hapart hgenuine hperm, ?_⟩
  exact hdirection (hfaithful.perm hperm) ((hdecls.map _).nodup_iff.1 hapart)
    (fun d hd => hgenuine d (hdecls.mem_iff.2 hd)) hperm.symm

/-- The call `apply(5)`, which wraps its argument. -/
def wrappingCall : Expr :=
  .call ⟨"apply", default⟩ [.literal (.int 5) "5" default] "apply(5)" default

/-- A function that returns `apply(5)`. -/
def shallowDecl : Stmt := .decl ⟨"f", default⟩ [.ret wrappingCall default] default

/-- A function that returns `k(apply(5))`, where the constant lies one level deeper. -/
def deepDecl : Stmt :=
  .decl ⟨"g", default⟩ [.ret (.call ⟨"k", default⟩ [wrappingCall] "k(apply(5))" default) default] default

/-- The functions that `shallowDecl` and `deepDecl` refer to. -/
def wrappingFunctions : FunctionTable :=
  .ofList [⟨"f", [], .int, "Main", false⟩, ⟨"g", [], .int, "Main", false⟩,
    ⟨"apply", [⟨"a", .fn [.real] .int⟩], .int, "Main", false⟩, ⟨"k", [⟨"a", .int⟩], .int, "Main", false⟩]

theorem textFaithful_wrapping : Block.TextFaithful ⟨[shallowDecl, deepDecl]⟩ := by
  intro e he e' he' htext
  simp only [shallowDecl, deepDecl, wrappingCall, Block.exprs, Stmt.exprsAll, Stmt.exprs, Expr.subexprs,
    Expr.subexprsAll, List.append_nil, List.cons_append, List.nil_append, List.mem_cons,
    List.not_mem_nil, or_false] at he he'
  rcases he with rfl | rfl | rfl | rfl | rfl <;> rcases he' with rfl | rfl | rfl | rfl | rfl <;>
    first | rfl | simp [Expr.text] at htext

/-- After the other function the constant is wrapped already. -/
theorem declares_after_wrapping :
    (compileBlock wrappingFunctions { maxDepth := 2 } ⟨[shallowDecl, deepDecl]⟩).Declares "g" := by
  decide +kernel

/-- Before the other function the constant has yet to be wrapped, two levels down. -/
theorem not_declares_before_wrapping :
    ¬(compileBlock wrappingFunctions { maxDepth := 2 } ⟨[deepDecl, shallowDecl]⟩).Declares "g" := by
  decide +kernel

/-- With two levels of nesting the deeper function compiles after the other one, but not before it. -/
theorem order_matters_wrapping :
    ¬∀ (functions : FunctionTable) (options : Options) (block block' : Block), block.TextFaithful →
      (block.decls.map fun d => d.name.name).Nodup → (∀ d ∈ block.decls, ¬IsMadeUp d.name.name) →
        block.stmts.Perm block'.stmts → ∀ name,
          ((compileBlock functions options block).Declares name ↔
            (compileBlock functions options block').Declares name) := by
  intro h
  have hsame := h wrappingFunctions { maxDepth := 2 } ⟨[shallowDecl, deepDecl]⟩ ⟨[deepDecl, shallowDecl]⟩
    textFaithful_wrapping (by decide) (by simp [Block.decls, shallowDecl, deepDecl, IsMadeUp])
    (.swap _ _ _) "g"
  exact not_declares_before_wrapping (hsame.1 declares_after_wrapping)

theorem declares_of_perm_wrapping :
    (compileBlock wrappingFunctions { maxDepth := 2 } ⟨[shallowDecl, deepDecl]⟩).Declares "g" ∧
      (compileBlock wrappingFunctions { maxDepth := 2 } ⟨[deepDecl, shallowDecl]⟩).WrapsTooDeep 2 "g" := by
  refine ⟨declares_after_wrapping, Or.resolve_left ?_ not_declares_before_wrapping⟩
  exact (declares_of_perm textFaithful_wrapping (by decide)
    (by simp [Block.decls, shallowDecl, deepDecl, IsMadeUp]) (.swap _ _ _) "g").1 declares_after_wrapping

end BlockCompiler
