import BlockCompiler.Proofs.Generation

/-!
# Where the code of a module comes from

A module holds functions that the block declares, functions made for its anonymous functions, and
functions made for its constants.  `ComesFrom` says which body each of them was compiled from.

* `Session.Sound` is the invariant of a compilation.  Every function with code comes from some body,
  and whatever comes from a body is registered with the code of that body.
* `Session.Sound.intern`, `Session.Sound.declare`, `Session.Sound.abandon` and `Session.Sound.define`
  are the steps.  Only the last makes new code, and at once there is a new source for it.
* `Gen.stable_sound` carries the invariant through expressions, and so through whole bodies.
-/

namespace BlockCompiler

/-- What the functions of a session may come from. -/
structure Sources where
  block : Block
  functions : FunctionTable
  /-- The functions made for anonymous functions, by their texts. -/
  lambdas : String → Option Signature
  /-- The declared functions that were compiled. -/
  done : List Decl

/-- `src'` is `src` with more functions. -/
structure Sources.GrowsTo (src src' : Sources) : Prop where
  block : src'.block = src.block
  functions : src'.functions = src.functions
  lambdas : ∀ {text s}, src.lambdas text = some s → src'.lambdas text = some s
  done : src.done ⊆ src'.done

/-- A function with this signature was compiled from this body. -/
inductive ComesFrom (src : Sources) (wrappers : String → Option Signature) :
    Signature → List Stmt → Prop where
  | decl {d : Decl} {s : Signature} (hd : d ∈ src.done)
    (hs : src.functions.get? d.name.name = some s) : ComesFrom src wrappers s d.body
  | lambda {body : Expr} {text : String} {span : Span} {s : Signature}
    (he : Expr.lambda body text span ∈ src.block.exprs) (hs : src.lambdas text = some s) :
    ComesFrom src wrappers s [.ret body body.span]
  | wrapper {e : Expr} {t : Ty} {s : Signature} (he : e ∈ src.block.exprs)
    (hs : wrappers (Gen.wrapperKey t e.text) = some s) :
    ComesFrom src wrappers s [.ret e e.span]

theorem ComesFrom.mono {src src' : Sources} {r r' : String → Option Signature} {s : Signature}
    {body : List Stmt} (h : ComesFrom src r s body) (hsrc : src.GrowsTo src')
    (hr : ∀ {key s}, r key = some s → r' key = some s) : ComesFrom src' r' s body := by
  cases h with
  | decl hd hs =>
    rw [← hsrc.functions] at hs
    exact .decl (hsrc.done hd) hs
  | lambda he hs =>
    rw [← hsrc.block] at he
    exact .lambda he (hsrc.lambdas hs)
  | wrapper he hs =>
    rw [← hsrc.block] at he
    exact .wrapper he (hr hs)

/-- Code of a returned expression is code of an equal one. -/
theorem CompiledFrom.of_eraseSpans_eq {functions : FunctionTable}
    {l r : String → Option Signature} {p : Pool} {s : Signature} {e e' : Expr} {span : Span}
    {chunk : Chunk} (heq : e.eraseSpans = e'.eraseSpans)
    (h : CompiledFrom functions l r p s [.ret e span] chunk) (span' : Span) :
    CompiledFrom functions l r p s [.ret e' span'] chunk := by
  obtain ⟨ms, hms, hinterned, hcode⟩ := h.code
  refine ⟨h.names, h.arity, ms, ?_, hinterned, hcode⟩
  cases hms with
  | ret _ he ht => exact .ret span' (he.of_eraseSpans_eq heq) ht

/-! ## The invariant -/

/-- Functions with code and bodies that they come from belong together. -/
structure Session.Sound (src : Sources) (S : Session) : Prop where
  filed : ∀ e ∈ S.registry.entries, S.registry.get? e.name = some e
  sourced : ∀ {name e chunk}, S.registry.get? name = some e → e.code? = some chunk →
    ∃ body, ComesFrom src S.wrapper? e.signature body
  compiled : ∀ {s body}, ComesFrom src S.wrapper? s body →
    ∃ flags chunk, S.registry.get? s.name = some (.ofSignature s flags (some chunk)) ∧
      CompiledFrom src.functions src.lambdas S.wrapper? S.pool s body chunk
  reals : ∀ {i x}, S.pool.get? i = some (.real x) → src.block.WritesReal x
  wrappers : ∀ {t text s}, S.wrapper? (Gen.wrapperKey t text) = some s → s.toTy = t

namespace Session

variable {src src' : Sources} {S S' : Session} {s : Signature}

/-- Only functions with code matter. -/
theorem Sound.of_same_code (h : S.Sound src) (hpool : S'.pool = S.pool)
    (hwrappers : S'.wrappers = S.wrappers)
    (hfiled : ∀ e ∈ S'.registry.entries, S'.registry.get? e.name = some e)
    (hcode : ∀ {name : String} {e : Entry} {chunk : Chunk}, e.code? = some chunk →
      (S'.registry.get? name = some e ↔ S.registry.get? name = some e)) : S'.Sound src := by
  have hw : S'.wrapper? = S.wrapper? := by
    funext key
    rw [wrapper?, wrapper?, hwrappers]
  refine ⟨hfiled, fun hget hc => ?_, fun hs => ?_, fun hget => ?_, fun hkey => ?_⟩
  · rw [hw]
    exact h.sourced ((hcode hc).1 hget) hc
  · rw [hw] at hs
    obtain ⟨flags, chunk, hget, hcompiled⟩ := h.compiled hs
    refine ⟨flags, chunk, (hcode rfl).2 hget, ?_⟩
    rwa [hw, hpool]
  · rw [hpool] at hget
    exact h.reals hget
  · rw [hw] at hkey
    exact h.wrappers hkey

/-- Neither the journal nor the counter matters. -/
theorem Sound.of_eq (h : S.Sound src) (hpool : S'.pool = S.pool)
    (hregistry : S'.registry = S.registry) (hwrappers : S'.wrappers = S.wrappers) :
    S'.Sound src := by
  refine h.of_same_code hpool hwrappers ?_ fun _ => ?_
  · rw [hregistry]
    exact h.filed
  · rw [hregistry]

theorem Sound.intern (h : S.Sound src) {c : Constant} (hc : src.block.Interns c) :
    Sound src { S with pool := (S.pool.add c).1 } := by
  refine ⟨h.filed, h.sourced, fun hs => ?_, fun {i x} hget => ?_, h.wrappers⟩
  · obtain ⟨flags, chunk, hget, hcompiled⟩ := h.compiled hs
    exact ⟨flags, chunk, hget, hcompiled.mono id id (Pool.growsTo_add _ _)⟩
  · dsimp only at hget
    cases hfind : S.pool.find? c with
    | some j =>
      rw [Pool.add_of_find? hfind] at hget
      exact h.reals hget
    | none =>
      rw [Pool.add_of_not_find? hfind] at hget
      simp only [Pool.get?_push] at hget
      split at hget
      · exact hc x (Option.some.inj hget)
      · exact h.reals hget

theorem Sound.declare (h : S.Sound src) {flags : EntryFlags} {span : Span} {r : Registry}
    (hdecl : S.registry.declare s flags span = .ok r) : Sound src { S with registry := r } := by
  have hfresh := Registry.get?_of_declare_self hdecl
  refine h.of_same_code rfl rfl (fun e he => ?_) fun {name e chunk} hc => ?_
  · show r.get? e.name = some e
    rw [Registry.get?_of_declare hdecl]
    obtain ⟨-, rfl⟩ := Registry.declare_eq_ok hdecl
    rcases List.mem_append.1 he with he | he
    · have hget := h.filed e he
      rw [if_neg ?_, hget]
      intro hname
      rw [hname, hget] at hfresh
      cases hfresh
    · obtain rfl := List.mem_singleton.1 he
      exact if_pos rfl
  · show r.get? name = some e ↔ _
    rw [Registry.get?_of_declare hdecl]
    split
    next hname =>
      rw [← hname, hfresh]
      constructor
      · intro he
        rw [← Option.some.inj he] at hc
        cases hc
      · intro he
        cases he
    next => rfl

theorem Sound.abandon (h : S.Sound src) {flags : EntryFlags}
    (hpending : S.registry.get? s.name = some (.ofSignature s flags)) :
    Sound src { S with registry := S.registry.abandon s.name } := by
  have hnone := Registry.get?_abandon_self hpending rfl
  refine h.of_same_code rfl rfl (fun e he => ?_) fun {name e chunk} hc => ?_
  · have hmem : e ∈ S.registry.entries ∧ e.name ≠ s.name := by
      simpa [Registry.abandon_of_get? hpending rfl] using he
    show (S.registry.abandon s.name).get? e.name = some e
    rw [Registry.get?_abandon_of_ne _ hmem.2]
    exact h.filed e hmem.1
  · show (S.registry.abandon s.name).get? name = some e ↔ _
    by_cases hname : name = s.name
    · subst hname
      rw [hnone, hpending]
      constructor
      · intro he
        cases he
      · intro he
        rw [← Option.some.inj he] at hc
        cases hc
    · rw [Registry.get?_abandon_of_ne _ hname]

/-- A function gets its code, and at once there are bodies that it comes from. -/
theorem Sound.define (h : S.Sound src) {flags : EntryFlags} {chunk : Chunk} {span : Span}
    (hpending : S.registry.get? s.name = some (.ofSignature s flags))
    (hdef : S.registry.define s.name chunk span = .ok S'.registry) (hpool : S'.pool = S.pool)
    (hwrappers : ∀ {key s}, S.wrapper? key = some s → S'.wrapper? key = some s)
    (htypes : ∀ {t text s}, S'.wrapper? (Gen.wrapperKey t text) = some s → s.toTy = t)
    (hsrc : src.GrowsTo src') (hsource : ∃ body, ComesFrom src' S'.wrapper? s body)
    (hnew : ∀ {s' body}, ComesFrom src' S'.wrapper? s' body →
      ComesFrom src S.wrapper? s' body ∨
        s' = s ∧ CompiledFrom src.functions src.lambdas S.wrapper? S.pool s body chunk) :
    S'.Sound src' := by
  have hget (name : String) := Registry.get?_define hdef name
  refine ⟨fun e he => ?_, fun {name e code} he hc => ?_, fun {s' body} hs => ?_, fun hi => ?_,
    htypes⟩
  · rw [Registry.define_eq_ok hdef, List.mem_map] at he
    obtain ⟨e₀, he₀, rfl⟩ := he
    rw [hget, Registry.attach_name, h.filed e₀ he₀, Option.map_some]
  · rw [hget, Option.map_eq_some_iff] at he
    obtain ⟨e₀, he₀, rfl⟩ := he
    by_cases hname : e₀.name = s.name
    · rw [← Registry.name_of_get? he₀, hname, hpending] at he₀
      rw [← Option.some.inj he₀, Registry.attach_ofSignature]
      exact hsource
    · rw [Registry.attach_of_ne hname] at hc ⊢
      obtain ⟨body, hbody⟩ := h.sourced he₀ hc
      exact ⟨body, hbody.mono hsrc hwrappers⟩
  · rw [hget, hsrc.functions, hpool]
    rcases hnew hs with hold | ⟨rfl, hcompiled⟩
    · obtain ⟨flags', chunk', hfound, hcompiled⟩ := h.compiled hold
      have hne : (Entry.ofSignature s' flags' (some chunk')).name ≠ s.name := by
        intro hname
        rw [show s'.name = s.name from hname, hpending] at hfound
        cases hfound
      refine ⟨flags', chunk', ?_, hcompiled.mono hsrc.lambdas hwrappers (.refl _)⟩
      rw [hfound, Option.map_some, Registry.attach_of_ne hne]
    · refine ⟨flags, chunk, ?_, hcompiled.mono hsrc.lambdas hwrappers (.refl _)⟩
      rw [hpending, Option.map_some, Registry.attach_ofSignature]
  · rw [hpool] at hi
    rw [hsrc.block]
    exact h.reals hi

/-! ## Compiling a function -/

/-- From `S` on the registry grew, and the invariant was kept. -/
def Preserves (src : Sources) (S S' : Session) : Prop :=
  S.registry.GrowsTo S'.registry ∧ (S.Sound src → S'.Sound src)

instance : IsPreorder Session (Preserves src) where
  refl _ := ⟨.refl _, id⟩
  trans _ _ _ h h' := ⟨h.1.trans h'.1, h'.2 ∘ h.2⟩

section CompileWith

variable {flags : EntryFlags} {site : Span} {depth : Nat} {body : Gen Unit}
  (h : S.Sound src) (hbody : Gen.KeepsSession (Preserves src) body)

include h hbody

/-- A function that fails leaves the invariant as it was. -/
theorem Sound.compileWith_error {e : CompileError}
    (hrun : compileWith s flags site depth body S = (.error e, S')) :
    S.registry.GrowsTo S'.registry ∧ S'.Sound src := by
  cases functionRun (fun w => (hbody w).1) hrun with
  | taken hdecl => exact ⟨.refl _, h⟩
  | @failed r _ _ hdecl heq hgrows =>
    have hkeeps := hbody.of_run heq
    have hdeclared : Sound src ({ S with registry := r }.note (.declared s)) :=
      (h.declare hdecl).of_eq rfl rfl rfl
    have hpending := Registry.get?_declared hdecl hgrows
    exact ⟨Registry.growsTo_abandon hdecl hgrows,
      ((hkeeps.2 hdeclared).abandon hpending).of_eq rfl rfl rfl⟩

/-- A function that is compiled was pending while its body was, and then got its code. -/
theorem Sound.compileWith_ok
    (hrun : compileWith s flags site depth body S = (.ok (), S')) :
    S.registry.GrowsTo S'.registry ∧
      ∃ S₁ w, body ⟨S₁, .start s site depth⟩ = (.ok (), w) ∧ w.session.Sound src ∧
      w.session.registry.get? s.name = some (.ofSignature s flags) ∧
      w.session.registry.define s.name (w.frame.emitter.finish w.frame.scope.maxLocals) site =
        .ok S'.registry ∧
      S'.pool = w.session.pool ∧ S'.wrappers = w.session.wrappers := by
  cases functionRun (fun w => (hbody w).1) hrun with
  | @finished r r' w hdecl heq hgrows hdef =>
    have hkeeps := hbody.of_run heq
    have hdeclared : Sound src ({ S with registry := r }.note (.declared s)) :=
      (h.declare hdecl).of_eq rfl rfl rfl
    exact ⟨Registry.growsTo_define hdecl hgrows hdef, _, w, heq, hkeeps.2 hdeclared,
      Registry.get?_declared hdecl hgrows, hdef, rfl, rfl⟩

end CompileWith

end Session

/-! ## Expressions -/

/-- What a context lets the functions of a session come from. -/
def CodeContext.sources (ctx : CodeContext) (block : Block) (done : List Decl) : Sources :=
  ⟨block, ctx.functions, ctx.lambdas.get?, done⟩

namespace Gen

variable {ctx : CodeContext} {block : Block} {done : List Decl}

/-- A session evolves and stays sound. -/
def Advances (src : Sources) (n : Nat) (S S' : Session) : Prop :=
  S.Evolves src.block n S' ∧ (S.Sound src → S'.Sound src)

theorem Advances.preserves {src : Sources} {n : Nat} {S S' : Session} (h : Advances src n S S') :
    S.Preserves src S' :=
  ⟨h.1.registry, h.2⟩

theorem sound_bindFunction {src : Sources} {S : Session} {fr : Frame} {s : Signature}
    {w' : Workbench} {r : Except CompileError Unit} (h : S.Sound src)
    (hrun : bindFunction s ⟨S, fr⟩ = (r, w')) : w'.session.Sound src := by
  cases hrun
  exact h.intern fun x hx => nomatch hx

theorem toTy_wrapperSignature (id : Nat) (params : List Ty) (result : Ty) (owner : String) :
    (wrapperSignature id params result owner).toTy = .fn params result := by
  have hparams : (wrapperSignature id params result owner).paramTypes = params := by
    apply List.ext_getElem
    · simp [Signature.paramTypes, wrapperSignature]
    · intro i h h'
      simp [Signature.paramTypes, wrapperSignature]
  rw [Signature.toTy, hparams]
  rfl

/-- An expression whose wrapper gets its code and is remembered is from now on a source of it. -/
theorem sound_rememberWrapper {src : Sources} (hfaithful : src.block.TextFaithful) {e : Expr}
    (he : e ∈ src.block.exprs) {S S' : Session} (h : S.Sound src) {s : Signature}
    {flags : EntryFlags} {chunk : Chunk} {span : Span}
    (hpending : S.registry.get? s.name = some (.ofSignature s flags))
    (hdef : S.registry.define s.name chunk span = .ok S'.registry) (hpool : S'.pool = S.pool)
    (hwrappers : S'.wrapper? = S.wrapper?)
    (hfresh : S.wrapper? (wrapperKey s.toTy e.text) = none)
    (hcompiled : CompiledFrom src.functions src.lambdas S.wrapper? S.pool s [.ret e e.span]
      chunk) :
    (S'.rememberWrapper (wrapperKey s.toTy e.text) s).Sound src := by
  have hlookup (key : String) :
      (S'.rememberWrapper (wrapperKey s.toTy e.text) s).wrapper? key =
        if wrapperKey s.toTy e.text = key then some s else S.wrapper? key := by
    rw [Session.wrapper?_rememberWrapper, hwrappers]
  have hsource : ComesFrom src (S'.rememberWrapper (wrapperKey s.toTy e.text) s).wrapper? s
      [.ret e e.span] :=
    .wrapper (t := s.toTy) he (by rw [hlookup, if_pos rfl])
  refine h.define hpending hdef hpool ?_ ?_ ⟨rfl, rfl, id, fun _ => id⟩ ⟨_, hsource⟩ ?_
  · intro key s' hs'
    rw [hlookup, if_neg, hs']
    rintro rfl
    rw [hfresh] at hs'
    cases hs'
  · intro t text s' hs'
    rw [hlookup] at hs'
    split at hs'
    next hkey => rw [← Option.some.inj hs', (wrapperKey_inj hkey).1]
    next => exact h.wrappers hs'
  · intro s' body hs'
    cases hs' with
    | decl hd hs' => exact .inl (.decl hd hs')
    | lambda he' hs' => exact .inl (.lambda he' hs')
    | wrapper he' hs' =>
      rw [hlookup] at hs'
      split at hs'
      next hkey =>
        have heq := hfaithful e he _ he' (wrapperKey_inj hkey).2
        exact .inr ⟨(Option.some.inj hs').symm, hcompiled.of_eraseSpans_eq heq _⟩
      next => exact .inl (.wrapper he' hs')

/-- Promotion keeps the invariant, however it ends. -/
theorem sound_promote (hctx : ctx.Fits block) {e : Expr} (he : e ∈ block.exprs)
    (hvalue : KeepsSession (Advances (ctx.sources block done) e.height) (value ctx e))
    {params : List Ty} {result : Ty} {w w' : Workbench} {r : Except CompileError Unit}
    (h : w.session.Sound (ctx.sources block done))
    (hrun : promote ctx e params result (value ctx e) w = (r, w')) :
    w'.session.Sound (ctx.sources block done) := by
  have hbody : KeepsSession (Session.Preserves (ctx.sources block done))
      (returnBody ctx e.text e.span (value ctx e)) :=
    KeepsSession.returnBody fun w => (hvalue w).preserves
  have hcounted : Session.Sound (ctx.sources block done)
      { w.session with nextId := w.session.nextId + 1 } := h.of_eq rfl rfl rfl
  cases promotion hrun with
  | @reused s _ _ _ hbind =>
    have hnote : Session.Sound (ctx.sources block done)
        (w.session.note (.constantReused s.name e.text)) := h.of_eq rfl rfl rfl
    exact sound_bindFunction hnote hbind
  | refused => exact h
  | failed _ _ _ hcompiled => exact (hcounted.compileWith_error hbody hcompiled).2
  | @wrapped s S _ _ hnone _ hs hcompiled hbind =>
    have hty : s.toTy = .fn params result := by
      rw [← hs]
      exact toTy_wrapperSignature _ _ _ _
    have hfresh := wrapper?_eq_none_of_compileWith hctx.faithful he (fun w => (hvalue w).1) hnone
      hcompiled
    obtain ⟨-, S₁, w₁, hrun₁, hsound, hpending, hdef, hpool, hwrappers⟩ :=
      hcounted.compileWith_ok hbody hcompiled
    have hw : S.wrapper? = w₁.session.wrapper? := by
      funext key
      rw [Session.wrapper?, Session.wrapper?, hwrappers]
    have hcode := returnBody_compiled hctx he hrun₁
    rw [← hty] at hfresh hbind
    rw [hw] at hfresh
    refine sound_bindFunction ?_ hbind
    exact sound_rememberWrapper hctx.faithful he hsound hpending hdef hpool hw hfresh
      ⟨hcode.names, hcode.arity, hcode.code⟩

/-- The invariant is kept while the expressions of a block are compiled. -/
theorem stable_sound (hctx : ctx.Fits block) (done : List Decl) :
    Stable ctx block (Advances (ctx.sources block done)) where
  preorder n :=
    { refl := fun S => ⟨.refl _ _ S, id⟩
      trans := fun _ _ _ h h' => ⟨h.1.trans h'.1, h'.2 ∘ h.2⟩ }
  mono hmn h := ⟨h.1.mono hmn, h.2⟩
  intern c hc S := ⟨Session.evolves_intern S c, fun h => h.intern hc.block_interns⟩
  promote e he hvalue _ params result ht w := by
    have hevolves := (stable_evolves ctx hctx.faithful).promote e he (fun w => (hvalue w).1)
      params ht w
    exact ⟨hevolves, fun h => sound_promote hctx he hvalue h rfl⟩

end Gen

end BlockCompiler
