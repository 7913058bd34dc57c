import Mathlib.Data.List.Nodup
import BlockCompiler.Proofs.WholeBlock

/-!
# Every declaration is accounted for

A compilation goes on when a declared function fails, and while one function is compiled others are
made up.  This file says that nothing gets lost on the way: each declaration of a block leaves one
error or one entry, in the order of the block, and a finished module has no two entries of one name
and none without code.

* `Registry.MakesUp` says what the code of a body may do to the registry: entries of the compiler's
  own come and go, and the declared ones stay as they are.
* `Registry.declared_define` and `Registry.declared_abandon` are the two ends of a registration around
  such a body, and `Session.compileWith_declared` is the step made of them.
* `Session.compileDecls_outcomes` is the run through the declarations.

None of this depends on the texts of expressions.
-/

namespace BlockCompiler

/-! ## The list of entries -/

namespace Registry

/-- The names of the entries, in order. -/
def names (r : Registry) : List String := r.entries.map Entry.name

/-- The entries of declared functions, in order: those that the compiler did not make up. -/
def declared (r : Registry) : List Entry := r.entries.filter fun e => !e.isSynthetic

/-- Where names are unique, an entry is found under its name. -/
theorem get?_of_mem {r : Registry} (h : r.names.Nodup) {e : Entry} (he : e ∈ r.entries) :
    r.get? e.name = some e := by
  obtain ⟨es⟩ := r
  simp only [names, get?] at h he ⊢
  induction es with
  | nil => cases he
  | cons e' es ih =>
    rw [List.map_cons, List.nodup_cons] at h
    rcases List.mem_cons.1 he with rfl | he
    · simp
    · have hne : e'.name ≠ e.name := fun heq => h.1 (heq ▸ List.mem_map_of_mem he)
      rw [List.find?_cons_of_neg (by simpa using hne)]
      exact ih h.2 he

theorem not_mem_names_of_get? {r : Registry} {name : String} (h : r.get? name = none) :
    name ∉ r.names := by
  intro hmem
  obtain ⟨e, he, hname⟩ := List.mem_map.1 hmem
  have := List.find?_eq_none.1 h e he
  simp [hname] at this

theorem isSynthetic_attach (name : String) (code : Chunk) (e : Entry) :
    (attach name code e).isSynthetic = e.isSynthetic := by
  unfold attach
  split <;> rfl

/-- From `r` to `r'` the compiler made up entries of its own, and the declared ones are as before. -/
structure MakesUp (r r' : Registry) : Prop where
  grows : r.GrowsTo r'
  declared : r'.declared = r.declared
  nodup : r.names.Nodup → r'.names.Nodup

theorem MakesUp.refl (r : Registry) : r.MakesUp r := ⟨.refl r, rfl, id⟩

theorem MakesUp.trans {r r' r'' : Registry} (h : r.MakesUp r') (h' : r'.MakesUp r'') :
    r.MakesUp r'' :=
  ⟨h.grows.trans h'.grows, h'.declared.trans h.declared, h'.nodup ∘ h.nodup⟩

section Registration

variable {r r₁ r₂ : Registry} {s : Signature} {flags : EntryFlags} {span : Span}
  (hdecl : r.declare s flags span = .ok r₁) (hmakes : r₁.MakesUp r₂)

include hdecl

/-- A new entry comes last. -/
theorem declared_declare :
    r₁.declared = r.declared ++ if flags.isSynthetic then [] else [.ofSignature s flags] := by
  obtain ⟨-, rfl⟩ := declare_eq_ok hdecl
  rw [declared, List.filter_append]
  cases hflag : flags.isSynthetic <;> simp [declared, Entry.isSynthetic, hflag]

theorem name_ne_of_mem_declared {e : Entry} (he : e ∈ r.declared) : e.name ≠ s.name := by
  have hfree := not_mem_names_of_get? (get?_of_declare_self hdecl)
  exact fun hname => hfree (hname ▸ List.mem_map_of_mem (List.mem_filter.1 he).1)

theorem nodup_declare (h : r.names.Nodup) : r₁.names.Nodup := by
  have hfree := not_mem_names_of_get? (get?_of_declare_self hdecl)
  obtain ⟨-, rfl⟩ := declare_eq_ok hdecl
  rw [names, List.map_append, List.nodup_append]
  refine ⟨h, List.nodup_singleton _, fun name hname name' hname' => ?_⟩
  obtain rfl := List.mem_singleton.1 hname'
  rintro rfl
  exact hfree hname

include hmakes

/-- An entry that was registered and got its code comes last among the declared ones, if it is one. -/
theorem declared_define {r₃ : Registry} {code : Chunk} {span' : Span}
    (hdef : r₂.define s.name code span' = .ok r₃) :
    r₃.declared = r.declared ++ if flags.isSynthetic then [] else [.ofSignature s flags (some code)] := by
  have hattach : r₃.declared = r₂.declared.map (attach s.name code) := by
    have hflags : ((fun e : Entry => !e.isSynthetic) ∘ attach s.name code) =
        fun e => !e.isSynthetic := by
      funext e
      simp [isSynthetic_attach]
    rw [define_eq_ok hdef, declared, List.filter_map, hflags]
    rfl
  have hold : r.declared.map (attach s.name code) = r.declared := by
    refine (List.map_congr_left fun e he => ?_).trans (List.map_id _)
    exact attach_of_ne (name_ne_of_mem_declared hdecl he)
  rw [hattach, hmakes.declared, declared_declare hdecl, List.map_append, hold]
  cases flags.isSynthetic <;> simp

/-- An entry that was registered and taken back leaves no trace. -/
theorem declared_abandon : (r₂.abandon s.name).declared = r.declared := by
  have hpending := get?_declared hdecl hmakes.grows
  have hfilter : (r₂.abandon s.name).declared = r₂.declared.filter (·.name ≠ s.name) := by
    simp only [abandon_of_get? hpending rfl, declared, List.filter_filter, Bool.and_comm]
  have hold : r.declared.filter (·.name ≠ s.name) = r.declared := by
    refine List.filter_eq_self.2 fun e he => ?_
    simpa using name_ne_of_mem_declared hdecl he
  rw [hfilter, hmakes.declared, declared_declare hdecl, List.filter_append, hold]
  cases flags.isSynthetic <;> simp [Entry.name]

theorem nodup_define {r₃ : Registry} {code : Chunk} {span' : Span}
    (hdef : r₂.define s.name code span' = .ok r₃) (h : r.names.Nodup) : r₃.names.Nodup := by
  have hnames : r₃.names = r₂.names := by
    rw [define_eq_ok hdef, names, names, List.map_map]
    exact List.map_congr_left fun e _ => attach_name _ _ e
  rw [hnames]
  exact hmakes.nodup (nodup_declare hdecl h)

theorem nodup_abandon (h : r.names.Nodup) : (r₂.abandon s.name).names.Nodup := by
  rw [abandon_of_get? (get?_declared hdecl hmakes.grows) rfl]
  exact (hmakes.nodup (nodup_declare hdecl h)).sublist (List.filter_sublist.map _)

end Registration

end Registry

/-! ## Functions -/

namespace Session

/-- From `S` to `S'` the compiler made up entries of its own only. -/
def MakesUp (S S' : Session) : Prop := S.registry.MakesUp S'.registry

instance : IsPreorder Session MakesUp where
  refl S := .refl S.registry
  trans _ _ _ := .trans

section CompileWith

variable {s : Signature} {flags : EntryFlags} {site : Span} {depth : Nat} {body : Gen Unit}
  {S S' : Session} (hbody : Gen.KeepsSession MakesUp body)

include hbody

/-- A function that is compiled becomes the last declared entry, unless the compiler made it up; one
that fails leaves the declared entries as they were. -/
theorem compileWith_declared {r : Except CompileError Unit}
    (hrun : compileWith s flags site depth body S = (r, S')) :
    S.registry.GrowsTo S'.registry ∧ (S.registry.names.Nodup → S'.registry.names.Nodup) ∧
      ((∃ e, r = .error e ∧ S'.registry.declared = S.registry.declared) ∨
        r = .ok () ∧ ∃ chunk, S'.registry.declared = S.registry.declared ++
          if flags.isSynthetic then [] else [.ofSignature s flags (some chunk)]) := by
  cases functionRun (fun w => (hbody w).grows) hrun with
  | taken hdecl => exact ⟨.refl _, id, .inl ⟨_, rfl, rfl⟩⟩
  | failed hdecl heq hgrows =>
    have hmakes := hbody.of_run heq
    exact ⟨Registry.growsTo_abandon hdecl hgrows, Registry.nodup_abandon hdecl hmakes,
      .inl ⟨_, rfl, Registry.declared_abandon hdecl hmakes⟩⟩
  | finished hdecl heq hgrows hdef =>
    have hmakes := hbody.of_run heq
    exact ⟨Registry.growsTo_define hdecl hgrows hdef, Registry.nodup_define hdecl hmakes hdef,
      .inr ⟨rfl, _, Registry.declared_define hdecl hmakes hdef⟩⟩

/-- A function of the compiler's own. -/
theorem makesUp_compileWith :
    Attempt.Keeps MakesUp (compileWith s .synthetic site depth body) := by
  intro S
  rcases hrun : compileWith s .synthetic site depth body S with ⟨r, S'⟩
  obtain ⟨hgrows, hnodup, ⟨e, -, hdeclared⟩ | ⟨-, chunk, hdeclared⟩⟩ :=
    compileWith_declared hbody hrun
  · exact ⟨hgrows, hdeclared, hnodup⟩
  · exact ⟨hgrows, by simpa [EntryFlags.synthetic] using hdeclared, hnodup⟩

end CompileWith

end Session

namespace Gen

/-- Code for expressions makes up entries only. -/
theorem stable_makesUp (ctx : CodeContext) (block : Block) :
    Stable ctx block fun _ => Session.MakesUp where
  preorder _ := inferInstance
  mono _ h := h
  intern _ _ S := .refl S.registry
  promote e _ hvalue _ params result _ w := by
    have hcompile (s : Signature) (depth : Nat) : Attempt.Keeps Session.MakesUp
        (Session.compileWith s .synthetic e.span depth
          (returnBody ctx e.text e.span (value ctx e))) :=
      Session.makesUp_compileWith hvalue.returnBody
    rcases hrun : promote ctx e params result (value ctx e) w with ⟨r, w'⟩
    cases promotion hrun with
    | reused hs hbind =>
      cases hbind
      exact .refl _
    | refused => exact .refl _
    | failed _ _ _ hcompiled =>
      have hmakes := (hcompile _ _).of_run hcompiled
      exact hmakes
    | wrapped _ _ _ hcompiled hbind =>
      cases hbind
      have hmakes := (hcompile _ _).of_run hcompiled
      exact hmakes

end Gen

/-! ## Anonymous functions -/

namespace Hoist

/-- Meeting an anonymous function makes up entries only. -/
theorem makesUp_lambda {block : Block} {functions : FunctionTable} {options : Options} {body : Expr}
    {text : String} {span : Span} (he : Expr.lambda body text span ∈ block.exprs) :
    Attempt.Keeps (InvImage Session.MakesUp Walk.session)
      (lambda functions options body text span) := by
  intro w
  have hvalue := (Gen.stable_makesUp ⟨functions, options, w.table⟩ block).value
    (Block.body_mem_exprs he)
  have hcompile (s : Signature) : Attempt.Keeps Session.MakesUp
      (Session.compileWith s .synthetic span 0
        (Gen.returnBody ⟨functions, options, w.table⟩ body.text span
          (Gen.value ⟨functions, options, w.table⟩ body))) :=
    Session.makesUp_compileWith hvalue.returnBody
  rcases hrun : lambda functions options body text span w with ⟨r, w'⟩
  cases meeting hrun with
  | recorded | identity | untyped => exact .refl _
  | failed _ _ _ hcompiled | compiled _ _ _ hcompiled =>
    have hmakes := (hcompile _).of_run hcompiled
    exact hmakes

end Hoist

/-- The walk through the anonymous functions of a block makes up entries only. -/
theorem Block.makesUp_walk (block : Block) (functions : FunctionTable) (options : Options) :
    Session.start.MakesUp (block.walk functions options).session :=
  Hoist.topLevel_keeps (fun _ _ _ he => Hoist.makesUp_lambda he) block.stmts (fun _ he => he)
    { session := .start }

/-! ## Declarations -/

/-- How a declaration may end: with the error that compiling it failed with, or with an entry that
carries the signature that the table has for its name, the descriptor and the identity of that
signature, the flags of a declared function, and code. -/
inductive DeclOutcome (ctx : CodeContext) (d : Decl) : Except CompileError Entry → Prop where
  | failed {S S' : Session} {e : CompileError}
    (hrun : Session.compileDecl ctx d S = (.error e, S')) : DeclOutcome ctx d (.error e)
  | compiled {S S' : Session} {s : Signature} {chunk : Chunk}
    (hrun : Session.compileDecl ctx d S = (.ok (), S'))
    (hs : ctx.functions.get? d.name.name = some s) :
    DeclOutcome ctx d (.ok ⟨s, s.descriptor, s.hash, .user, some chunk⟩)

/-- The errors of some outcomes, in order. -/
def outcomeErrors (os : List (Except CompileError Entry)) : List CompileError :=
  os.filterMap fun
    | .error e => some e
    | .ok _ => none

/-- The entries of some outcomes, in order. -/
def outcomeEntries (os : List (Except CompileError Entry)) : List Entry :=
  os.filterMap Except.toOption

theorem length_outcomes (os : List (Except CompileError Entry)) :
    (outcomeErrors os).length + (outcomeEntries os).length = os.length := by
  induction os with
  | nil => rfl
  | cons o os ih =>
    cases o with
    | error e =>
      show (outcomeErrors os).length + 1 + (outcomeEntries os).length = os.length + 1
      omega
    | ok entry =>
      show (outcomeErrors os).length + ((outcomeEntries os).length + 1) = os.length + 1
      omega

/-- The entries among the outcomes of some declarations were made from signatures of the table. -/
theorem ofSignature_of_mem_outcomes {ctx : CodeContext} {ds : List Decl}
    {os : List (Except CompileError Entry)} (h : List.Forall₂ (DeclOutcome ctx) ds os) :
    ∀ entry ∈ outcomeEntries os, ∃ s chunk, ctx.functions.get? entry.name = some s ∧
      entry = .ofSignature s .user (some chunk) := by
  induction h with
  | nil => exact fun _ hentry => nomatch hentry
  | cons houtcome _ ih =>
    cases houtcome with
    | failed => exact ih
    | compiled _ hs =>
      intro entry hentry
      rcases List.mem_cons.1 hentry with rfl | hentry
      · exact ⟨_, _, FunctionTable.knows_of_get? hs, rfl⟩
      · exact ih entry hentry

namespace Session

variable {ctx : CodeContext} {block : Block}

/-- A declaration adds one entry or reports one error. -/
theorem compileDecl_outcome {d : Decl} (hd : ∀ e ∈ Stmt.exprsAll d.body, e ∈ block.exprs)
    {S S' : Session} {r : Except CompileError Unit} (hrun : compileDecl ctx d S = (r, S')) :
    S.registry.GrowsTo S'.registry ∧ (S.registry.names.Nodup → S'.registry.names.Nodup) ∧
      ((∃ e, r = .error e ∧ S'.registry.declared = S.registry.declared) ∨
        r = .ok () ∧ ∃ s chunk, ctx.functions.get? d.name.name = some s ∧
          S'.registry.declared = S.registry.declared ++ [.ofSignature s .user (some chunk)]) := by
  unfold compileDecl at hrun
  rw [Attempt.bind_run] at hrun
  cases hresolve : resolve ctx.functions d.name with
  | error e =>
    simp only [hresolve, Attempt.ofExcept] at hrun
    cases hrun
    exact ⟨.refl _, id, .inl ⟨e, rfl, rfl⟩⟩
  | ok s =>
    simp only [hresolve, Attempt.ofExcept] at hrun
    have hbody : Gen.KeepsSession MakesUp (Gen.body ctx d.body) := fun w =>
      ((Gen.stable_makesUp ctx block).body hd w).choose_spec
    obtain ⟨hgrows, hnodup, hfailed | ⟨hok, chunk, hdeclared⟩⟩ := compileWith_declared hbody hrun
    · exact ⟨hgrows, hnodup, .inl hfailed⟩
    · have hs := Expr.resolve_eq_ok.1 hresolve
      exact ⟨hgrows, hnodup, .inr ⟨hok, s, chunk, hs, hdeclared⟩⟩

/-- The declarations of a list end in order, each with one error or one entry. -/
theorem compileDecls_outcomes (ctx : CodeContext) : ∀ (ds : List Decl) (S : Session),
    (∀ d ∈ ds, ∀ e ∈ Stmt.exprsAll d.body, e ∈ block.exprs) →
      S.registry.GrowsTo (S.compileDecls ctx ds).1.registry ∧
      (S.registry.names.Nodup → (S.compileDecls ctx ds).1.registry.names.Nodup) ∧
      ∃ os, List.Forall₂ (DeclOutcome ctx) ds os ∧
        (S.compileDecls ctx ds).2 = outcomeErrors os ∧
        (S.compileDecls ctx ds).1.registry.declared = S.registry.declared ++ outcomeEntries os
  | [], S, _ => ⟨.refl _, id, [], .nil, rfl, (List.append_nil _).symm⟩
  | d :: ds, S, hds => by
    have hrest : ∀ d' ∈ ds, ∀ e ∈ Stmt.exprsAll d'.body, e ∈ block.exprs :=
      fun d' hd' => hds d' (by simp [hd'])
    rcases hrun : compileDecl ctx d S with ⟨r, S'⟩
    obtain ⟨hgrows, hnodup, ⟨e, rfl, hdeclared⟩ | ⟨rfl, s, chunk, hs, hdeclared⟩⟩ :=
      compileDecl_outcome (hds d (by simp)) hrun
    · simp only [compileDecls, hrun]
      obtain ⟨hgrows', hnodup', os, hos, herrors, hentries⟩ :=
        compileDecls_outcomes ctx ds (S'.note (.functionFailed d.name.name e)) hrest
      refine ⟨hgrows.trans hgrows', hnodup' ∘ hnodup, .error e :: os, .cons (.failed hrun) hos,
        by rw [herrors]; rfl, ?_⟩
      rw [hentries, show (S'.note _).registry = S'.registry from rfl, hdeclared]
      rfl
    · simp only [compileDecls, hrun]
      obtain ⟨hgrows', hnodup', os, hos, herrors, hentries⟩ := compileDecls_outcomes ctx ds S' hrest
      refine ⟨hgrows.trans hgrows', hnodup' ∘ hnodup, .ok (.ofSignature s .user (some chunk)) :: os,
        .cons (.compiled hrun hs) hos, by rw [herrors]; rfl, ?_⟩
      rw [hentries, hdeclared, List.append_assoc]
      rfl

end Session

/-! ## Blocks -/

/-- The functions of a module that a block declares, in the order of their registration. -/
def Module.declaredFunctions (m : Module) : List Entry := m.registry.declared

namespace Block

variable (block : Block) (functions : FunctionTable) (options : Options)

/-- Compiling the anonymous functions of a block makes up entries only. -/
theorem makesUp_hoist :
    Session.start.MakesUp (Session.hoist functions options block .start).2 := by
  have hwalk := block.makesUp_walk functions options
  rw [hoist_eq]
  split
  · exact hwalk
  · exact hwalk

/-- What a compilation leaves of the declarations of a block. -/
theorem session_outcomes :
    Registry.empty.GrowsTo (block.session functions options).registry ∧
    (block.session functions options).registry.names.Nodup ∧
    match (Session.hoist functions options block .start).1 with
    | .error e => (compileBlock functions options block).errors = [e] ∧
        (block.session functions options).registry.declared = []
    | .ok lambdas => ∃ os, List.Forall₂ (DeclOutcome ⟨functions, options, lambdas⟩) block.decls os ∧
        (compileBlock functions options block).errors = outcomeErrors os ∧
        (block.session functions options).registry.declared = outcomeEntries os := by
  have hhoist := block.makesUp_hoist functions options
  have hnodup := hhoist.nodup List.nodup_nil
  unfold session compileBlock
  rcases hrun : Session.hoist functions options block .start with ⟨e | lambdas, S⟩ <;>
    rw [hrun] at hhoist hnodup
  · exact ⟨hhoist.grows, hnodup, rfl, hhoist.declared⟩
  · obtain ⟨hgrows, hnodups, os, hos, herrors, hentries⟩ :=
      Session.compileDecls_outcomes ⟨functions, options, lambdas⟩ block.decls S
        fun d hd => mem_exprs_of_mem_decls hd
    rw [hhoist.declared] at hentries
    exact ⟨hhoist.grows.trans hgrows, hnodups hnodup, os, hos, herrors, hentries⟩

variable {block functions options}

/-- A declared function in the module was made from the signature that the table has for its name. -/
theorem ofSignature_of_declared {entry : Entry}
    (hentry : entry ∈ (block.session functions options).registry.declared) :
    ∃ s chunk, functions.get? entry.name = some s ∧ entry = .ofSignature s .user (some chunk) := by
  obtain ⟨-, -, houtcomes⟩ := block.session_outcomes functions options
  split at houtcomes
  next =>
    rw [houtcomes.2] at hentry
    cases hentry
  next =>
    obtain ⟨os, hos, -, hentries⟩ := houtcomes
    rw [hentries] at hentry
    exact ofSignature_of_mem_outcomes hos entry hentry

/-- Every function of a finished module has code. -/
theorem exists_code_of_mem {block : Block} {functions : FunctionTable} {options : Options}
    {entry : Entry} (hentry : entry ∈ (compileBlock functions options block).module.functions) :
    ∃ chunk, entry.code? = some chunk := by
  obtain ⟨hgrows, hnodup, -⟩ := block.session_outcomes functions options
  rw [module_compileBlock] at hentry
  have hget := Registry.get?_of_mem hnodup hentry
  cases hcode : entry.code? with
  | none => exact nomatch hgrows.unfinished hget hcode
  | some chunk => exact ⟨chunk, rfl⟩

end Block

/-- Each declaration of a block leaves one error or one entry, in the order of the block; an entry has the
signature that is known for the name, with its descriptor and identity.  The entries of a module have
different names and code.  If an anonymous function fails, that is the only error, and no declared function
is in the module. -/
theorem declarations_accounted (functions : FunctionTable) (options : Options) (block : Block) :
    (∀ entry ∈ (compileBlock functions options block).module.functions,
      entry.isDefined = true) ∧
    ((compileBlock functions options block).module.functions.map Entry.name).Nodup ∧
    match (Session.hoist functions options block .start).1 with
    | .error e => (compileBlock functions options block).errors = [e] ∧
        (compileBlock functions options block).module.declaredFunctions = []
    | .ok lambdas => ∃ os, List.Forall₂ (DeclOutcome ⟨functions, options, lambdas⟩) block.decls os ∧
        (compileBlock functions options block).errors = outcomeErrors os ∧
        (compileBlock functions options block).module.declaredFunctions = outcomeEntries os ∧
        (compileBlock functions options block).errors.length +
          (compileBlock functions options block).module.declaredFunctions.length =
            block.decls.length := by
  obtain ⟨-, hnodup, houtcomes⟩ := block.session_outcomes functions options
  refine ⟨fun entry hentry => ?_, ?_⟩
  · obtain ⟨chunk, hcode⟩ := Block.exists_code_of_mem hentry
    simp [Entry.isDefined, hcode]
  · rw [Block.module_compileBlock]
    refine ⟨hnodup, ?_⟩
    split at houtcomes
    next => exact houtcomes
    next =>
      obtain ⟨os, hos, herrors, hentries⟩ := houtcomes
      refine ⟨os, hos, herrors, hentries, ?_⟩
      rw [herrors, Module.declaredFunctions, Session.toModule, hentries, length_outcomes,
        hos.length_eq]

end BlockCompiler
