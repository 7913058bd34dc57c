import BlockCompiler.Proofs.Descriptors
import BlockCompiler.Proofs.Interning
import BlockCompiler.Proofs.Running
import BlockCompiler.Proofs.StaticTypes

/-!
# What a session keeps

While a block is compiled, its session changes in many places, and some of the changes are made by
functions that fail later.  This file collects what survives all of them.

* `Registry.GrowsTo` says that entries stay as they are, and that no entry stays behind without code.
* `Session.Evolves block n` adds that the pool grows, and that constants get new wrappers only if they
  are expressions of the block of a height below `n`.
* `Gen.Stable` lists what a relation between sessions must be closed under to hold between the session
  before an expression is compiled and the session after it.  `Gen.Stable.expr` is the induction on
  expressions, and `Gen.stable_evolves` applies it to `Session.Evolves`.
* `Session.FunctionRun` lists how the compilation of a function may end.  What is to be shown of a whole
  function is shown for its three cases.

The height bounds the wrappers for a reason.  A constant is wrapped only after its own code has been
compiled, and that code may wrap constants too.  All of them are of smaller height, so in a block with
faithful texts none of them is the constant itself, and its wrapper takes the place of no other.
-/

namespace BlockCompiler

/-! ## The registry -/

namespace Registry

theorem attach_of_ne {name : String} {code : Chunk} {e : Entry} (h : e.name ≠ name) :
    attach name code e = e := by
  unfold attach
  rw [if_neg h]

theorem name_of_get? {r : Registry} {name : String} {e : Entry} (h : r.get? name = some e) :
    e.name = name := by
  have := List.find?_some h
  simpa using this

/-- A new entry comes last, and its name was free. -/
theorem declare_eq_ok {r r' : Registry} {s : Signature} {flags : EntryFlags} {span : Span}
    (h : r.declare s flags span = .ok r') :
    r.get? s.name = none ∧ r' = ⟨r.entries ++ [.ofSignature s flags]⟩ := by
  unfold declare at h
  split at h
  · cases h
  next hfree => exact ⟨by simpa [contains] using hfree, (Except.ok.inj h).symm⟩

theorem define_eq_ok {r r' : Registry} {name : String} {code : Chunk} {span : Span}
    (h : r.define name code span = .ok r') : r' = ⟨r.entries.map (attach name code)⟩ := by
  unfold define at h
  split at h
  · cases h
  · split at h
    · cases h
    · exact (Except.ok.inj h).symm

/-- Taking back a registration leaves the entries of all other names. -/
theorem abandon_of_get? {r : Registry} {name : String} {e : Entry} (h : r.get? name = some e)
    (hcode : e.code? = none) : r.abandon name = ⟨r.entries.filter (·.name ≠ name)⟩ := by
  simp [abandon, h, Entry.isDefined, hcode]

theorem get?_define {r r' : Registry} {name : String} {code : Chunk} {span : Span}
    (h : r.define name code span = .ok r') (name' : String) :
    r'.get? name' = (r.get? name').map (attach name code) := by
  have hpred : ((fun e : Entry => decide (e.name = name')) ∘ attach name code) =
      fun e => decide (e.name = name') := by
    funext e
    simp
  rw [define_eq_ok h]
  simp only [get?, List.find?_map, hpred]

/-- An entry without code can be given code. -/
theorem define_of_get? {r : Registry} {name : String} {e : Entry} (h : r.get? name = some e)
    (hcode : e.code? = none) (code : Chunk) (span : Span) :
    ∃ r', r.define name code span = .ok r' := by
  refine ⟨⟨r.entries.map (attach name code)⟩, ?_⟩
  simp [define, h, Entry.isDefined, hcode]

theorem get?_abandon_self {r : Registry} {name : String} {e : Entry} (h : r.get? name = some e)
    (hcode : e.code? = none) : (r.abandon name).get? name = none := by
  simp [abandon_of_get? h hcode, get?]

/-- Entries of `r` stay in `r'`, and entries without code in `r'` are from `r`. -/
structure GrowsTo (r r' : Registry) : Prop where
  kept : ∀ {name e}, r.get? name = some e → r'.get? name = some e
  unfinished : ∀ {name e}, r'.get? name = some e → e.code? = none → r.get? name = some e

theorem GrowsTo.refl (r : Registry) : r.GrowsTo r := ⟨id, fun h _ => h⟩

theorem GrowsTo.trans {r r' r'' : Registry} (h : r.GrowsTo r') (h' : r'.GrowsTo r'') :
    r.GrowsTo r'' :=
  ⟨fun he => h'.kept (h.kept he), fun he hcode => h.unfinished (h'.unfinished he hcode) hcode⟩

section Declared

variable {r r₁ r₂ : Registry} {s : Signature} {flags : EntryFlags} {span : Span}
  (hdecl : r.declare s flags span = .ok r₁)

include hdecl

theorem get?_of_declare_self : r.get? s.name = none := (declare_eq_ok hdecl).1

variable (hgrows : r₁.GrowsTo r₂)

include hgrows

/-- An entry that was declared is still there, without code. -/
theorem get?_declared : r₂.get? s.name = some (.ofSignature s flags) := by
  refine hgrows.kept ?_
  rw [get?_of_declare hdecl, if_pos rfl]

/-- Declaring an entry, growing, and giving the entry its code is growth. -/
theorem growsTo_define {r₃ : Registry} {code : Chunk} {span' : Span}
    (hdef : r₂.define s.name code span' = .ok r₃) : r.GrowsTo r₃ := by
  have hself := get?_declared hdecl hgrows
  constructor
  · intro name e he
    have hne : s.name ≠ name := by
      rintro rfl
      rw [get?_of_declare_self hdecl] at he
      cases he
    have he₂ : r₂.get? name = some e := by
      refine hgrows.kept ?_
      rw [get?_of_declare hdecl, if_neg hne]
      exact he
    have hname : e.name ≠ s.name := by
      rw [name_of_get? he₂]
      exact hne.symm
    rw [get?_define hdef, he₂, Option.map_some, attach_of_ne hname]
  · intro name e he hcode
    rw [get?_define hdef, Option.map_eq_some_iff] at he
    obtain ⟨e₂, he₂, rfl⟩ := he
    by_cases hname : e₂.name = s.name
    · simp [attach, hname] at hcode
    · rw [attach_of_ne hname] at hcode ⊢
      have he₁ := hgrows.unfinished he₂ hcode
      rw [get?_of_declare hdecl] at he₁
      rwa [if_neg] at he₁
      rw [← name_of_get? he₂]
      exact fun h => hname h.symm

/-- Declaring an entry, growing, and taking the entry back is growth. -/
theorem growsTo_abandon : r.GrowsTo (r₂.abandon s.name) := by
  have hself := get?_declared hdecl hgrows
  constructor
  · intro name e he
    have hne : s.name ≠ name := by
      rintro rfl
      rw [get?_of_declare_self hdecl] at he
      cases he
    rw [get?_abandon_of_ne _ hne.symm]
    refine hgrows.kept ?_
    rw [get?_of_declare hdecl, if_neg hne]
    exact he
  · intro name e he hcode
    by_cases hne : s.name = name
    · rw [← hne, get?_abandon_self hself rfl] at he
      cases he
    · rw [get?_abandon_of_ne _ (fun h => hne h.symm)] at he
      have he₁ := hgrows.unfinished he hcode
      rwa [get?_of_declare hdecl, if_neg hne] at he₁

end Declared

end Registry

/-! ## The session -/

/-- The session `S'` keeps what `S` has, and wraps besides only expressions of the block of a height
below `n`. -/
structure Session.Evolves (block : Block) (n : Nat) (S S' : Session) : Prop where
  pool : S.pool.GrowsTo S'.pool
  registry : S.registry.GrowsTo S'.registry
  wrappers : ∀ key, S'.wrapper? key = S.wrapper? key ∨
    S.wrapper? key = none ∧ ∃ e ∈ block.exprs, e.height < n ∧ ∃ t, key = Gen.wrapperKey t e.text

namespace Session

variable {block : Block} {m n : Nat} {S S' S'' : Session}

theorem Evolves.refl (block : Block) (n : Nat) (S : Session) : Evolves block n S S :=
  ⟨.refl _, .refl _, fun _ => .inl rfl⟩

theorem Evolves.trans (h : Evolves block n S S') (h' : Evolves block n S' S'') :
    Evolves block n S S'' := by
  refine ⟨h.pool.trans h'.pool, h.registry.trans h'.registry, fun key => ?_⟩
  rcases h.wrappers key with heq | hnew
  · rcases h'.wrappers key with heq' | hnew'
    · exact .inl (heq'.trans heq)
    · rw [heq] at hnew'
      exact .inr hnew'
  · exact .inr hnew

theorem Evolves.mono (h : Evolves block m S S') (hmn : m ≤ n) : Evolves block n S S' := by
  refine ⟨h.pool, h.registry, fun key => ?_⟩
  rcases h.wrappers key with heq | ⟨hnone, e, he, hheight, ht⟩
  · exact .inl heq
  · exact .inr ⟨hnone, e, he, by omega, ht⟩

/-- A wrapper that is remembered stays remembered. -/
theorem Evolves.wrapper?_eq_some (h : Evolves block n S S') {key : String} {s : Signature}
    (hs : S.wrapper? key = some s) : S'.wrapper? key = some s := by
  rcases h.wrappers key with heq | ⟨hnone, _⟩
  · rw [heq, hs]
  · rw [hs] at hnone
    cases hnone

/-- The wrapper of a constant of height `n` is not remembered on the way. -/
theorem Evolves.wrapper?_eq_none (h : Evolves block n S S') (hfaithful : block.TextFaithful)
    {e : Expr} (he : e ∈ block.exprs) (hn : n ≤ e.height) {t : Ty}
    (hs : S.wrapper? (Gen.wrapperKey t e.text) = none) :
    S'.wrapper? (Gen.wrapperKey t e.text) = none := by
  rcases h.wrappers (Gen.wrapperKey t e.text) with heq | ⟨_, e', he', hheight, t', hkey⟩
  · rw [heq, hs]
  · have htext := (Gen.wrapperKey_inj hkey).2
    have := Expr.height_eq_of_eraseSpans_eq (hfaithful e he e' he' htext)
    omega

theorem wrapper?_rememberWrapper (S : Session) (key : String) (s : Signature) (key' : String) :
    (S.rememberWrapper key s).wrapper? key' = if key = key' then some s else S.wrapper? key' := by
  simp [wrapper?, rememberWrapper, Std.TreeMap.getElem?_insert]

/-- Remembering a wrapper that is not there yet. -/
theorem evolves_rememberWrapper {e : Expr} (he : e ∈ block.exprs) {t : Ty} {s : Signature}
    (hs : S.wrapper? (Gen.wrapperKey t e.text) = none) :
    Evolves block (e.height + 1) S (S.rememberWrapper (Gen.wrapperKey t e.text) s) := by
  refine ⟨.refl _, .refl _, fun key => ?_⟩
  by_cases hkey : Gen.wrapperKey t e.text = key
  · subst hkey
    exact .inr ⟨hs, e, he, by omega, t, rfl⟩
  · left
    rw [wrapper?_rememberWrapper, if_neg hkey]

theorem evolves_intern (S : Session) (c : Constant) :
    Evolves block n S { S with pool := (S.pool.add c).1 } :=
  ⟨Pool.growsTo_add _ _, .refl _, fun _ => .inl rfl⟩

/-- Neither the journal nor the counter matters. -/
theorem evolves_of_eq (hpool : S'.pool = S.pool) (hregistry : S'.registry = S.registry)
    (hwrappers : S'.wrappers = S.wrappers) : Evolves block n S S' := by
  refine ⟨?_, ?_, fun key => .inl ?_⟩
  · rw [hpool]
  · rw [hregistry]
    exact .refl _
  · rw [wrapper?, wrapper?, hwrappers]

instance : IsPreorder Session (Evolves block n) where
  refl := .refl block n
  trans _ _ _ := .trans

end Session

/-! ## Steps that change the session -/

/-- Whether a step relates the session before it to the session after it, however it ends. -/
def Gen.KeepsSession {α : Type} (R : Session → Session → Prop) (x : Gen α) : Prop :=
  Attempt.Keeps (InvImage R Workbench.session) x

namespace Gen

section KeepsSession

variable {α β : Type} {R : Session → Session → Prop} [IsPreorder Session R]

instance : IsPreorder Workbench (InvImage R Workbench.session) where
  refl w := refl_of R w.session
  trans _ _ _ := trans_of R

instance : IsPreorder Walk (InvImage R Walk.session) where
  refl w := refl_of R w.session
  trans _ _ _ := trans_of R

theorem KeepsSession.bind {x : Gen α} {f : α → Gen β} (hx : KeepsSession R x)
    (hf : ∀ a, KeepsSession R (f a)) : KeepsSession R (x >>= f) :=
  Attempt.Keeps.bind hx hf

theorem KeepsSession.bind_of_run {x : Gen α} {f : α → Gen β} (hx : KeepsSession R x)
    (hf : ∀ a w w', x w = (.ok a, w') → KeepsSession R (f a)) : KeepsSession R (x >>= f) :=
  Attempt.Keeps.bind_of_run hx hf

/-- A step of the frame alone. -/
theorem keepsSession_of_eq {x : Gen α} (h : ∀ w, (x w).2.session = w.session) :
    KeepsSession R x := by
  intro w
  rw [InvImage, h]
  exact refl_of R w.session

theorem keepsSession_pure (a : α) : KeepsSession R (pure a) := Attempt.keeps_pure a

theorem keepsSession_fail (e : CompileError) : KeepsSession R (.fail e : Gen α) :=
  Attempt.keeps_fail e

theorem keepsSession_ofExcept (r : Except CompileError α) : KeepsSession R (.ofExcept r) :=
  Attempt.keeps_ofExcept r

theorem keepsSession_frame : KeepsSession R frame := keepsSession_of_eq fun _ => rfl

theorem keepsSession_modifyFrame (f : Frame → Frame) : KeepsSession R (modifyFrame f) :=
  keepsSession_of_eq fun _ => rfl

theorem keepsSession_emit (f : Emitter → Emitter) : KeepsSession R (emit f) :=
  keepsSession_modifyFrame _

theorem keepsSession_pushTy (t : Ty) : KeepsSession R (pushTy t) := keepsSession_modifyFrame _

theorem keepsSession_popTy (context : String) (span : Span) :
    KeepsSession R (popTy context span) := by
  refine keepsSession_of_eq fun w => ?_
  unfold popTy
  split <;> rfl

theorem keepsSession_ensureNoOperands (context : String) (span : Span) :
    KeepsSession R (ensureNoOperands context span) :=
  keepsSession_of_eq fun _ => rfl

theorem keepsSession_label : KeepsSession R label := keepsSession_of_eq fun _ => rfl

theorem keepsSession_scope (x : Attempt Scope α) : KeepsSession R (scope x) :=
  keepsSession_of_eq fun _ => rfl

theorem KeepsSession.discard {x : Gen α} (hx : KeepsSession R x) : KeepsSession R (discard x) :=
  hx.bind fun _ => keepsSession_pure _

theorem keepsSession_infer (ctx : CodeContext) (e : Expr) : KeepsSession R (infer ctx e) :=
  .bind keepsSession_frame fun _ => .bind (keepsSession_ofExcept _) fun _ => keepsSession_pure _

theorem keepsSession_setLine (ctx : CodeContext) (line : Nat) :
    KeepsSession R (setLine ctx line) := by
  unfold setLine
  split
  · exact keepsSession_emit _
  · exact keepsSession_pure _

theorem KeepsSession.nested {ctx : CodeContext} {span : Span} {x : Gen α}
    (hx : KeepsSession R x) : KeepsSession R (nested ctx span x) := by
  refine .bind keepsSession_frame fun _ => .bind (keepsSession_ofExcept _) fun _ => ?_
  exact .bind (keepsSession_modifyFrame _) fun _ => fun w => hx w

theorem KeepsSession.operand {e : Expr} {code : Gen Unit} (h : KeepsSession R code) :
    KeepsSession R (operand e code) := by
  refine .bind keepsSession_frame fun before => .bind h fun _ => ?_
  refine .bind keepsSession_frame fun fr => ?_
  split
  · exact .bind (keepsSession_emit _) fun _ =>
      .bind (keepsSession_pushTy _) fun _ => keepsSession_popTy _ _
  · exact keepsSession_popTy _ _

theorem keepsSession_returnUnit : KeepsSession R returnUnit :=
  .bind (keepsSession_emit _) fun _ => .bind (keepsSession_emit _) fun _ => keepsSession_emit _

theorem KeepsSession.returnValue {text : String} {span : Span} {value : Gen Ty}
    (h : KeepsSession R value) : KeepsSession R (returnValue text span value) := by
  refine .bind h fun actual => .bind keepsSession_frame fun fr => ?_
  dsimp only
  split
  · split
    · exact .bind keepsSession_returnUnit fun _ => keepsSession_ensureNoOperands _ _
    · exact .bind (keepsSession_emit _) fun _ => keepsSession_ensureNoOperands _ _
  · exact keepsSession_fail _

theorem keepsSession_returnLeft (span : Span) : KeepsSession R (returnLeft span) := by
  refine .bind keepsSession_frame fun fr => ?_
  dsimp only
  split
  · split
    · exact .bind (keepsSession_emit _) fun _ => keepsSession_emit _
    · exact keepsSession_fail _
  · refine .bind (keepsSession_popTy _ _) fun actual => ?_
    split
    · exact keepsSession_emit _
    · split
      · exact keepsSession_returnUnit
      · exact keepsSession_fail _
  · exact keepsSession_ensureNoOperands _ _

theorem keepsSession_declareParams (ctx : CodeContext) (ps : List Param) :
    KeepsSession R (declareParams ctx ps) := by
  induction ps with
  | nil => exact keepsSession_pure _
  | cons p ps ih =>
    refine .bind (.bind keepsSession_frame fun fr => ?_) fun _ => ih
    refine .bind (keepsSession_scope _).discard fun _ => ?_
    split
    · exact keepsSession_emit _
    · exact keepsSession_pure _

theorem KeepsSession.framed {ctx : CodeContext} {code : Gen Unit} (h : KeepsSession R code) :
    KeepsSession R (framed ctx code) := by
  refine .bind keepsSession_frame fun fr => .bind (keepsSession_declareParams ctx _) fun _ => ?_
  refine .bind keepsSession_label fun start => .bind h fun _ => ?_
  refine .bind keepsSession_label fun stop => ?_
  split
  · exact keepsSession_modifyFrame _
  · exact keepsSession_pure _

theorem KeepsSession.returnBody {ctx : CodeContext} {text : String} {span : Span} {value : Gen Ty}
    (h : KeepsSession R value) : KeepsSession R (returnBody ctx text span value) :=
  .framed <| .bind (keepsSession_setLine ctx _) fun _ => h.returnValue

end KeepsSession

end Gen

/-! ## Expressions -/

/-- Whether a constant may come from an expression of a block: its reals are written there. -/
def Block.Interns (block : Block) (c : Constant) : Prop :=
  ∀ x, c = .real x → block.WritesReal x

/-- Whether a signature is that of a known function. -/
def FunctionTable.Knows (t : FunctionTable) (s : Signature) : Prop := t.get? s.name = some s

theorem FunctionTable.knows_of_get? {t : FunctionTable} {name : String} {s : Signature}
    (h : t.get? name = some s) : t.Knows s := by
  rw [Knows, t.name_of_get? h, h]

/-- A constant that an expression of the block adds to the pool, its wrapper apart. -/
inductive CodeContext.Interns (ctx : CodeContext) (block : Block) : Constant → Prop where
  | int (v : Int64) : Interns ctx block (.int v)
  | real {x : Binary64} (hx : block.WritesReal x) : Interns ctx block (.real x)
  | string (s : String) : Interns ctx block (.ofString s)
  | function {s : Signature} (hs : ctx.functions.Knows s) : Interns ctx block (.function s.hash)
  | known {s : Signature} (hs : ctx.functions.Knows s) : Interns ctx block (.bound s.toValue)
  | lambda {text : String} {s : Signature} (hs : ctx.lambdas.get? text = some s) :
    Interns ctx block (.bound s.toValue)

theorem CodeContext.Interns.block_interns {ctx : CodeContext} {block : Block} {c : Constant}
    (h : ctx.Interns block c) : block.Interns c := by
  intro x hx
  cases h with
  | real hreal =>
    cases hx
    exact hreal
  | string s => cases hx
  | _ => cases hx

namespace Gen

/-! ### What a step found -/

section Found

variable {ctx : CodeContext} {w w' : Workbench}

theorem infer_eq_ok {e : Expr} {t : Ty} (h : infer ctx e w = (.ok t, w')) :
    w' = w ∧ e.typeOf ctx.functions w.frame.scope = some t := by
  obtain ⟨fr, w₁, hframe, hrest⟩ := Attempt.bind_eq_ok.1 h
  cases hframe
  obtain ⟨typing, w₂, hty, hpure⟩ := Attempt.bind_eq_ok.1 hrest
  obtain ⟨htyping, rfl⟩ := Attempt.ofExcept_eq_ok.1 hty
  cases hpure
  exact ⟨rfl, Expr.typeOf_of_inferAt e htyping⟩

theorem callee_eq_ok {ident : Ident} {argCount : Nat} {span : Span} {s : Signature}
    (h : callee ctx ident argCount span w = (.ok s, w')) :
    w' = w ∧ ctx.functions.get? ident.name = some s ∧ argCount = s.arity := by
  obtain ⟨s', _, hresolve, hrest⟩ := Attempt.bind_eq_ok.1 h
  obtain ⟨hs, rfl⟩ := Attempt.ofExcept_eq_ok.1 hresolve
  split at hrest
  next harity =>
    cases hrest
    exact ⟨rfl, Expr.resolve_eq_ok.1 hs, harity⟩
  next => cases Attempt.fail_ne_ok hrest

end Found

/-- What a relation between sessions, which a height bounds, needs to be closed under.  Only a
constant of the expected result type is promoted. -/
structure Stable (ctx : CodeContext) (block : Block) (R : Nat → Session → Session → Prop) :
    Prop where
  preorder : ∀ n, IsPreorder Session (R n)
  mono : ∀ {m n S S'}, m ≤ n → R m S S' → R n S S'
  intern : ∀ c, ctx.Interns block c → ∀ S, R 0 S { S with pool := (S.pool.add c).1 }
  promote : ∀ e ∈ block.exprs, KeepsSession (R e.height) (value ctx e) →
    ∀ {scope : Scope} (params : List Ty) {result : Ty}, e.typeOf ctx.functions scope = some result →
      KeepsSession (R (e.height + 1)) (promote ctx e params result (value ctx e))

namespace Stable

variable {ctx : CodeContext} {block : Block} {R : Nat → Session → Session → Prop}
  (h : Stable ctx block R)

include h

theorem keepsSession_mono {α : Type} {m n : Nat} {x : Gen α} (hmn : m ≤ n)
    (hx : KeepsSession (R m) x) : KeepsSession (R n) x :=
  fun w => h.mono hmn (hx w)

theorem emitPooled_constant {c : Constant} (hc : ctx.Interns block c) (n : Nat) :
    KeepsSession (R n) (emitPooled (·.constant c)) :=
  fun w => h.mono (Nat.zero_le n) (h.intern c hc w.session)

theorem emitPooled_call {s : Signature} (hs : ctx.functions.Knows s) (argCount : UInt8)
    (returnsValue : Bool) (n : Nat) :
    KeepsSession (R n) (emitPooled (·.call s.hash argCount returnsValue)) :=
  fun w => h.mono (Nat.zero_le n) (h.intern _ (.function hs) w.session)

theorem bindFunction {s : Signature} (hs : ctx.Interns block (.bound s.toValue)) (n : Nat) :
    KeepsSession (R n) (bindFunction s) := by
  have := h.preorder n
  refine .bind (fun w => ?_) fun _ => keepsSession_pushTy _
  exact h.mono (Nat.zero_le n) (h.intern _ hs w.session)

theorem literal {value : Literal} {text : String} {span : Span}
    (he : Expr.literal value text span ∈ block.exprs) (n : Nat) :
    KeepsSession (R n) (literal value) := by
  have := h.preorder n
  cases value with
  | int v => exact .bind (h.emitPooled_constant (.int v) n) fun _ => keepsSession_pushTy _
  | real v =>
    have hv : block.WritesReal v := ⟨text, span, he⟩
    exact .bind (h.emitPooled_constant (.real hv) n) fun _ => keepsSession_pushTy _
  | bool v => exact .bind (keepsSession_emit _) fun _ => keepsSession_pushTy _
  | string v => exact .bind (h.emitPooled_constant (.string v) n) fun _ => keepsSession_pushTy _
  | unit => exact .bind (keepsSession_emit _) fun _ => keepsSession_pushTy _

theorem loadVar (v : LocalVar) (n : Nat) : KeepsSession (R n) (loadVar v) := by
  have := h.preorder n
  exact .bind (keepsSession_emit _) fun _ => keepsSession_pushTy _

theorem reference (ident : Ident) (n : Nat) : KeepsSession (R n) (reference ctx ident) := by
  have := h.preorder n
  refine .bind keepsSession_frame fun fr => ?_
  split
  · exact h.loadVar _ n
  · split
    next s hs => exact h.bindFunction (.known (FunctionTable.knows_of_get? hs)) n
    next => exact keepsSession_fail _

theorem placeholder (span : Span) (n : Nat) : KeepsSession (R n) (placeholder span) := by
  have := h.preorder n
  refine .bind keepsSession_frame fun fr => ?_
  split
  · split
    · exact h.loadVar _ n
    · exact keepsSession_fail _
  · exact keepsSession_fail _

theorem lambda (text : String) (span : Span) (n : Nat) :
    KeepsSession (R n) (lambda ctx text span) := by
  have := h.preorder n
  unfold Gen.lambda
  split
  next s hs => exact h.bindFunction (.lambda hs) n
  next => exact keepsSession_fail _

theorem pair {first second : Expr} {span : Span} {firstValue secondValue : Gen Ty} {n : Nat}
    (hfirst : KeepsSession (R n) firstValue) (hsecond : KeepsSession (R n) secondValue) :
    KeepsSession (R n) (pair ctx first second span firstValue secondValue) := by
  have := h.preorder n
  refine .bind (keepsSession_infer _ _) fun a => .bind (keepsSession_infer _ _) fun b => ?_
  refine .bind (keepsSession_ofExcept _) fun ty => .bind (keepsSession_emit _) fun _ => ?_
  refine .bind (keepsSession_emit _) fun _ => .bind hfirst.discard fun _ => ?_
  refine .bind hsecond.discard fun _ => .bind (keepsSession_emit _) fun _ => ?_
  exact keepsSession_pushTy _

theorem argument {e : Expr} (he : e ∈ block.exprs)
    (hvalue : KeepsSession (R e.height) (value ctx e)) (callee : Signature) (position : Nat)
    (formal : Param) :
    KeepsSession (R (e.height + 1)) (argument ctx callee position formal e (value ctx e)) := by
  have := h.preorder (e.height + 1)
  have hvalue' := h.keepsSession_mono (Nat.le_succ e.height) hvalue
  refine .bind_of_run (keepsSession_infer _ _) fun actual w w' hinfer => ?_
  obtain ⟨-, htype⟩ := infer_eq_ok hinfer
  dsimp only
  split
  · exact hvalue'.discard
  · split
    next params result _ =>
      split
      next hresult =>
        rw [← hresult] at htype
        exact .bind (h.promote e he hvalue params htype) fun _ => (keepsSession_popTy _ _).discard
      next => exact keepsSession_fail _
    next => exact keepsSession_fail _

theorem callee (ident : Ident) (argCount : Nat) (span : Span) (n : Nat) :
    KeepsSession (R n) (callee ctx ident argCount span) := by
  have := h.preorder n
  refine .bind (keepsSession_ofExcept _) fun s => ?_
  split
  · exact keepsSession_pure _
  · exact keepsSession_fail _

theorem finishCall {s : Signature} (hs : ctx.functions.Knows s) (argCount : Nat) (text : String)
    (span : Span) (n : Nat) : KeepsSession (R n) (finishCall s argCount text span) := by
  have := h.preorder n
  unfold Gen.finishCall
  split
  · refine .bind (h.emitPooled_call hs _ _ n) fun _ => ?_
    split
    · exact keepsSession_pure _
    · exact keepsSession_pushTy _
  · exact keepsSession_fail _

mutual

/-- The session before an expression is compiled is related to the session after it. -/
theorem expr : ∀ e ∈ block.exprs, KeepsSession (R e.height) (expr ctx e)
  | .literal value text span, he => by
    have := h.preorder 0
    exact (h.literal he 0).nested
  | .pair first second text span, he => by
    have := h.preorder (Expr.pair first second text span).height
    have := h.preorder first.height
    have := h.preorder second.height
    have hfirst := (expr first (Block.first_mem_exprs he)).operand (e := first)
    have hsecond := (expr second (Block.second_mem_exprs he)).operand (e := second)
    refine (h.pair ?_ ?_).nested
    · exact h.keepsSession_mono (by rw [Expr.height]; omega) hfirst
    · exact h.keepsSession_mono (by rw [Expr.height]; omega) hsecond
  | .var ident, _ => by
    have := h.preorder 0
    exact (h.reference ident 0).nested
  | .placeholder span, _ => by
    have := h.preorder 0
    exact (h.placeholder span 0).nested
  | .lambda body text span, _ => by
    have := h.preorder (Expr.lambda body text span).height
    exact (h.lambda text span _).nested
  | .call ident args text span, he => by
    have := h.preorder (Expr.call ident args text span).height
    refine KeepsSession.nested (.bind_of_run (h.callee ident _ span _) fun s w w' hcallee => ?_)
    obtain ⟨-, hs, -⟩ := callee_eq_ok hcallee
    refine .bind ?_ fun _ => ?_
    · exact arguments args (fun e => Block.arg_mem_exprs he) s 0 s.params
    · exact h.finishCall (FunctionTable.knows_of_get? hs) _ text span _

/-- The session before some arguments are compiled is related to the session after them. -/
theorem arguments : ∀ es : List Expr, (∀ e ∈ es, e ∈ block.exprs) →
    ∀ (s : Signature) (position : Nat) (formals : List Param),
      KeepsSession (R (Expr.heightAll es)) (arguments ctx s position formals es)
  | [], _, _, _, _ => by
    have := h.preorder (Expr.heightAll [])
    exact keepsSession_pure _
  | e :: es, hes, s, position, [] => by
    have := h.preorder (Expr.heightAll (e :: es))
    exact keepsSession_pure _
  | e :: es, hes, s, position, formal :: formals => by
    have := h.preorder (Expr.heightAll (e :: es))
    have := h.preorder e.height
    have he := hes e (by simp)
    have hvalue : KeepsSession (R e.height) (value ctx e) := (expr e he).operand
    refine KeepsSession.bind ?_ fun _ => ?_
    · exact h.keepsSession_mono (by simp [Expr.heightAll]) (h.argument he hvalue s position formal)
    · have htail := arguments es (fun e' he' => hes e' (by simp [he'])) s (position + 1) formals
      exact h.keepsSession_mono (by simp [Expr.heightAll]) htail

end

/-- The same for an expression whose value is wanted. -/
theorem value {e : Expr} (he : e ∈ block.exprs) : KeepsSession (R e.height) (value ctx e) := by
  have := h.preorder e.height
  exact (h.expr e he).operand

theorem preorder_exists : IsPreorder Session fun S S' => ∃ n, R n S S' where
  refl S := ⟨0, (h.preorder 0).refl S⟩
  trans S S' S'' := by
    rintro ⟨m, hm⟩ ⟨n, hn⟩
    have hm' := h.mono (Nat.le_max_left m n) hm
    have hn' := h.mono (Nat.le_max_right m n) hn
    exact ⟨max m n, (h.preorder _).trans _ _ _ hm' hn'⟩

/-- The session before the statements of a body is related to the session after them. -/
theorem stmts : ∀ ss : List Stmt, (∀ e ∈ Stmt.exprsAll ss, e ∈ block.exprs) →
    KeepsSession (fun S S' => ∃ n, R n S S') (stmts ctx ss)
  | [], _ => by
    have := h.preorder_exists
    exact .bind keepsSession_frame fun fr => keepsSession_returnLeft _
  | s :: rest, hss => by
    have := h.preorder_exists
    have hhead {e : Expr} (he : e ∈ s.exprs) : e ∈ block.exprs :=
      hss e (List.mem_append_left _ he)
    have hstmt : KeepsSession (fun S S' => ∃ n, R n S S') (stmt ctx s) := by
      cases s with
      | expr e => exact fun w => ⟨_, h.expr e (hhead e.mem_subexprs_self) w⟩
      | ret e span =>
        have hvalue : KeepsSession (fun S S' => ∃ n, R n S S') (Gen.value ctx e) :=
          fun w => ⟨_, h.value (hhead e.mem_subexprs_self) w⟩
        exact hvalue.returnValue
      | decl ident body span => exact keepsSession_fail _
    refine .bind (keepsSession_setLine ctx _) fun _ => .bind hstmt fun _ => ?_
    cases rest with
    | nil =>
      dsimp only
      split
      · exact keepsSession_pure _
      · exact keepsSession_returnLeft _
    | cons s' rest =>
      refine .bind (keepsSession_modifyFrame _) fun _ => ?_
      exact stmts (s' :: rest) fun e he => hss e (List.mem_append_right _ he)

/-- The session before a body is related to the session after it. -/
theorem body {ss : List Stmt} (hss : ∀ e ∈ Stmt.exprsAll ss, e ∈ block.exprs) :
    KeepsSession (fun S S' => ∃ n, R n S S') (body ctx ss) := by
  have := h.preorder_exists
  exact (h.stmts ss hss).framed

end Stable

end Gen

/-! ## Whole functions -/

namespace Session

/-- How the compilation of a function ends, if its body lets the registry grow: its name is taken, its
body fails, or it gets its code. -/
inductive FunctionRun (s : Signature) (flags : EntryFlags) (site : Span) (depth : Nat)
    (body : Gen Unit) (S : Session) : Except CompileError Unit → Session → Prop where
  | taken {e : CompileError} (hdecl : S.registry.declare s flags site = .error e) :
    FunctionRun s flags site depth body S (.error e) S
  | failed {r : Registry} {w : Workbench} {e : CompileError}
    (hdecl : S.registry.declare s flags site = .ok r)
    (hbody : body ⟨{ S with registry := r }.note (.declared s), .start s site depth⟩ = (.error e, w))
    (hgrows : r.GrowsTo w.session.registry) :
    FunctionRun s flags site depth body S (.error e)
      { w.session.note (.abandoned s.name e) with registry := w.session.registry.abandon s.name }
  | finished {r r' : Registry} {w : Workbench}
    (hdecl : S.registry.declare s flags site = .ok r)
    (hbody : body ⟨{ S with registry := r }.note (.declared s), .start s site depth⟩ = (.ok (), w))
    (hgrows : r.GrowsTo w.session.registry)
    (hdef : w.session.registry.define s.name (w.frame.emitter.finish w.frame.scope.maxLocals) site =
      .ok r') :
    FunctionRun s flags site depth body S (.ok ())
      ({ w.session with registry := r' }.note
        (.defined s.name (w.frame.emitter.finish w.frame.scope.maxLocals).size))

section FunctionRun

variable {s : Signature} {flags : EntryFlags} {site : Span} {depth : Nat} {body : Gen Unit}

/-- A function whose body lets the registry grow is still pending when its body is compiled, so that
giving it its code cannot fail. -/
theorem functionRun (hbody : ∀ w : Workbench, w.session.registry.GrowsTo (body w).2.session.registry)
    {S S' : Session} {r : Except CompileError Unit}
    (hrun : compileWith s flags site depth body S = (r, S')) :
    FunctionRun s flags site depth body S r S' := by
  rw [compileWith_eq] at hrun
  split at hrun
  next e hdecl =>
    cases hrun
    exact .taken hdecl
  next registry hdecl =>
    have hgrows := hbody ⟨{ S with registry }.note (.declared s), .start s site depth⟩
    split at hrun
    next e w heq =>
      rw [heq] at hgrows
      cases hrun
      exact .failed hdecl heq hgrows
    next w heq =>
      rw [heq] at hgrows
      have hpending := Registry.get?_declared hdecl hgrows
      obtain ⟨registry', hdef⟩ := Registry.define_of_get? hpending rfl
        (w.frame.emitter.finish w.frame.scope.maxLocals) site
      simp only [hdef] at hrun
      cases hrun
      exact .finished hdecl heq hgrows hdef

/-- However the compilation of a function ends, the session evolves with that of its body. -/
theorem evolves_compileWith {block : Block} {n : Nat}
    (h : Gen.KeepsSession (Evolves block n) body) :
    Attempt.Keeps (Evolves block n) (compileWith s flags site depth body) := by
  intro S
  rcases hrun : compileWith s flags site depth body S with ⟨r, S'⟩
  cases functionRun (fun w => (h w).registry) hrun with
  | taken hdecl => exact .refl _ _ _
  | failed hdecl hbody hgrows =>
    have hevolves := h.of_run hbody
    exact ⟨hevolves.pool, Registry.growsTo_abandon hdecl hgrows, hevolves.wrappers⟩
  | finished hdecl hbody hgrows hdef =>
    have hevolves := h.of_run hbody
    exact ⟨hevolves.pool, Registry.growsTo_define hdecl hgrows hdef, hevolves.wrappers⟩

end FunctionRun

end Session

namespace Gen

/-- The wrapper of a constant is not remembered while the constant's own code is compiled. -/
theorem wrapper?_eq_none_of_compileWith {ctx : CodeContext} {block : Block}
    (hfaithful : block.TextFaithful) {e : Expr} (he : e ∈ block.exprs)
    (hvalue : KeepsSession (Session.Evolves block e.height) (value ctx e)) {S S' : Session} {t : Ty}
    (hnone : S.wrapper? (wrapperKey t e.text) = none) {s : Signature} {flags : EntryFlags}
    {site span : Span} {depth id : Nat} {text : String} {r : Except CompileError Unit}
    (hrun : Session.compileWith s flags site depth (returnBody ctx text span (value ctx e))
      { S with nextId := id } = (r, S')) :
    S'.wrapper? (wrapperKey t e.text) = none := by
  have hevolves := (Session.evolves_compileWith hvalue.returnBody).of_run hrun
  exact hevolves.wrapper?_eq_none hfaithful he (Nat.le_refl _) hnone

/-- Sessions evolve while the expressions of a block with faithful texts are compiled. -/
theorem stable_evolves (ctx : CodeContext) {block : Block} (hfaithful : block.TextFaithful) :
    Stable ctx block (Session.Evolves block) where
  preorder _ := inferInstance
  mono hmn h := h.mono hmn
  intern c _ S := Session.evolves_intern S c
  promote e he hvalue _ params result _ w := by
    have hcompile (s : Signature) (depth : Nat) :
        Attempt.Keeps (Session.Evolves block e.height)
          (Session.compileWith s .synthetic e.span depth
            (returnBody ctx e.text e.span (value ctx e))) :=
      Session.evolves_compileWith hvalue.returnBody
    have hcounted : Session.Evolves block e.height w.session
        { w.session with nextId := w.session.nextId + 1 } :=
      Session.evolves_of_eq rfl rfl rfl
    rcases hrun : promote ctx e params result (value ctx e) w with ⟨r, w'⟩
    cases promotion hrun with
    | @reused s _ _ _ hbind =>
      cases hbind
      have hnote : Session.Evolves block (e.height + 1) w.session
          (w.session.note (.constantReused s.name e.text)) :=
        Session.evolves_of_eq rfl rfl rfl
      exact hnote.trans (Session.evolves_intern _ (.bound s.toValue))
    | refused => exact .refl _ _ _
    | failed _ _ _ hcompiled =>
      have hevolves := hcounted.trans ((hcompile _ _).of_run hcompiled)
      exact hevolves.mono (Nat.le_succ e.height)
    | @wrapped s S _ _ hnone _ _ hcompiled hbind =>
      cases hbind
      have hevolves := hcounted.trans ((hcompile _ _).of_run hcompiled)
      have hfresh := wrapper?_eq_none_of_compileWith hfaithful he hvalue hnone hcompiled
      have hnote : Session.Evolves block (e.height + 1) S
          (S.note (.constantPromoted e.text s)) :=
        Session.evolves_of_eq rfl rfl rfl
      have hremember := Session.evolves_rememberWrapper he (s := s)
        (S := S.note (.constantPromoted e.text s)) hfresh
      have hdone := (hevolves.mono (Nat.le_succ e.height)).trans (hnote.trans hremember)
      exact hdone.trans (Session.evolves_intern _ (.bound s.toValue))

end Gen

end BlockCompiler
