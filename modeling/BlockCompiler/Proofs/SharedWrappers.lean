import Mathlib.Data.List.Dedup
import BlockCompiler.Proofs.Deduplication
import BlockCompiler.Proofs.Wrappings

/-!
# Constants share wrappers

Wrappers are remembered by one string, which is put together from a type and a text, and they are
remembered only after their own code was compiled.  This file says that wrappers are shared whenever
they can be and at no other time.

* `Session.Completes` is what the promotions of a list leave in a session.  It is closed under
  sequences, in the order of the list.
* `Wrappings.Lists` says that a list is right for a run from any state.  `Wrappings.lists_promote` is the
  step, which needs faithful texts: the wrapper of a constant must not be remembered twice.
  `Wrappings.lists_expr` is the induction on expressions.
* `Block.completes_session` puts the walk and the declared functions together.
* `wrappers_shared` reads off which promotions have the same wrapper, and counts wrappers.
-/

namespace BlockCompiler

/-! ## Names of wrappers -/

namespace Gen

/-- The number in the name of a wrapper. -/
def wrapperNumber (name : String) : Nat :=
  Nat.ofDigitChars 10 ((name.toList.drop "_lambda_".length).takeWhile (· ≠ '$')) 0

theorem wrapperNumber_wrapperName (id : Nat) : wrapperNumber (wrapperName id) = id := by
  have hname : (wrapperName id).toList =
      "_lambda_".toList ++ (Nat.toDigits 10 id ++ '$' :: "constant".toList) := by
    simp [wrapperName, String.toList_append, Nat.toList_repr, show toString id = id.repr from rfl]
  have hdigits : ∀ c ∈ Nat.toDigits 10 id, decide (c ≠ '$') = true := by
    intro c hc
    have hdigit := Nat.isDigit_of_mem_toDigits (by decide) (by decide) hc
    rw [decide_eq_true_iff]
    rintro rfl
    revert hdigit
    decide
  have hdrop : (wrapperName id).toList.drop "_lambda_".length =
      Nat.toDigits 10 id ++ '$' :: "constant".toList := by
    rw [hname]
    exact List.drop_left' rfl
  rw [wrapperNumber, hdrop, List.takeWhile_append_of_pos hdigits]
  simp [Nat.ofDigitChars_toDigits]

end Gen

/-- Whether an entry was made for a constant can be read from its name. -/
theorem Entry.isWrapper_iff (entry : Entry) : entry.IsWrapper ↔
    entry.isSynthetic = true ∧ entry.name = Gen.wrapperName (Gen.wrapperNumber entry.name) := by
  refine and_congr_right fun _ => ⟨?_, fun h => ⟨_, h⟩⟩
  rintro ⟨id, hname⟩
  have hwrapper : entry.name = Gen.wrapperName id := hname
  rw [hwrapper, Gen.wrapperNumber_wrapperName]

instance (entry : Entry) : Decidable entry.IsWrapper := decidable_of_iff' _ entry.isWrapper_iff

/-- The functions of a module that were made for constants. -/
def Module.wrapperFunctions (m : Module) : List Entry := m.functions.filter (·.IsWrapper)

/-! ## What promotions leave -/

namespace Session

/-- The promotions in the journal, in order: the names of the wrappers, and the texts. -/
def promotions (S : Session) : List (String × String) := S.journal.toList.filterMap Event.promotion?

@[simp] theorem promotions_note (S : Session) (event : Event) :
    (S.note event).promotions = S.promotions ++ event.promotion?.toList := by
  rw [promotions, note, Array.toList_push, List.filterMap_append]
  cases h : event.promotion? <;> simp [promotions, h]

/-- Neither the wrappers nor the promotions have changed. -/
def SameWrappers (S S' : Session) : Prop :=
  S'.wrappers = S.wrappers ∧ S'.promotions = S.promotions

instance : IsPreorder Session SameWrappers where
  refl _ := ⟨rfl, rfl⟩
  trans _ _ _ h h' := ⟨h'.1.trans h.1, h'.2.trans h.2⟩

theorem sameWrappers_note {event : Event} (hevent : event.promotion? = none) (S : Session) :
    S.SameWrappers (S.note event) :=
  ⟨rfl, by simp [hevent]⟩

/-- From `S` to `S'` the promotions of a list were completed: they are in the journal, their wrappers are
remembered, and no others. -/
structure Completes (S : Session) (ps : List Wrapping) (S' : Session) : Prop where
  told : S'.promotions = S.promotions ++ ps.map fun p => (p.wrapper.name, p.text)
  kept : ∀ {key s}, S.wrapper? key = some s → S'.wrapper? key = some s
  remembered : ∀ p ∈ ps, S'.wrapper? p.key = some p.wrapper
  new : ∀ {key s}, S'.wrapper? key = some s → S.wrapper? key = some s ∨ ∃ p ∈ ps, p.key = key

variable {S S' S'' : Session} {ps qs : List Wrapping}

theorem SameWrappers.completes (h : S.SameWrappers S') : S.Completes [] S' := by
  obtain ⟨hwrappers, hpromotions⟩ := h
  have hlookup : S'.wrapper? = S.wrapper? := by
    funext key
    rw [wrapper?, wrapper?, hwrappers]
  refine ⟨by simpa using hpromotions, ?_, by simp, fun hs => .inl ?_⟩
  · rw [hlookup]
    exact id
  · rwa [hlookup] at hs

theorem Completes.trans (h : S.Completes ps S') (h' : S'.Completes qs S'') :
    S.Completes (ps ++ qs) S'' := by
  refine ⟨?_, fun hs => h'.kept (h.kept hs), fun p hp => ?_, fun {key s} hs => ?_⟩
  · rw [h'.told, h.told, List.map_append, List.append_assoc]
  · rcases List.mem_append.1 hp with hp | hp
    · exact h'.kept (h.remembered p hp)
    · exact h'.remembered p hp
  · rcases h'.new hs with hs | ⟨p, hp, hkey⟩
    · rcases h.new hs with hold | ⟨p, hp, hkey⟩
      · exact .inl hold
      · exact .inr ⟨p, List.mem_append_left _ hp, hkey⟩
    · exact .inr ⟨p, List.mem_append_right _ hp, hkey⟩

theorem Completes.after (h : S.Completes ps S') (hsame : S'.SameWrappers S'') :
    S.Completes ps S'' := by
  have htrans := h.trans hsame.completes
  rwa [List.append_nil] at htrans

theorem SameWrappers.before (hsame : S.SameWrappers S') (h : S'.Completes ps S'') :
    S.Completes ps S'' :=
  hsame.completes.trans h

/-- A remembered wrapper is pushed for one more constant. -/
theorem completes_reused {t : Ty} {text : String} {s : Signature}
    (hs : S.wrapper? (Gen.wrapperKey t text) = some s) :
    S.Completes [⟨t, text, s⟩] (S.note (.constantReused s.name text)) := by
  refine ⟨promotions_note _ _, id, fun p hp => ?_, .inl⟩
  rw [List.mem_singleton.1 hp]
  exact hs

/-- A wrapper that is not remembered yet is made for a constant. -/
theorem completes_wrapped {t : Ty} {text : String} {s : Signature}
    (hfresh : S.wrapper? (Gen.wrapperKey t text) = none) :
    S.Completes [⟨t, text, s⟩]
      ((S.note (.constantPromoted text s)).rememberWrapper (Gen.wrapperKey t text) s) := by
  have hlookup (key : String) : ((S.note (.constantPromoted text s)).rememberWrapper
      (Gen.wrapperKey t text) s).wrapper? key =
        if Gen.wrapperKey t text = key then some s else S.wrapper? key :=
    wrapper?_rememberWrapper _ _ _ _
  refine ⟨promotions_note _ _, fun {key s'} hs' => ?_, fun p hp => ?_, fun {key s'} hs' => ?_⟩
  · rw [hlookup, if_neg, hs']
    intro hkey
    rw [← hkey, hfresh] at hs'
    cases hs'
  · obtain rfl := List.mem_singleton.1 hp
    rw [hlookup, Wrapping.key, if_pos rfl]
  · rw [hlookup] at hs'
    split at hs'
    next hkey => exact .inr ⟨_, List.mem_singleton.2 rfl, hkey⟩
    next => exact .inl hs'

end Session

/-! ## Right lists -/

namespace Wrappings

variable {σ α β : Type}

/-- Whether the promotions that a run completes are those of a list, from any state and however it
ends. -/
def Lists (session : σ → Session) (x : Attempt σ α) (l : Wrappings σ) : Prop :=
  ∀ s, (session s).Completes (l s) (session (x s).2)

section Lists

variable {session : σ → Session} {x : Attempt σ α} {f : α → Attempt σ β} {l : Wrappings σ}
  {l' : α → Wrappings σ}

theorem Lists.of_run (h : Lists session x l) {s s' : σ} {r : Except CompileError α}
    (hrun : x s = (r, s')) : (session s).Completes (l s) (session s') := by
  have hlists := h s
  rwa [hrun] at hlists

/-- Most steps promote nothing. -/
theorem lists_nil (hx : Attempt.Keeps (InvImage Session.SameWrappers session) x) :
    Lists session x fun _ => [] :=
  fun s => (hx s).completes

theorem Lists.bind (hx : Lists session x l) (hf : ∀ a, Lists session (f a) (l' a)) :
    Lists session (x >>= f) fun s => l s ++ after x l' s := by
  intro s
  have hfirst := hx s
  show (session s).Completes (l s ++ Wrappings.after x l' s) _
  rw [Attempt.bind_run]
  rcases hrun : x s with ⟨err | a, s'⟩ <;> rw [hrun] at hfirst
  · rw [after_of_error hrun, List.append_nil]
    exact hfirst
  · rw [after_of_ok hrun]
    exact hfirst.trans (hf a s')

/-- After a step that promotes nothing. -/
theorem Lists.after (hx : Attempt.Keeps (InvImage Session.SameWrappers session) x)
    (hf : ∀ a, Lists session (f a) (l' a)) : Lists session (x >>= f) (after x l') :=
  (lists_nil hx).bind hf

/-- Before steps that promote nothing. -/
theorem Lists.before (hx : Lists session x l)
    (hf : ∀ a, Attempt.Keeps (InvImage Session.SameWrappers session) (f a)) :
    Lists session (x >>= f) l := by
  intro s
  have hfirst := hx s
  rw [Attempt.bind_run]
  rcases hrun : x s with ⟨err | a, s'⟩ <;> rw [hrun] at hfirst
  · exact hfirst
  · exact hfirst.after (hf a s')

end Lists

/-- A change of the registry, which is noted, promotes nothing. -/
theorem keeps_update {f : Session → Except CompileError Registry} {event : Session → Event}
    (hevent : ∀ S, (event S).promotion? = none) :
    Attempt.Keeps Session.SameWrappers (.update fun S => do
      let registry ← f S
      .ok ({ S with registry }.note (event S))) := by
  intro S
  unfold Attempt.update
  dsimp only
  cases f S with
  | error e => exact refl_of Session.SameWrappers S
  | ok registry => exact Session.sameWrappers_note (hevent S) { S with registry }

/-- A function completes the promotions that its body does, whatever becomes of it. -/
theorem lists_compileWith {s : Signature} {flags : EntryFlags} {site : Span} {depth : Nat}
    {body : Gen Unit} {l : Wrappings Workbench} (hbody : Lists Workbench.session body l) :
    Lists id (Session.compileWith s flags site depth body) (compileWith s flags site depth l) := by
  refine .after (keeps_update fun _ => rfl) fun _ => ?_
  refine Lists.before (fun S => hbody ⟨S, .start s site depth⟩) fun outcome => ?_
  obtain ⟨e | _, fr⟩ := outcome
  · intro S
    have hnoted : S.SameWrappers (S.note (.abandoned s.name e)) := Session.sameWrappers_note rfl S
    exact hnoted
  · exact keeps_update fun _ => rfl

/-! ## Code -/

section Code

variable {ctx : CodeContext} {block : Block}

/-- Constants are promoted in arguments, so nothing is at height zero. -/
theorem stable_sameWrappers (ctx : CodeContext) (block : Block) :
    Gen.Stable ctx block fun n S S' => n = 0 → S.SameWrappers S' where
  preorder _ :=
    { refl := fun S _ => refl_of Session.SameWrappers S
      trans := fun _ _ _ h h' hn => trans_of Session.SameWrappers (h hn) (h' hn) }
  mono hmn h hn := h (by omega)
  intern _ _ _ _ := ⟨rfl, rfl⟩
  promote _ _ _ _ _ _ _ _ hn := nomatch hn

theorem keeps_of_height_zero {x : Gen α}
    (h : Gen.KeepsSession (fun S S' => 0 = 0 → S.SameWrappers S') x) :
    Gen.KeepsSession Session.SameWrappers x :=
  fun w => h w rfl

/-- Neither does a call itself. -/
theorem keeps_finishCall (s : Signature) (argCount : Nat) (text : String) (span : Span) :
    Gen.KeepsSession Session.SameWrappers (Gen.finishCall s argCount text span) := by
  unfold Gen.finishCall
  split
  · refine Gen.KeepsSession.bind (fun w => ⟨rfl, rfl⟩) fun _ => ?_
    split
    · exact Gen.keepsSession_pure _
    · exact Gen.keepsSession_pushTy _
  · exact Gen.keepsSession_fail _

theorem Lists.nested {span : Span} {x : Gen α} {l : Wrappings Workbench}
    (hx : Lists Workbench.session x l) :
    Lists Workbench.session (Gen.nested ctx span x) (nested ctx span l) := by
  refine .after Gen.keepsSession_frame fun fr => ?_
  refine .after (Gen.keepsSession_ofExcept _) fun _ => ?_
  exact .after (Gen.keepsSession_modifyFrame _) fun _ w => hx w

theorem Lists.operand {e : Expr} {code : Gen Unit} {l : Wrappings Workbench}
    (hcode : Lists Workbench.session code l) : Lists Workbench.session (Gen.operand e code) l := by
  refine Lists.after Gen.keepsSession_frame fun before => hcode.before fun _ => ?_
  refine Gen.KeepsSession.bind Gen.keepsSession_frame fun fr => ?_
  split
  · refine Gen.KeepsSession.bind (Gen.keepsSession_emit _) fun _ => ?_
    exact Gen.KeepsSession.bind (Gen.keepsSession_pushTy _) fun _ => Gen.keepsSession_popTy _ _
  · exact Gen.keepsSession_popTy _ _

theorem Lists.returnValue {text : String} {span : Span} {value : Gen Ty} {l : Wrappings Workbench}
    (hvalue : Lists Workbench.session value l) :
    Lists Workbench.session (Gen.returnValue text span value) l :=
  hvalue.before fun actual =>
    have hactual : Gen.KeepsSession Session.SameWrappers (pure actual : Gen Ty) :=
      Gen.keepsSession_pure actual
    hactual.returnValue

theorem Lists.framed {code : Gen Unit} {l : Wrappings Workbench}
    (hcode : Lists Workbench.session code l) :
    Lists Workbench.session (Gen.framed ctx code) (framed ctx l) := by
  refine .after Gen.keepsSession_frame fun fr => ?_
  refine .after (Gen.keepsSession_declareParams ctx _) fun _ => ?_
  refine .after Gen.keepsSession_label fun start => hcode.before fun _ => ?_
  refine Gen.KeepsSession.bind Gen.keepsSession_label fun stop => ?_
  split
  · exact Gen.keepsSession_modifyFrame _
  · exact Gen.keepsSession_pure _

theorem Lists.returnBody {text : String} {span : Span} {value : Gen Ty} {l : Wrappings Workbench}
    (hvalue : Lists Workbench.session value l) :
    Lists Workbench.session (Gen.returnBody ctx text span value) (returnBody ctx span l) :=
  .framed (.after (Gen.keepsSession_setLine ctx _) fun _ => hvalue.returnValue)

theorem Lists.pair {first second : Expr} {span : Span} {firstValue secondValue : Gen Ty}
    {l l' : Wrappings Workbench} (hfirst : Lists Workbench.session firstValue l)
    (hsecond : Lists Workbench.session secondValue l') :
    Lists Workbench.session (Gen.pair ctx first second span firstValue secondValue)
      (pair ctx first second span firstValue l l') := by
  refine .after (Gen.keepsSession_infer _ _) fun a => .after (Gen.keepsSession_infer _ _) fun b => ?_
  refine .after (Gen.keepsSession_ofExcept _) fun ty => .after (Gen.keepsSession_emit _) fun _ => ?_
  refine .after (Gen.keepsSession_emit _) fun _ => ?_
  refine Lists.bind (hfirst.before fun _ => Gen.keepsSession_pure _) fun _ => ?_
  refine Lists.before (hsecond.before fun _ => Gen.keepsSession_pure _) fun _ => ?_
  exact Gen.KeepsSession.bind (Gen.keepsSession_emit _) fun _ => Gen.keepsSession_pushTy _

/-- The promotions in the code of a wrapper come first, and none of them is that of the constant
itself. -/
theorem lists_promote (hfaithful : block.TextFaithful) {e : Expr} (he : e ∈ block.exprs)
    {l : Wrappings Workbench}
    (hvalue : Lists Workbench.session (Gen.value ctx e) l) (params : List Ty) (result : Ty) :
    Lists Workbench.session (Gen.promote ctx e params result (Gen.value ctx e))
      (promote ctx e params result (Gen.value ctx e) l) := by
  intro w
  have hevolves := (Gen.stable_evolves ctx hfaithful).value he
  have hcounted : w.session.SameWrappers { w.session with nextId := w.session.nextId + 1 } :=
    ⟨rfl, rfl⟩
  have hcompile (s : Signature) : Lists id (Session.compileWith s .synthetic e.span (w.frame.depth + 1)
      (Gen.returnBody ctx e.text e.span (Gen.value ctx e))) _ := lists_compileWith hvalue.returnBody
  rcases hrun : Gen.promote ctx e params result (Gen.value ctx e) w with ⟨r, w'⟩
  unfold promote
  cases Gen.promotion hrun with
  | reused hs hbind =>
    cases hbind
    simp only [hs]
    exact (Session.completes_reused hs).after ⟨rfl, rfl⟩
  | refused hnone hconst =>
    simp only [hnone, hconst]
    exact (refl_of Session.SameWrappers w.session).completes
  | failed hnone hconst hs hcompiled =>
    subst hs
    simp only [hnone, hconst, after_of_error hcompiled, List.append_nil]
    exact hcounted.before ((hcompile _).of_run hcompiled)
  | wrapped hnone hconst hs hcompiled hbind =>
    subst hs
    cases hbind
    simp only [hnone, hconst, after_of_ok hcompiled]
    have hfresh := Gen.wrapper?_eq_none_of_compileWith hfaithful he hevolves hnone hcompiled
    refine (hcounted.before ((hcompile _).of_run hcompiled)).trans ?_
    exact (Session.completes_wrapped hfresh).after ⟨rfl, rfl⟩

theorem lists_argument (hfaithful : block.TextFaithful) {e : Expr} (he : e ∈ block.exprs)
    {l : Wrappings Workbench}
    (hvalue : Lists Workbench.session (Gen.value ctx e) l) (callee : Signature) (position : Nat)
    (formal : Param) :
    Lists Workbench.session (Gen.argument ctx callee position formal e (Gen.value ctx e))
      (argument ctx formal e (Gen.value ctx e) l) := by
  obtain ⟨name, ty⟩ := formal
  refine .after (Gen.keepsSession_infer _ _) fun actual => ?_
  dsimp only
  by_cases hactual : actual = ty
  · simp only [if_pos hactual]
    exact hvalue.before fun _ => Gen.keepsSession_pure _
  · simp only [if_neg hactual]
    cases ty with
    | fn params result =>
      by_cases hresult : result = actual
      · simp only [if_pos hresult]
        exact (lists_promote hfaithful he hvalue params result).before fun _ =>
          (Gen.keepsSession_popTy _ _).discard
      · simp only [if_neg hresult]
        exact lists_nil (Gen.keepsSession_fail _)
    | _ => exact lists_nil (Gen.keepsSession_fail _)

mutual

/-- The list is right for an expression. -/
theorem lists_expr (hfaithful : block.TextFaithful) : ∀ e ∈ block.exprs,
    Lists Workbench.session (Gen.expr ctx e) (expr ctx e)
  | .literal _ _ _, he =>
    lists_nil (keeps_of_height_zero ((stable_sameWrappers ctx block).literal he 0)).nested
  | .var ident, _ =>
    lists_nil (keeps_of_height_zero ((stable_sameWrappers ctx block).reference ident 0)).nested
  | .placeholder span, _ =>
    lists_nil (keeps_of_height_zero ((stable_sameWrappers ctx block).placeholder span 0)).nested
  | .lambda _ text span, _ =>
    lists_nil (keeps_of_height_zero ((stable_sameWrappers ctx block).lambda text span 0)).nested
  | .pair first second _ _, he => by
    have hfirst := lists_expr hfaithful first (Block.first_mem_exprs he)
    have hsecond := lists_expr hfaithful second (Block.second_mem_exprs he)
    exact (hfirst.operand.pair hsecond.operand).nested
  | .call ident args _ span, he => by
    have hcallee := (stable_sameWrappers ctx block).callee ident args.length span 0
    refine Lists.nested (.after (keeps_of_height_zero hcallee) fun s => ?_)
    refine Lists.before ?_ fun _ => keeps_finishCall s _ _ _
    exact lists_arguments hfaithful args (fun _ => Block.arg_mem_exprs he) s 0 s.params

/-- The list is right for the arguments of a call. -/
theorem lists_arguments (hfaithful : block.TextFaithful) : ∀ es : List Expr,
    (∀ e ∈ es, e ∈ block.exprs) → ∀ (s : Signature) (position : Nat) (formals : List Param),
      Lists Workbench.session (Gen.arguments ctx s position formals es)
        (arguments ctx s position formals es)
  | [], _, _, _, _ | _ :: _, _, _, _, [] => lists_nil (Gen.keepsSession_pure _)
  | e :: es, hes, s, position, formal :: formals => by
    have he := hes e List.mem_cons_self
    have hargument := lists_argument hfaithful he (lists_expr hfaithful e he).operand s position formal
    refine hargument.bind fun _ => ?_
    exact lists_arguments hfaithful es (fun e' he' => hes e' (List.mem_cons_of_mem _ he')) s _ formals

end

theorem lists_value (hfaithful : block.TextFaithful) {e : Expr} (he : e ∈ block.exprs) :
    Lists Workbench.session (Gen.value ctx e) (expr ctx e) :=
  (lists_expr hfaithful e he).operand

theorem lists_stmts (hfaithful : block.TextFaithful) : ∀ ss : List Stmt,
    (∀ e ∈ Stmt.exprsAll ss, e ∈ block.exprs) →
      Lists Workbench.session (Gen.stmts ctx ss) (stmts ctx ss)
  | [], _ =>
    lists_nil (Gen.KeepsSession.bind Gen.keepsSession_frame fun _ => Gen.keepsSession_returnLeft _)
  | s :: rest, hss => by
    have hhead {e : Expr} (he : e ∈ s.exprs) : e ∈ block.exprs := hss e (List.mem_append_left _ he)
    have hstmt : Lists Workbench.session (Gen.stmt ctx s) (stmt ctx s) := by
      cases s with
      | expr e => exact lists_expr hfaithful e (hhead e.mem_subexprs_self)
      | ret e span => exact (lists_value hfaithful (hhead e.mem_subexprs_self)).returnValue
      | decl => exact lists_nil (Gen.keepsSession_fail _)
    refine .after (Gen.keepsSession_setLine ctx _) fun _ => hstmt.bind fun _ => ?_
    cases rest with
    | nil =>
      refine lists_nil ?_
      dsimp only
      split
      · exact Gen.keepsSession_pure _
      · exact Gen.keepsSession_returnLeft _
    | cons s' rest =>
      refine .after (Gen.keepsSession_modifyFrame _) fun _ => ?_
      exact lists_stmts hfaithful (s' :: rest) fun e he => hss e (List.mem_append_right _ he)

/-- The list is right for a body. -/
theorem lists_body (hfaithful : block.TextFaithful) {ss : List Stmt}
    (hss : ∀ e ∈ Stmt.exprsAll ss, e ∈ block.exprs) :
    Lists Workbench.session (Gen.body ctx ss) (body ctx ss) :=
  (lists_stmts hfaithful ss hss).framed

end Code

/-! ## The walk and the declared functions -/

section Functions

variable {functions : FunctionTable} {options : Options} {block : Block}
  (hfaithful : block.TextFaithful)

include hfaithful

theorem lists_compileLambda {body : Expr} (hbody : body ∈ block.exprs) (text : String) (span : Span) :
    Lists Walk.session (Hoist.compileLambda functions options body text span)
      (compileLambda functions options body span) := by
  intro w
  have hcounted : w.session.SameWrappers { w.session with nextId := w.session.nextId + 1 } :=
    ⟨rfl, rfl⟩
  rw [Hoist.compileLambda_eq]
  unfold compileLambda
  cases body.infer ⟨functions, .empty, w.table, options.maxDepth⟩ with
  | error e => exact hcounted.completes
  | ok typing =>
    let ctx : CodeContext := ⟨functions, options, w.table⟩
    have hcompile (s : Signature) : Lists id (Session.compileWith s .synthetic span 0
        (Gen.returnBody ctx body.text span (Gen.value ctx body))) _ :=
      lists_compileWith (lists_value hfaithful hbody).returnBody
    dsimp only
    split
    next e S hrun => exact hcounted.before ((hcompile _).of_run hrun)
    next S hrun =>
      exact (hcounted.before ((hcompile _).of_run hrun)).after (Session.sameWrappers_note rfl S)

/-- The list is right for an anonymous function. -/
theorem lists_lambda {l : LambdaLiteral} (hl : l.expr ∈ block.exprs) :
    Lists Walk.session (Hoist.lambda functions options l.body l.text l.span)
      (lambda functions options l.body l.text l.span) := by
  intro w
  rw [Hoist.lambda_eq]
  unfold lambda
  cases w.table.get? l.text with
  | some s => exact (Session.sameWrappers_note rfl w.session).completes
  | none =>
    cases (if l.body.isPlaceholder then w.identity? else none) with
    | some s => exact (Session.sameWrappers_note rfl w.session).completes
    | none => exact lists_compileLambda hfaithful (Block.body_mem_exprs hl) l.text l.span w

/-- The list is right for the walk. -/
theorem lists_takeAll : ∀ ts : List WalkStep, (∀ l, .meet l ∈ ts → l.expr ∈ block.exprs) →
    Lists Walk.session (ts.forM (Hoist.take functions options)) (takeAll functions options ts)
  | [], _ => lists_nil (Attempt.keeps_pure _)
  | t :: ts, hts => by
    have htake : Lists Walk.session (Hoist.take functions options t) (take functions options t) := by
      cases t with
      | enter => exact lists_nil (Attempt.keeps_ofExcept _)
      | meet l => exact lists_lambda hfaithful (hts l List.mem_cons_self)
    exact htake.bind fun _ => lists_takeAll ts fun l hl => hts l (List.mem_cons_of_mem _ hl)

/-- The list is right for a declared function. -/
theorem lists_compileDecl {ctx : CodeContext} {d : Decl}
    (hd : ∀ e ∈ Stmt.exprsAll d.body, e ∈ block.exprs) :
    Lists id (Session.compileDecl ctx d) (compileDecl ctx d) :=
  .after (fun S => refl_of Session.SameWrappers S) fun _ => lists_compileWith (lists_body hfaithful hd)

/-- The list is right for declared functions. -/
theorem completes_compileDecls {ctx : CodeContext} : ∀ ds : List Decl,
    (∀ d ∈ ds, ∀ e ∈ Stmt.exprsAll d.body, e ∈ block.exprs) → ∀ S : Session,
      S.Completes (compileDecls ctx ds S) (S.compileDecls ctx ds).1
  | [], _, S => (refl_of Session.SameWrappers S).completes
  | d :: ds, hds, S => by
    have hfirst : S.Completes (compileDecl ctx d S) (Session.compileDecl ctx d S).2 :=
      lists_compileDecl hfaithful (hds d List.mem_cons_self) S
    have hrest (S : Session) : S.Completes (compileDecls ctx ds S) (S.compileDecls ctx ds).1 :=
      completes_compileDecls ds (fun d hd => hds d (List.mem_cons_of_mem _ hd)) S
    unfold compileDecls Session.compileDecls
    rcases hrun : Session.compileDecl ctx d S with ⟨e | _, S'⟩ <;> rw [hrun] at hfirst
    · have hnoted : S'.SameWrappers (S'.note (.functionFailed d.name.name e)) :=
        Session.sameWrappers_note rfl S'
      exact (hfirst.after hnoted).trans (hrest _)
    · exact hfirst.trans (hrest S')

end Functions

end Wrappings

/-! ## Blocks -/

section Steps

variable {l : LambdaLiteral}

mutual

theorem Expr.mem_of_meet : ∀ (e : Expr) (depth : Nat), .meet l ∈ e.steps depth → l.expr ∈ e.subexprs
  | .literal _ _ _, _, h | .var _, _, h | .placeholder _, _, h => by simp [steps] at h
  | .pair first second _ _, depth, h => by
    simp only [steps, List.mem_cons, List.mem_append, reduceCtorEq, false_or] at h
    refine List.mem_cons_of_mem _ (List.mem_append.2 (h.imp ?_ ?_))
    · exact mem_of_meet first (depth + 1)
    · exact mem_of_meet second (depth + 1)
  | .lambda body text span, depth, h => by
    simp only [steps, List.mem_cons, List.mem_append, reduceCtorEq, false_or, List.not_mem_nil, or_false,
      WalkStep.meet.injEq] at h
    rcases h with h | rfl
    · exact List.mem_cons_of_mem _ (mem_of_meet body (depth + 1) h)
    · exact List.mem_cons_self
  | .call _ args _ _, depth, h => by
    simp only [steps, List.mem_cons, reduceCtorEq, false_or] at h
    exact List.mem_cons_of_mem _ (mem_of_meet_all args (depth + 1) h)

theorem Expr.mem_of_meet_all : ∀ (es : List Expr) (depth : Nat),
    .meet l ∈ stepsAll depth es → l.expr ∈ subexprsAll es
  | [], _, h => nomatch h
  | e :: es, depth, h =>
    List.mem_append.2 ((List.mem_append.1 h).imp (mem_of_meet e depth) (mem_of_meet_all es depth))

end

mutual

theorem Stmt.mem_of_meet : ∀ (s : Stmt) (depth : Nat), .meet l ∈ s.steps depth → l.expr ∈ s.exprs
  | .expr e, depth, h | .ret e _, depth, h => by
    simp only [steps, List.mem_cons, reduceCtorEq, false_or] at h
    exact e.mem_of_meet depth h
  | .decl _ body _, depth, h => by
    simp only [steps, List.mem_cons, reduceCtorEq, false_or] at h
    exact mem_of_meet_all body (depth + 1) h

theorem Stmt.mem_of_meet_all : ∀ (ss : List Stmt) (depth : Nat),
    .meet l ∈ stepsAll depth ss → l.expr ∈ exprsAll ss
  | [], _, h => nomatch h
  | s :: ss, depth, h =>
    List.mem_append.2 ((List.mem_append.1 h).imp (mem_of_meet s depth) (mem_of_meet_all ss depth))

end

/-- The walk meets expressions of the block. -/
theorem Block.mem_of_meet {block : Block} (h : .meet l ∈ block.steps) : l.expr ∈ block.exprs := by
  obtain ⟨s, hs, h⟩ := List.mem_flatMap.1 h
  refine Stmt.mem_exprsAll.2 ⟨s, hs, ?_⟩
  cases s with
  | expr | ret => exact Stmt.mem_of_meet _ 0 h
  | decl _ body => exact Stmt.mem_of_meet_all body 0 h

end Steps

namespace Block

variable {block : Block} {functions : FunctionTable} {options : Options}
  (hfaithful : block.TextFaithful)

include hfaithful

/-- The list is right for the whole compilation. -/
theorem completes_session :
    Session.start.Completes (block.wrappings functions options) (block.session functions options) := by
  have hwalk : Session.start.Completes
      (Wrappings.takeAll functions options block.steps { session := .start })
      (block.walk functions options).session := by
    unfold walk
    rw [Hoist.topLevel_eq]
    exact Wrappings.lists_takeAll hfaithful block.steps (fun _ => mem_of_meet) { session := .start }
  unfold wrappings session
  rw [hoist_eq]
  refine hwalk.trans ?_
  cases (Hoist.topLevel functions options block.stmts { session := .start }).1 with
  | error e => exact (Session.sameWrappers_note rfl _).completes
  | ok _ =>
    have hnoted : (block.walk functions options).session.SameWrappers
        ((block.walk functions options).session.note
          (.hoisted (block.walk functions options).table.size)) := Session.sameWrappers_note rfl _
    refine hnoted.before ?_
    exact Wrappings.completes_compileDecls hfaithful block.decls (fun _ => mem_exprs_of_mem_decls) _

/-- What is listed has a wrapper of its own key. -/
theorem wrapper?_of_mem_wrappings {p : Wrapping} (hp : p ∈ block.wrappings functions options) :
    (block.session functions options).wrapper? p.key = some p.wrapper :=
  (completes_session hfaithful).remembered p hp

/-- A wrapper is that of something listed. -/
theorem exists_mem_wrappings {key : String} {s : Signature}
    (hs : (block.session functions options).wrapper? key = some s) :
    ∃ p ∈ block.wrappings functions options, p.wrapper = s := by
  rcases (completes_session hfaithful).new hs with hstart | ⟨p, hp, hkey⟩
  · simp [Session.wrapper?, Session.start] at hstart
  · have hwrapper := wrapper?_of_mem_wrappings hfaithful hp
    rw [hkey, hs] at hwrapper
    exact ⟨p, hp, (Option.some.inj hwrapper).symm⟩

variable {p q : Wrapping} (hp : p ∈ block.wrappings functions options)
  (hq : q ∈ block.wrappings functions options)

include hp in
/-- A wrapper has the type that is expected. -/
theorem toTy_of_mem_wrappings : p.wrapper.toTy = p.expected :=
  (sound_session options hfaithful).1.wrappers (wrapper?_of_mem_wrappings hfaithful hp)

include hp hq

/-- Wrappers of one name are of one type and text. -/
theorem key_eq_of_name_eq (hname : p.wrapper.name = q.wrapper.name) :
    p.expected = q.expected ∧ p.text = q.text := by
  have hgated : (block.session functions options).Gated functions options block none :=
    gated_session hfaithful
  exact Gen.wrapperKey_inj (hgated.apart (wrapper?_of_mem_wrappings hfaithful hp)
    (wrapper?_of_mem_wrappings hfaithful hq) hname)

/-- What is of one type and text has one wrapper. -/
theorem wrapper_eq_of_key_eq (htype : p.expected = q.expected) (htext : p.text = q.text) :
    p.wrapper = q.wrapper := by
  have hwrapper := wrapper?_of_mem_wrappings hfaithful hp
  rw [Wrapping.key, htype, htext] at hwrapper
  exact Option.some.inj (hwrapper.symm.trans (wrapper?_of_mem_wrappings hfaithful hq))

end Block

/-- Functions that tell the elements of a list apart in the same way have as many values on it. -/
theorem length_dedup_map_eq {α β γ : Type} [DecidableEq β] [DecidableEq γ] {f : α → β} {g : α → γ} :
    ∀ {l : List α}, (∀ a ∈ l, ∀ b ∈ l, f a = f b ↔ g a = g b) →
      (l.map f).dedup.length = (l.map g).dedup.length
  | [], _ => rfl
  | a :: l, h => by
    have ih := length_dedup_map_eq fun b hb c hc =>
      h b (List.mem_cons_of_mem _ hb) c (List.mem_cons_of_mem _ hc)
    have hsame {b : α} (hb : b ∈ l) : f b = f a ↔ g b = g a :=
      h b (List.mem_cons_of_mem _ hb) a List.mem_cons_self
    have hmem : f a ∈ l.map f ↔ g a ∈ l.map g := by
      rw [List.mem_map, List.mem_map]
      exact exists_congr fun b => and_congr_right hsame
    rw [List.map_cons, List.map_cons]
    by_cases hf : f a ∈ l.map f
    · rw [List.dedup_cons_of_mem hf, List.dedup_cons_of_mem (hmem.1 hf), ih]
    · rw [List.dedup_cons_of_notMem hf, List.dedup_cons_of_notMem (mt hmem.2 hf), List.length_cons,
        List.length_cons, ih]

/-- The wrappers in a module are those of the promotions that were completed, each one once. -/
theorem Block.wrapperFunctions_perm {block : Block} {functions : FunctionTable} {options : Options}
    (hfaithful : block.TextFaithful) :
    ((compileBlock functions options block).module.wrapperFunctions.map Entry.signature).Perm
      ((block.wrappings functions options).map Wrapping.wrapper).dedup := by
  have hnames : ((compileBlock functions options block).module.functions.map Entry.name).Nodup := by
    rw [module_compileBlock]
    exact (block.session_outcomes functions options).2.1
  have hnodup : ((compileBlock functions options block).module.wrapperFunctions.map
      Entry.signature).Nodup := by
    refine List.Nodup.of_map Signature.name ?_
    rw [List.map_map]
    exact hnames.sublist (List.filter_sublist.map _)
  refine (List.perm_ext_iff_of_nodup hnodup (List.nodup_dedup _)).2 fun s => ?_
  rw [List.mem_dedup, List.mem_map, List.mem_map]
  constructor
  · rintro ⟨entry, hentry, rfl⟩
    obtain ⟨hmem, hwrapper⟩ := List.mem_filter.1 hentry
    obtain ⟨e, -, t, hs, -⟩ := constant_of_wrapper hfaithful hmem (of_decide_eq_true hwrapper)
    exact exists_mem_wrappings hfaithful hs
  · rintro ⟨p, hp, rfl⟩
    obtain ⟨entry, hmem, hwrapper, hsignature⟩ :=
      mem_functions_of_wrapper hfaithful (wrapper?_of_mem_wrappings hfaithful hp)
    exact ⟨entry, List.mem_filter.2 ⟨hmem, decide_eq_true hwrapper⟩, hsignature⟩

/-- The promotions that a compilation reports, in order: the names of the wrappers, and the texts. -/
def Compilation.promotions (c : Compilation) : List (String × String) :=
  c.journal.toList.filterMap Event.promotion?

/-- Constants share wrappers by their texts and the types that are expected.  The promotions that are
listed are those that the journal reports, and one that is completed is listed with the type that is
expected, the text and the wrapper that is pushed.  The wrapper of each is in the module and has the type
that is expected.  Two of them have the same wrapper if and only if both the types and the texts are equal,
and wrappers of one name are the same.  So there are as many wrappers in the module as there are pairs of
a type and a text. -/
theorem wrappers_shared {block : Block} (functions : FunctionTable) (options : Options)
    (hfaithful : block.TextFaithful) :
    (compileBlock functions options block).promotions =
        (block.wrappings functions options).map (fun p => (p.wrapper.name, p.text)) ∧
      (∀ (ctx : CodeContext) (e : Expr) (params : List Ty) (result : Ty) (value : Gen Ty)
          (l : Wrappings Workbench) (w w' : Workbench),
        Gen.promote ctx e params result value w = (.ok (), w') →
        ∃ inner s w₁,
          Wrappings.promote ctx e params result value l w = inner ++ [⟨.fn params result, e.text, s⟩] ∧
            Gen.bindFunction s w₁ = (.ok (), w')) ∧
      (∀ p ∈ block.wrappings functions options, p.wrapper.toTy = p.expected ∧
        ∃ entry ∈ (compileBlock functions options block).module.functions,
          entry.IsWrapper ∧ entry.signature = p.wrapper) ∧
      (∀ p ∈ block.wrappings functions options, ∀ q ∈ block.wrappings functions options,
        (p.wrapper = q.wrapper ↔ p.expected = q.expected ∧ p.text = q.text) ∧
        (p.wrapper.name = q.wrapper.name → p.wrapper = q.wrapper)) ∧
      (compileBlock functions options block).module.wrapperFunctions.length =
        ((block.wrappings functions options).map fun p => (p.expected, p.text)).dedup.length := by
  have hshared : ∀ p ∈ block.wrappings functions options, ∀ q ∈ block.wrappings functions options,
      p.wrapper = q.wrapper ↔ p.expected = q.expected ∧ p.text = q.text := by
    intro p hp q hq
    constructor
    · intro h
      exact Block.key_eq_of_name_eq hfaithful hp hq (congrArg Signature.name h)
    · rintro ⟨htype, htext⟩
      exact Block.wrapper_eq_of_key_eq hfaithful hp hq htype htext
  refine ⟨?_, fun _ _ _ _ _ _ _ _ => Wrappings.promote_of_ok,
    fun p hp => ⟨Block.toTy_of_mem_wrappings hfaithful hp, ?_⟩,
    fun p hp q hq => ⟨hshared p hp q hq, fun hname => ?_⟩, ?_⟩
  · have hcompletes : Session.start.Completes (block.wrappings functions options)
        (block.session functions options) := Block.completes_session hfaithful
    rw [Compilation.promotions, Block.journal_compileBlock]
    exact hcompletes.told
  · exact Block.mem_functions_of_wrapper hfaithful (Block.wrapper?_of_mem_wrappings hfaithful hp)
  · exact (hshared p hp q hq).2 (Block.key_eq_of_name_eq hfaithful hp hq hname)
  · rw [← List.length_map Entry.signature, (Block.wrapperFunctions_perm hfaithful).length_eq]
    refine length_dedup_map_eq fun p hp q hq => ?_
    rw [hshared p hp q hq, Prod.mk.injEq]

/-- A block with a function that returns `k(5,5,5,h(5))`. -/
def sharingBlock : Block :=
  let five : Expr := .literal (.int 5) "5" default
  ⟨[.decl ⟨"f", default⟩
    [.ret (.call ⟨"k", default⟩ [five, five, five, .call ⟨"h", default⟩ [five] "h(5)" default]
      "k(5,5,5,h(5))" default) default] default]⟩

/-- The functions that `sharingBlock` refers to.  The third argument of `k` and the argument of `h` are
functions without parameters, the others of `k` take a real. -/
def sharingFunctions : FunctionTable :=
  .ofList [⟨"f", [], .int, "Main", false⟩,
    ⟨"k", [⟨"a", .fn [.real] .int⟩, ⟨"b", .fn [.real] .int⟩, ⟨"c", .fn [] .int⟩,
      ⟨"d", .fn [.real] .int⟩], .int, "Main", false⟩,
    ⟨"h", [⟨"a", .fn [] .int⟩], .int, "Main", true⟩]

theorem textFaithful_sharingBlock : sharingBlock.TextFaithful := by
  intro e he e' he' htext
  simp only [sharingBlock, Block.exprs, Stmt.exprsAll, Stmt.exprs, Expr.subexprs, Expr.subexprsAll,
    List.append_nil, List.cons_append, List.nil_append, List.mem_cons, List.not_mem_nil, or_false] at he he'
  rcases he with rfl | rfl | rfl | rfl | rfl | rfl <;>
    rcases he' with rfl | rfl | rfl | rfl | rfl | rfl <;> first | rfl | simp [Expr.text] at htext

/-- Of five promotions in `sharingBlock`, two are those of one text and type, and two others are those of
the same text and another type, one of which is in the code of the fifth wrapper.  The promotion of a `2`
is listed with what is pushed for it. -/
theorem wrappers_shared_sharingBlock :
    sharingBlock.TextFaithful ∧
      (sharingBlock.wrappings sharingFunctions {}).map (fun p => (p.wrapper.name, p.text)) =
        [("_lambda_0$constant", "5"), ("_lambda_0$constant", "5"), ("_lambda_1$constant", "5"),
          ("_lambda_1$constant", "5"), ("_lambda_2$constant", "h(5)")] ∧
      (∃ inner s w₁, Wrappings.promote constantContext constantTwo [.real] .int
          (Gen.value constantContext constantTwo) (Wrappings.expr constantContext constantTwo) constantStart =
            inner ++ [⟨.fn [.real] .int, "2", s⟩] ∧
        Gen.bindFunction s w₁ = (.ok (), constantRun.2)) ∧
      (compileBlock sharingFunctions {} sharingBlock).module.wrapperFunctions.length = 3 := by
  obtain ⟨htold, hlisted, -, -, hcount⟩ :=
    wrappers_shared sharingFunctions {} textFaithful_sharingBlock
  refine ⟨textFaithful_sharingBlock, ?_, hlisted _ _ _ _ _ _ _ _ constantRun_eq_ok, ?_⟩
  · rw [← htold]
    decide +kernel
  · rw [hcount]
    decide +kernel

end BlockCompiler
