import BlockCompiler.Proofs.Faults
import BlockCompiler.Proofs.Numbering
import BlockCompiler.Proofs.TypeAgreement

/-!
# What compiled once compiles again

An expression that was translated in one compilation can be compiled in another one, in another order
and with other functions made up before it.  Only the limit of nesting may be in the way, and that only
where a constant is wrapped: the code of its wrapper lies one level deeper than the constant itself.

* `Precedent` is what is known of the first compilation: which translations there are.
* `Attempt.FailsWithin` bounds the ways in which an attempt may fail.  The rest of a run is described by
  what the run wrote, such as `Gen.expr_wrote`.
* `Session.Excuses` is the bound.  An error excuses itself if it says that something nests too deeply and
  a wrapper was abandoned with it.  In the code of a wrapper the first half is enough.
* `Gen.excused_expr` is the induction on expressions, and `Gen.excused_body` the same for whole bodies.

Names are never in the way: `Session.Fresh` says that the names of numbers to come are free.
-/

namespace BlockCompiler

/-! ## Failures -/

namespace Attempt

variable {σ α β : Type}

/-- Whether an attempt fails from a state only with such errors, in such states. -/
def FailsWithin (E : CompileError → σ → Prop) (x : Attempt σ α) (s : σ) : Prop :=
  ∀ err s', x s = (.error err, s') → E err s'

section FailsWithin

variable {E : CompileError → σ → Prop} {x : Attempt σ α} {s : σ}

/-- The second step may count on a first one that succeeds. -/
theorem FailsWithin.bind {f : α → Attempt σ β} (hx : FailsWithin E x s)
    (hf : ∀ a s', x s = (.ok a, s') → FailsWithin E (f a) s') : FailsWithin E (x >>= f) s := by
  intro err s'' hrun
  rw [bind_run] at hrun
  split at hrun
  next a s' heq => exact hf a s' heq err s'' hrun
  next err' s' heq =>
    cases hrun
    exact hx err s'' heq

theorem FailsWithin.discard (h : FailsWithin E x s) : FailsWithin E (discard x) s :=
  h.bind fun _ _ _ _ _ hrun => nomatch hrun

theorem FailsWithin.ending {f : σ → σ} (h : FailsWithin (fun err s' => E err (f s')) x s) :
    FailsWithin E (ending x f) s := by
  intro err s'' hrun
  unfold Attempt.ending at hrun
  rcases heq : x s with ⟨r, s'⟩
  rw [heq] at hrun
  cases hrun
  exact h err s' heq

/-- A step that succeeds. -/
theorem failsWithin_of_ok {a : α} {s' : σ} (h : x s = (.ok a, s')) : FailsWithin E x s := by
  intro err s'' hrun
  rw [h] at hrun
  cases hrun

theorem failsWithin_ofExcept {r : Except CompileError α} (h : ∀ err, r = .error err → E err s) :
    FailsWithin E (ofExcept r) s := by
  intro err s' hrun
  cases hrun
  exact h err rfl

end FailsWithin

end Attempt

/-- Whether an error says that something nests too deeply, and either this is so to be expected or a
wrapper was abandoned with this error. -/
structure Session.Excuses (limit : Nat) (deep : Prop) (err : CompileError) (S : Session) : Prop where
  cause : err.cause = .nestingTooDeep limit
  wrapper : deep ∨ ∃ id, Event.abandoned (Gen.wrapperName id) err ∈ S.journal

theorem excuses_of_ensureDepth {limit depth : Nat} {deep : Prop} {span : Span} {err : CompileError}
    (hdepth : deep ∨ depth ≤ limit) (S : Session)
    (h : ensureDepth limit depth span = .error err) : S.Excuses limit deep err := by
  unfold ensureDepth at h
  split at h
  next hlt =>
    cases h
    exact ⟨rfl, .inl (hdepth.resolve_right (by omega))⟩
  next => cases h

/-! ## Free names -/

/-- Names are unique, and those of numbers to come are free. -/
structure Session.Fresh (S : Session) : Prop where
  nodup : S.registry.names.Nodup
  wrappers : ∀ id, S.nextId ≤ id → Gen.wrapperName id ∉ S.registry.names
  lambdas : ∀ id, S.nextId ≤ id → lambdaName id ∉ S.registry.names

theorem Gen.wrapperName_ne_lambdaName (id id' : Nat) : wrapperName id ≠ lambdaName id' := by
  intro hname
  refine dollar_not_mem_lambdaName id' ?_
  rw [← hname]
  simp [wrapperName, String.toList_append]

namespace Session

variable {S S' : Session}

/-- The names that are taken are old, or no numbers to come have them. -/
theorem Fresh.of_names (h : S.Fresh) (hnext : S.nextId ≤ S'.nextId) (hnodup : S'.registry.names.Nodup)
    (hnames : ∀ name ∈ S'.registry.names, name ∈ S.registry.names ∨
      ∀ id, S'.nextId ≤ id → name ≠ Gen.wrapperName id ∧ name ≠ lambdaName id) : S'.Fresh := by
  refine ⟨hnodup, fun id hid hmem => ?_, fun id hid hmem => ?_⟩
  · rcases hnames _ hmem with hold | hnew
    · exact h.wrappers id (hnext.trans hid) hold
    · exact (hnew id hid).1 rfl
  · rcases hnames _ hmem with hold | hnew
    · exact h.lambdas id (hnext.trans hid) hold
    · exact (hnew id hid).2 rfl

private theorem wrapperName_ne_of_ascending {lo hi : Nat} {ids : List Nat} (hids : Ascending lo hi ids)
    {name : String} (hname : name ∈ ids.map Gen.wrapperName) :
    ∀ id, hi ≤ id → name ≠ Gen.wrapperName id ∧ name ≠ lambdaName id := by
  obtain ⟨id', hid', rfl⟩ := List.mem_map.1 hname
  intro id hid
  refine ⟨fun heq => ?_, Gen.wrapperName_ne_lambdaName id' id⟩
  have := Gen.wrapperName_inj heq
  have := (hids.bounds id' hid').2
  omega

/-- Names stay free while expressions are compiled. -/
theorem Fresh.numbers (h : S.Fresh) (hnumbers : S.Numbers S') : S'.Fresh := by
  obtain ⟨ids, hids, hnames⟩ := hnumbers.wrappers h.nodup
  refine h.of_names hids.le (hnumbers.makesUp.nodup h.nodup) fun name hname => ?_
  rw [hnames, List.mem_append] at hname
  exact hname.imp_right (wrapperName_ne_of_ascending hids)

/-- A number may be handed out. -/
theorem Fresh.count (h : S.Fresh) : Fresh { S with nextId := S.nextId + 1 } :=
  h.of_names (Nat.le_succ _) h.nodup fun _ => .inl

/-- A name may be taken that is no name of numbers to come. -/
theorem Fresh.declare (h : S.Fresh) {s : Signature} {flags : EntryFlags} {site : Span} {r : Registry}
    (hdecl : S.registry.declare s flags site = .ok r)
    (hname : ∀ id, S.nextId ≤ id → s.name ≠ Gen.wrapperName id ∧ s.name ≠ lambdaName id) :
    Fresh ({ S with registry := r }.note (.declared s)) := by
  refine h.of_names (Nat.le_refl _) (Registry.nodup_declare hdecl h.nodup) fun name hmem => ?_
  have hmem : name ∈ r.names := hmem
  rw [Registry.names_declare hdecl, List.mem_append, List.mem_singleton] at hmem
  rcases hmem with hold | rfl
  · exact .inl hold
  · exact .inr hname

/-- Names are free after a function was compiled, unless its own name is one of numbers to come. -/
theorem Fresh.compileWith (h : S.Fresh) {s : Signature} {flags : EntryFlags} {site : Span} {depth : Nat}
    {body : Gen Unit} (hbody : Gen.KeepsSession Numbers body) {r : Except CompileError Unit}
    (hrun : compileWith s flags site depth body S = (r, S'))
    (hname : ∀ id, S.nextId ≤ id → s.name ≠ Gen.wrapperName id ∧ s.name ≠ lambdaName id) :
    S'.Fresh := by
  obtain ⟨ids, hids, hnames⟩ := compileWith_numbers hbody hrun h.nodup
  have hnodup : S'.registry.names.Nodup :=
    (compileWith_declared (fun w => (hbody w).makesUp) hrun).2.1 h.nodup
  refine h.of_names hids.le hnodup fun name hmem => ?_
  rcases hnames with ⟨_, -, hnames⟩ | ⟨-, -, hnames⟩ <;> rw [hnames, List.mem_append] at hmem
  · exact hmem.imp_right (wrapperName_ne_of_ascending hids)
  · rcases hmem with hold | hnew
    · exact .inl hold
    · rcases List.mem_cons.1 hnew with rfl | hnew
      · exact .inr fun id hid => hname id (hids.le.trans hid)
      · exact .inr (wrapperName_ne_of_ascending hids hnew)

end Session

/-! ## Constants -/

section Constants

variable {functions : FunctionTable} {lambdas wrappers : String → Option Signature} {scope : Scope}
  (scope' : Scope)

mutual

/-- The code of a constant does not depend on the arguments in scope. -/
theorem ExprCode.of_isConstantAt {maxDepth : Nat} : ∀ (e : Expr) {depth : Nat} {ms : List Emitted}
    {t? : Option Ty}, e.isConstantAt functions maxDepth depth = true →
      ExprCode ⟨functions, scope, lambdas, wrappers⟩ e ms t? →
        ExprCode ⟨functions, scope', lambdas, wrappers⟩ e ms t?
  | .literal value text span, _, _, _, _, h => by
    cases h
    exact .literal value text span
  | .pair _ _ _ _, _, _, _, hconst, _ | .var _, _, _, _, hconst, _
  | .placeholder _, _, _, _, hconst, _ | .lambda _ _ _, _, _, _, hconst, _ => nomatch hconst
  | .call callee args text span, depth, _, _, hconst, h => by
    simp only [Expr.isConstantAt, Bool.and_eq_true] at hconst
    cases h with
    | call _ _ hs harity hargs =>
      exact .call text span hs harity (ArgsCode.of_areConstantAt args hconst.2 hargs)

theorem ArgsCode.of_areConstantAt {maxDepth : Nat} : ∀ (es : List Expr) {depth : Nat}
    {ps : List Param} {ms : List Emitted}, Expr.areConstantAt functions maxDepth depth es = true →
      ArgsCode ⟨functions, scope, lambdas, wrappers⟩ ps es ms →
        ArgsCode ⟨functions, scope', lambdas, wrappers⟩ ps es ms
  | [], _, _, _, _, h => by
    cases h
    exact .nil
  | e :: es, depth, _, _, hconst, h => by
    simp only [Expr.areConstantAt, Bool.and_eq_true] at hconst
    cases h with
    | value he hes =>
      exact .value (he.map fun h => ExprCode.of_isConstantAt e hconst.1 h)
        (ArgsCode.of_areConstantAt es hconst.2 hes)
    | wrapped hp he hs hes =>
      refine .wrapped hp ?_ hs (ArgsCode.of_areConstantAt es hconst.2 hes)
      rw [← he]
      exact Expr.typeOf_eq_of_isConstantAt hconst.1 scope' scope

end

theorem OperandCode.of_isConstant {maxDepth : Nat} {e : Expr} {ms : List Emitted} {t : Ty}
    (hconst : e.isConstant functions maxDepth = true)
    (h : OperandCode ⟨functions, scope, lambdas, wrappers⟩ e ms t) :
    OperandCode ⟨functions, scope', lambdas, wrappers⟩ e ms t :=
  h.map fun h => ExprCode.of_isConstantAt scope' e hconst h

end Constants

theorem ArgsCode.length_eq {env : CodeEnv} {es : List Expr} {ps : List Param} {ms : List Emitted}
    (h : ArgsCode env ps es ms) : es.length = ps.length := by
  induction es generalizing ps ms with
  | nil =>
    cases h
    rfl
  | cons _ _ ih =>
    cases h with
    | value _ hes | wrapped _ _ _ hes => rw [List.length_cons, List.length_cons, ih hes]

/-! ## Precedents -/

/-- What a compilation of a block with faithful texts shows of the expressions in it.  None is too high,
and with the anonymous functions and the wrappers that there were in the end, the bodies of anonymous
functions and the wrapped constants have translations. -/
structure Precedent (block : Block) (functions : FunctionTable) (options : Options)
    (lambdas wrappers : String → Option Signature) : Prop where
  faithful : block.TextFaithful
  height : ∀ e ∈ block.exprs, e.height ≤ options.maxDepth
  lambda : ∀ {body text span}, Expr.lambda body text span ∈ block.exprs →
    ∃ ms t result, body.typeOf functions .empty = some result ∧ result.acceptsAssign t = true ∧
      OperandCode ⟨functions, .ofParams [lambdaParam], lambdas, wrappers⟩ body ms t
  constant : ∀ {e params result s}, e ∈ block.exprs →
    wrappers (Gen.wrapperKey (.fn params result) e.text) = some s →
      e.isConstant functions options.maxDepth = true ∧ params.length ≤ Scope.slotLimit ∧
        ∃ scope ms t, OperandCode ⟨functions, scope, lambdas, wrappers⟩ e ms t

/-- What a later compilation has in common with the one that set the precedent. -/
structure CodeContext.Follows (ctx : CodeContext) (block : Block)
    (lambdas wrappers : String → Option Signature) : Prop where
  fits : ctx.Fits block
  precedent : Precedent block ctx.functions ctx.options lambdas wrappers

namespace Gen

variable {ctx : CodeContext} {block : Block} {lambdas wrappers : String → Option Signature}
  {limit : Nat} {deep : Prop} {w : Workbench}

/-- Whether a step in the generation of code has an excuse if it fails. -/
abbrev Excused {α : Type} (limit : Nat) (deep : Prop) (x : Gen α) (w : Workbench) : Prop :=
  Attempt.FailsWithin (fun err w' => w'.session.Excuses limit deep err) x w

/-! ## Steps -/

theorem excused_frame : Excused limit deep frame w := Attempt.failsWithin_of_ok rfl

theorem excused_modifyFrame (f : Frame → Frame) : Excused limit deep (modifyFrame f) w :=
  Attempt.failsWithin_of_ok rfl

theorem excused_popTy {t : Ty} {ts : List Ty} (h : w.frame.operands.types = t :: ts)
    (context : String) (span : Span) : Excused limit deep (popTy context span) w := by
  intro err w' hrun
  simp [popTy, TypeStack.pop, h] at hrun

theorem excused_ensureNoOperands (h : w.frame.operands.types = []) (context : String) (span : Span) :
    Excused limit deep (ensureNoOperands context span) w := by
  intro err w' hrun
  simp [ensureNoOperands, TypeStack.ensureEmpty, TypeStack.isEmpty, h] at hrun

theorem excused_returnTop (t : Ty) : Excused limit deep (returnTop t) w :=
  Attempt.failsWithin_of_ok rfl

theorem excused_returnUnit : Excused limit deep returnUnit w :=
  Attempt.failsWithin_of_ok rfl

theorem infer_eq_of_typeOf (hctx : ctx.Follows block lambdas wrappers) {e : Expr}
    (he : e ∈ block.exprs) {t : Ty} (ht : e.typeOf ctx.functions w.frame.scope = some t) :
    infer ctx e w = (.ok t, w) := by
  have hheight : 0 + e.height ≤ ctx.options.maxDepth := by
    have := hctx.precedent.height e he
    omega
  have htyping : ∃ typing, e.infer ⟨ctx.functions, w.frame.scope, ctx.lambdas, ctx.options.maxDepth⟩ =
      .ok typing ∧ typing.ty = t := Expr.inferAt_of_typeOf e ht hheight
  obtain ⟨typing, hinfer, rfl⟩ := htyping
  simp only [infer, Attempt.bind_run, frame, Attempt.ofExcept, hinfer, Attempt.pure_run]

theorem excused_nested {span : Span} {x : Gen Unit}
    (hdepth : deep ∨ w.frame.depth ≤ ctx.options.maxDepth)
    (hx : Excused ctx.options.maxDepth deep x { w with frame.depth := w.frame.depth + 1 }) :
    Excused ctx.options.maxDepth deep (nested ctx span x) w := by
  refine .bind excused_frame fun fr w₁ hframe => ?_
  cases hframe
  refine .bind (Attempt.failsWithin_ofExcept fun err => excuses_of_ensureDepth hdepth w.session)
    fun _ w₂ hok => ?_
  obtain ⟨-, rfl⟩ := Attempt.ofExcept_eq_ok.1 hok
  refine .bind (excused_modifyFrame _) fun _ w₃ hdeeper => ?_
  cases hdeeper
  exact .ending hx

/-- An operand is taken once its code has left it. -/
theorem excused_operand {e : Expr} {code : Gen Unit} (hcode : Excused limit deep code w)
    (hwrote : ∀ {w₁}, code w = (.ok (), w₁) → ∃ ms t?, Wrote w w₁ ms (Option.toList t?)) :
    Excused limit deep (operand e code) w := by
  refine .bind excused_frame fun before w₁ hbefore => ?_
  cases hbefore
  refine .bind hcode fun _ w₁ hrun => .bind excused_frame fun fr w₂ hframe => ?_
  cases hframe
  obtain ⟨ms, t?, hwrote⟩ := hwrote hrun
  have htypes : w₁.frame.operands.types = t?.toList ++ w.frame.operands.types := by rw [hwrote.frame]
  split
  next =>
    refine .bind (excused_modifyFrame _) fun _ w₂ hemit => ?_
    cases hemit
    refine .bind (excused_modifyFrame _) fun _ w₃ hpush => ?_
    cases hpush
    exact excused_popTy rfl _ _
  next hsize =>
    cases t? with
    | none => exact absurd (by simp [TypeStack.size, htypes]) hsize
    | some t => exact excused_popTy htypes _ _

/-! ## Leaves -/

theorem excused_literal (value : Literal) : Excused limit deep (literal value) w := by
  intro err w' hrun
  cases value <;> cases hrun

theorem excused_bindFunction (s : Signature) : Excused limit deep (bindFunction s) w :=
  Attempt.failsWithin_of_ok rfl

theorem excused_reference {ident : Ident} {ms : List Emitted} {t? : Option Ty}
    (h : ExprCode ⟨ctx.functions, w.frame.scope, lambdas, wrappers⟩ (.var ident) ms t?) :
    Excused limit deep (reference ctx ident) w := by
  refine .bind excused_frame fun fr w₁ hframe => ?_
  cases hframe
  cases h with
  | arg hv =>
    dsimp only at hv
    simp only [hv]
    exact Attempt.failsWithin_of_ok rfl
  | function hv hs =>
    dsimp only at hv hs
    simp only [hv, hs]
    exact excused_bindFunction _

theorem excused_placeholder {span : Span} {ms : List Emitted} {t? : Option Ty}
    (h : ExprCode ⟨ctx.functions, w.frame.scope, lambdas, wrappers⟩ (.placeholder span) ms t?) :
    Excused limit deep (placeholder span) w := by
  refine .bind excused_frame fun fr w₁ hframe => ?_
  cases hframe
  cases h with
  | placeholder _ hv hreal =>
    dsimp only at hv
    simp only [hv, hreal, if_true]
    exact Attempt.failsWithin_of_ok rfl

theorem excused_lambda {text : String} (hknown : ∃ s, ctx.lambdas.get? text = some s) (span : Span) :
    Excused limit deep (lambda ctx text span) w := by
  obtain ⟨s, hs⟩ := hknown
  unfold lambda
  rw [hs]
  exact excused_bindFunction s

theorem excused_finishCall {s : Signature} {argCount : Nat} (h : argCount < 256) (text : String)
    (span : Span) : Excused limit deep (finishCall s argCount text span) w := by
  unfold finishCall
  rw [if_pos h]
  refine .bind (Attempt.failsWithin_of_ok rfl) fun _ w₁ _ => ?_
  split
  · exact Attempt.failsWithin_of_ok rfl
  · exact excused_modifyFrame _

/-! ## Functions -/

section Functions

variable {S : Session} {s : Signature} {flags : EntryFlags} {site : Span} {depth : Nat}

/-- The state in which the code between the labels of a function begins. -/
structure Begins (S : Session) (s : Signature) (depth : Nat) (w : Workbench) : Prop where
  session : w.session = S
  signature : w.frame.signature = s
  scope : w.frame.scope = .ofParams s.params
  operands : w.frame.operands.types = []
  depth : w.frame.depth = depth

/-- Parameters of different names get their slots, if there are enough. -/
theorem excused_declareParams : ∀ (ps : List Param) {w : Workbench}, (ps.map Param.name).Nodup →
    (∀ p ∈ ps, w.frame.scope.get? p.name = none) →
    w.frame.scope.size + ps.length ≤ Scope.slotLimit →
      Excused limit deep (declareParams ctx ps) w
  | [], _, _, _, _ => Attempt.failsWithin_of_ok rfl
  | p :: ps, w, hnames, hfree, hsize => by
    rw [List.length_cons] at hsize
    rw [List.map_cons, List.nodup_cons] at hnames
    have hdeclare : Excused limit deep (declareParam ctx p) w := by
      refine .bind excused_frame fun fr w₁ hframe => ?_
      cases hframe
      have hnew : p.name ∉ w.frame.scope.byName := by
        simpa [Scope.get?] using hfree p (by simp)
      have hslot : w.frame.scope.size < Scope.slotLimit := by omega
      have hrun : scope (Scope.declare p.name p.ty w.frame.signature.name w.frame.site) w =
          (.ok (UInt16.ofNat w.frame.scope.size),
            { w with frame.scope := w.frame.scope.push p.name p.ty }) := by
        simp [scope, Scope.declare, hnew, hslot]
      refine .bind (.discard (Attempt.failsWithin_of_ok hrun)) fun _ w₁ _ => ?_
      split
      · exact excused_modifyFrame _
      · exact Attempt.failsWithin_of_ok rfl
    refine .bind hdeclare fun _ w₁ hp => ?_
    obtain ⟨-, -, emitter, -, rfl⟩ := declareParam_eq_ok hp
    refine excused_declareParams ps hnames.2 (fun q hq => ?_) ?_
    · show (w.frame.scope.push p.name p.ty).get? q.name = none
      rw [Scope.get?_push, if_neg, hfree q (by simp [hq])]
      intro hname
      exact hnames.1 (hname ▸ List.mem_map_of_mem hq)
    · show (w.frame.scope.push p.name p.ty).size + ps.length ≤ Scope.slotLimit
      rw [Scope.size_push]
      omega

/-- Between its labels, a function fails as its code does. -/
theorem excused_framed {code : Gen Unit} (hnames : (s.params.map Param.name).Nodup)
    (harity : s.params.length ≤ Scope.slotLimit)
    (hcode : ∀ {w}, Begins S s depth w → Excused limit deep code w) :
    Excused limit deep (framed ctx code) ⟨S, .start s site depth⟩ := by
  refine .bind excused_frame fun fr w₁ hframe => ?_
  cases hframe
  have hstart : (Frame.start s site depth).scope.size = 0 := rfl
  refine .bind (excused_declareParams s.params hnames (fun p _ => Scope.get?_empty p.name) ?_)
    fun _ w₁ hparams => ?_
  · show (Frame.start s site depth).scope.size + s.params.length ≤ Scope.slotLimit
    rw [hstart]
    omega
  obtain ⟨-, -, -, emitter, -, rfl⟩ := declareParams_eq_ok hparams
  refine .bind (Attempt.failsWithin_of_ok rfl) fun start w₂ hlabel => ?_
  cases hlabel
  refine .bind (hcode ⟨rfl, rfl, rfl, rfl, rfl⟩) fun _ w₃ _ => ?_
  refine .bind (Attempt.failsWithin_of_ok rfl) fun stop w₄ _ => ?_
  split
  · exact excused_modifyFrame _
  · exact Attempt.failsWithin_of_ok rfl

theorem Begins.setLine {line : Nat} {w' : Workbench} (h : Begins S s depth w)
    (hrun : setLine ctx line w = (.ok (), w')) : Begins S s depth w' := by
  unfold Gen.setLine at hrun
  split at hrun <;> cases hrun
  · exact ⟨h.session, h.signature, h.scope, h.operands, h.depth⟩
  · exact h

theorem excused_setLine (line : Nat) : Excused limit deep (setLine ctx line) w := by
  unfold setLine
  split
  · exact excused_modifyFrame _
  · exact Attempt.failsWithin_of_ok rfl

theorem excused_returnValue (hctx : ctx.Follows block lambdas wrappers) {e : Expr}
    (he : e ∈ block.exprs) {text : String} {span : Span} (hvalue : Excused limit deep (value ctx e) w)
    (hempty : w.frame.operands.types = []) {t : Ty}
    (ht : e.typeOf ctx.functions w.frame.scope = some t)
    (haccepts : w.frame.signature.result.acceptsAssign t = true) :
    Excused limit deep (returnValue text span (value ctx e)) w := by
  refine .bind hvalue fun actual w₁ hrun => ?_
  obtain rfl := Option.some.inj (ht.symm.trans (typeOf_of_value hctx.fits he hrun))
  obtain ⟨ms, -, hwrote⟩ := value_wrote hctx.fits he hrun
  have hsame : w₁.frame.signature = w.frame.signature ∧ w₁.frame.operands.types = [] := by
    rw [hwrote.frame, hempty]
    exact ⟨rfl, rfl⟩
  refine .bind excused_frame fun fr w₂ hframe => ?_
  cases hframe
  dsimp only
  rw [hsame.1, if_pos haccepts]
  split
  · refine .bind excused_returnUnit fun _ w₂ hret => ?_
    cases hret
    refine excused_ensureNoOperands ?_ _ _
    exact hsame.2
  · refine .bind (excused_returnTop _) fun _ w₂ hret => ?_
    cases hret
    refine excused_ensureNoOperands ?_ _ _
    exact hsame.2

/-- A function that returns the value of an expression fails as the code of the expression does. -/
theorem excused_returnBody (hctx : ctx.Follows block lambdas wrappers) {e : Expr}
    (he : e ∈ block.exprs) {span : Span} (hnames : (s.params.map Param.name).Nodup)
    (harity : s.params.length ≤ Scope.slotLimit) {t : Ty}
    (ht : e.typeOf ctx.functions (.ofParams s.params) = some t)
    (haccepts : s.result.acceptsAssign t = true)
    (hvalue : ∀ {w}, Begins S s depth w → Excused limit deep (value ctx e) w) :
    Excused limit deep (returnBody ctx e.text span (value ctx e)) ⟨S, .start s site depth⟩ := by
  refine excused_framed hnames harity fun {w} h => ?_
  refine .bind (excused_setLine _) fun _ w₁ hline => ?_
  have h₁ := h.setLine hline
  rw [← h₁.scope] at ht
  rw [← h₁.signature] at haccepts
  exact excused_returnValue hctx he (hvalue h₁) h₁.operands ht haccepts

end Functions

end Gen

theorem Registry.mem_names_of_declare {r : Registry} {s : Signature} {flags : EntryFlags}
    {span : Span} {err : CompileError} (h : r.declare s flags span = .error err) : s.name ∈ r.names := by
  unfold declare at h
  split at h
  next htaken =>
    obtain ⟨e, he⟩ := Option.isSome_iff_exists.1 htaken
    rw [← name_of_get? he]
    exact List.mem_map_of_mem (List.mem_of_find?_eq_some he)
  next => cases h

/-- A function with a free name fails as its body does, and is abandoned with the error. -/
theorem Session.excuses_compileWith {limit : Nat} {deep : Prop} {S S' : Session} {s : Signature}
    {flags : EntryFlags} {site : Span} {depth : Nat} {body : Gen Unit} {err : CompileError}
    (hnumbers : Gen.KeepsSession Numbers body) (hfree : s.name ∉ S.registry.names)
    (hbody : ∀ {r}, S.registry.declare s flags site = .ok r →
      Gen.Excused limit deep body
        ⟨{ S with registry := r }.note (.declared s), .start s site depth⟩)
    (hrun : compileWith s flags site depth body S = (.error err, S')) :
    S'.Excuses limit deep err ∧ Event.abandoned s.name err ∈ S'.journal := by
  cases functionRun (fun w => (hnumbers w).makesUp.grows) hrun with
  | taken hdecl => exact absurd (Registry.mem_names_of_declare hdecl) hfree
  | @failed r w _ hdecl heq _ =>
    obtain ⟨hcause, hwrapper⟩ := hbody hdecl err w heq
    refine ⟨⟨hcause, hwrapper.imp_right fun ⟨id, hid⟩ => ⟨id, ?_⟩⟩, Array.mem_push_self⟩
    exact Array.mem_push_of_mem _ hid

namespace Gen

variable {ctx : CodeContext} {block : Block} {lambdas wrappers : String → Option Signature}

/-! ## Wrapped constants -/

theorem wrapperParamName_inj {i j : Nat} (h : wrapperParamName i = wrapperParamName j) : i = j := by
  have hnumber (n : Nat) : "_" ≠ "_" ++ toString n := by
    intro hname
    have hdigits : (toString n).toList = [] := by
      simpa [String.toList_append] using congrArg String.toList hname
    rw [show toString n = n.repr from rfl, Nat.toList_repr] at hdigits
    exact Nat.toDigits_ne_nil hdigits
  cases i with
  | zero =>
    cases j with
    | zero => rfl
    | succ j => exact absurd h (hnumber (j + 1))
  | succ i =>
    cases j with
    | zero => exact absurd h.symm (hnumber (i + 1))
    | succ j => exact toString_nat_inj ((String.append_right_inj _).1 h)

/-- The parameters of a wrapper have different names. -/
theorem nodup_wrapperSignature (id : Nat) (params : List Ty) (result : Ty) (owner : String) :
    ((wrapperSignature id params result owner).params.map Param.name).Nodup := by
  have hnames : (wrapperSignature id params result owner).params.map Param.name =
      (List.range params.length).map wrapperParamName := by
    apply List.ext_getElem
    · simp [wrapperSignature]
    · intro i h h'
      simp [wrapperSignature]
  rw [hnames]
  exact List.nodup_range.map fun _ _ => wrapperParamName_inj

section Arguments

variable {w : Workbench} {deep : Prop} (hctx : ctx.Follows block lambdas wrappers) {e : Expr}
  (he : e ∈ block.exprs)

/-- What is to be shown of the code of an expression: where the expression has a translation and does not
lie too deep, the code has an excuse if it fails. -/
def Repeats (ctx : CodeContext) (lambdas wrappers : String → Option Signature) (e : Expr)
    (code : Gen Ty) : Prop :=
  ∀ ⦃deep : Prop⦄ ⦃w ms t⦄, OperandCode ⟨ctx.functions, w.frame.scope, lambdas, wrappers⟩ e ms t →
    (deep ∨ w.frame.depth + e.height ≤ ctx.options.maxDepth) → w.session.Fresh →
      Excused ctx.options.maxDepth deep code w

variable (hvalue : Repeats ctx lambdas wrappers e (value ctx e))

include hctx he hvalue

/-- In a wrapper the code of a constant may be too deep, and nothing else is in the way. -/
theorem excused_wrapper {params : List Ty} {result : Ty} {s : Signature}
    (hs : wrappers (wrapperKey (.fn params result) e.text) = some s) {scope : Scope}
    (ht : e.typeOf ctx.functions scope = some result) {S : Session} (hfresh : S.Fresh)
    (id depth : Nat) :
    Excused ctx.options.maxDepth True (returnBody ctx e.text e.span (value ctx e))
      ⟨S, .start (wrapperSignature id params result ctx.options.owner) e.span depth⟩ := by
  obtain ⟨hconst, hslots, scope', ms, t, hms⟩ := hctx.precedent.constant he hs
  have hslots' : (wrapperSignature id params result ctx.options.owner).params.length ≤
      Scope.slotLimit := by simpa [wrapperSignature] using hslots
  rw [Expr.typeOf_eq_of_isConstantAt hconst scope (.ofParams
    (wrapperSignature id params result ctx.options.owner).params)] at ht
  have haccepts : result.acceptsAssign result = true := by simp [Ty.acceptsAssign]
  refine excused_returnBody hctx he (nodup_wrapperSignature _ _ _ _) hslots' ht haccepts
    fun {w} h => ?_
  have hcode := hms.of_isConstant w.frame.scope hconst
  rw [← h.session] at hfresh
  exact hvalue hcode (.inl trivial) hfresh

/-- A constant that was wrapped before can be wrapped again, if it does not lie too deep. -/
theorem excused_promote {params : List Ty} {result : Ty} {s : Signature}
    (hs : wrappers (wrapperKey (.fn params result) e.text) = some s)
    (ht : e.typeOf ctx.functions w.frame.scope = some result) (hfresh : w.session.Fresh) :
    Excused ctx.options.maxDepth deep (promote ctx e params result (value ctx e)) w := by
  intro err w' hrun
  cases promotion hrun with
  | reused _ hbind | wrapped _ _ _ _ hbind => cases hbind
  | refused _ hrefused =>
    rw [Expr.ensureConstant_eq_ok.2 (hctx.precedent.constant he hs).1] at hrefused
    cases hrefused
  | failed _ _ hs' hcompile =>
    subst hs'
    have hname (id : Nat) (hid : w.session.nextId + 1 ≤ id) :
        wrapperName w.session.nextId ≠ wrapperName id ∧ wrapperName w.session.nextId ≠ lambdaName id := by
      refine ⟨fun heq => ?_, wrapperName_ne_lambdaName _ id⟩
      have := wrapperName_inj heq
      omega
    have hfree := hfresh.wrappers w.session.nextId (Nat.le_refl _)
    obtain ⟨⟨hcause, -⟩, hevent⟩ := Session.excuses_compileWith
      ((stable_numbers ctx block).value he).returnBody hfree
      (fun hdecl => excused_wrapper hctx he hvalue hs ht (hfresh.count.declare hdecl hname) _ _) hcompile
    exact ⟨hcause, .inr ⟨w.session.nextId, hevent⟩⟩

theorem excused_argument {callee : Signature} {position : Nat} {formal : Param} {ps : List Param}
    {es : List Expr} {ms : List Emitted}
    (hargs : ArgsCode ⟨ctx.functions, w.frame.scope, lambdas, wrappers⟩ (formal :: ps) (e :: es) ms)
    (hdepth : deep ∨ w.frame.depth + e.height ≤ ctx.options.maxDepth) (hfresh : w.session.Fresh) :
    Excused ctx.options.maxDepth deep
      (argument ctx callee position formal e (value ctx e)) w := by
  generalize hps : formal :: ps = ps' at hargs
  cases hargs with
  | value hms _ =>
    obtain ⟨rfl, rfl⟩ := List.cons.inj hps
    have hinfer := infer_eq_of_typeOf hctx he hms.typeOf
    refine .bind (Attempt.failsWithin_of_ok hinfer) fun actual w₁ hrun => ?_
    cases hinfer.symm.trans hrun
    dsimp only
    rw [if_pos rfl]
    exact (hvalue hms hdepth hfresh).discard
  | @wrapped _ _ _ _ _ params result s hp ht hs _ =>
    obtain ⟨rfl, rfl⟩ := List.cons.inj hps
    have hinfer := infer_eq_of_typeOf hctx he ht
    refine .bind (Attempt.failsWithin_of_ok hinfer) fun actual w₁ hrun => ?_
    cases hinfer.symm.trans hrun
    have hne : result ≠ .fn params result := fun heq => by
      have := congrArg sizeOf heq
      simp only [Ty.fn.sizeOf_spec] at this
      omega
    dsimp only
    rw [hp] at hs ⊢
    dsimp only
    rw [if_neg hne, if_pos rfl]
    refine .bind (excused_promote hctx he hvalue hs ht hfresh) fun _ w₁ hpromote => ?_
    obtain ⟨s', -, hwrote⟩ := wrote_promote hctx.fits.faithful he ht hpromote
    have htypes : w₁.frame.operands.types = s'.toTy :: w.frame.operands.types := by
      rw [hwrote.frame]
      rfl
    exact (excused_popTy htypes _ _).discard

end Arguments

/-! ## Expressions -/

theorem excused_pair (hctx : ctx.Follows block lambdas wrappers) {first second : Expr} {span : Span}
    (hfirst : first ∈ block.exprs) (hsecond : second ∈ block.exprs)
    (hvalue : Repeats ctx lambdas wrappers first (value ctx first))
    (hvalue' : Repeats ctx lambdas wrappers second (value ctx second)) {deep : Prop} {w : Workbench}
    {ms ns : List Emitted} {t : Ty}
    (hms : OperandCode ⟨ctx.functions, w.frame.scope, lambdas, wrappers⟩ first ms t)
    (hns : OperandCode ⟨ctx.functions, w.frame.scope, lambdas, wrappers⟩ second ns t)
    (hdepth : deep ∨ w.frame.depth + max first.height second.height ≤ ctx.options.maxDepth)
    (hfresh : w.session.Fresh) :
    Excused ctx.options.maxDepth deep
      (pair ctx first second span (value ctx first) (value ctx second)) w := by
  have hinfer := infer_eq_of_typeOf hctx hfirst hms.typeOf
  have hinfer' := infer_eq_of_typeOf hctx hsecond hns.typeOf
  have hpaired : Ty.pairOf t t span = .ok t.paired := Ty.pairOf_eq_ok.2 ⟨rfl, rfl⟩
  refine .bind (Attempt.failsWithin_of_ok hinfer) fun a w₁ hrun => ?_
  cases hinfer.symm.trans hrun
  refine .bind (Attempt.failsWithin_of_ok hinfer') fun b w₁ hrun => ?_
  cases hinfer'.symm.trans hrun
  rw [hpaired]
  refine .bind (Attempt.failsWithin_of_ok rfl) fun ty w₁ hty => ?_
  cases hty
  refine .bind (excused_modifyFrame _) fun _ w₁ hnew => ?_
  cases hnew
  refine .bind (excused_modifyFrame _) fun _ w₁ hdup => ?_
  cases hdup
  refine .bind (.discard (hvalue hms (hdepth.imp_right fun h => ?_) hfresh)) fun _ w₁ hx => ?_
  · show w.frame.depth + first.height ≤ ctx.options.maxDepth
    omega
  obtain ⟨t', hx⟩ := Attempt.discard_eq_ok.1 hx
  obtain ⟨ms', -, hwrote⟩ := value_wrote hctx.fits hfirst hx
  have hnumbers := ((stable_numbers ctx block).value hfirst).of_run hx
  have hfresh₁ : w₁.session.Fresh := hfresh.numbers hnumbers
  have hns₁ : OperandCode ⟨ctx.functions, w₁.frame.scope, lambdas, wrappers⟩ second ns t := by
    rw [hwrote.frame]
    exact hns
  have hdepth₁ : w₁.frame.depth = w.frame.depth := by rw [hwrote.frame]
  refine .bind (.discard (hvalue' hns₁ (hdepth.imp_right fun h => ?_) hfresh₁)) fun _ w₂ _ => ?_
  · rw [hdepth₁]
    omega
  exact .bind (excused_modifyFrame _) fun _ w₃ _ => excused_modifyFrame _

section Expressions

variable (hctx : ctx.Follows block lambdas wrappers)

include hctx

theorem repeats_operand {e : Expr} (he : e ∈ block.exprs)
    (hcode : ∀ {deep : Prop} {w ms t?}, ExprCode ⟨ctx.functions, w.frame.scope, lambdas, wrappers⟩ e ms t? →
      (deep ∨ w.frame.depth + e.height ≤ ctx.options.maxDepth) → w.session.Fresh →
        Excused ctx.options.maxDepth deep (expr ctx e) w) :
    Repeats ctx lambdas wrappers e (value ctx e) := by
  intro deep w ms t hms hdepth hfresh
  refine excused_operand ?_ fun hrun => ?_
  · cases hms with
    | value h | unit h => exact hcode h hdepth hfresh
  · obtain ⟨ms', t?, -, hwrote⟩ := expr_wrote hctx.fits e he hrun
    exact ⟨ms', t?, hwrote⟩

mutual

/-- An expression that has a translation, and is not too deep, has an excuse if it fails. -/
theorem excused_expr : ∀ e ∈ block.exprs, ctx.lambdas.Covers e.subexprs → ∀ {deep : Prop} {w ms t?},
    ExprCode ⟨ctx.functions, w.frame.scope, lambdas, wrappers⟩ e ms t? →
      (deep ∨ w.frame.depth + e.height ≤ ctx.options.maxDepth) → w.session.Fresh →
        Excused ctx.options.maxDepth deep (expr ctx e) w
  | .literal value _ _, _, _, _, _, _, _, _, hdepth, _ => excused_nested hdepth (excused_literal value)
  | .var _, _, _, _, _, _, _, h, hdepth, _ => excused_nested hdepth (excused_reference h)
  | .placeholder _, _, _, _, _, _, _, h, hdepth, _ => excused_nested hdepth (excused_placeholder h)
  | .lambda body _ span, _, hcovers, _, w, _, _, _, hdepth, _ => by
    refine excused_nested (hdepth.imp_right fun h => ?_)
      (excused_lambda (hcovers (Expr.mem_subexprs_self _)) span)
    omega
  | .pair first second _ _, he, hcovers, _, w, _, _, h, hdepth, hfresh => by
    rw [Expr.height] at hdepth
    have hfirst := Block.first_mem_exprs he
    have hsecond := Block.second_mem_exprs he
    have hcovers₁ : ctx.lambdas.Covers first.subexprs :=
      hcovers.of_subset fun _ he' => by simp [Expr.subexprs, he']
    have hcovers₂ : ctx.lambdas.Covers second.subexprs :=
      hcovers.of_subset fun _ he' => by simp [Expr.subexprs, he']
    cases h with
    | pair _ _ hms hns =>
      refine excused_nested (hdepth.imp_right fun h => by omega) ?_
      refine excused_pair hctx hfirst hsecond
        (repeats_operand hctx hfirst fun h => excused_expr first hfirst hcovers₁ h)
        (repeats_operand hctx hsecond fun h => excused_expr second hsecond hcovers₂ h)
        hms hns (hdepth.imp_right fun h => ?_) hfresh
      show w.frame.depth + 1 + max first.height second.height ≤ ctx.options.maxDepth
      omega
  | .call ident args text span, he, hcovers, _, w, _, _, h, hdepth, hfresh => by
    rw [Expr.height] at hdepth
    have hcovers' : ctx.lambdas.Covers (Expr.subexprsAll args) :=
      hcovers.of_subset fun _ he' => by simp [Expr.subexprs, he']
    cases h with
    | @call _ _ s _ _ _ hs harity hargs =>
      have hcount := hargs.length_eq
      refine excused_nested (hdepth.imp_right fun h => by omega) ?_
      have hcallee : Gen.callee ctx ident args.length span
          ({ w with frame.depth := w.frame.depth + 1 } : Workbench) =
          (.ok s, { w with frame.depth := w.frame.depth + 1 }) := by
        have hresolve : resolve ctx.functions ident = .ok s := Expr.resolve_eq_ok.2 hs
        have harity : args.length = s.arity := hcount
        simp only [Gen.callee, Attempt.bind_run, Attempt.ofExcept, hresolve, harity, if_true,
          Attempt.pure_run]
      refine .bind (Attempt.failsWithin_of_ok hcallee) fun s' w₁ hrun => ?_
      cases hcallee.symm.trans hrun
      refine .bind ?_ fun _ w₂ _ => ?_
      · refine excused_arguments args (fun _ => Block.arg_mem_exprs he) hcovers' hargs
          (hdepth.imp_right fun h => ?_) hfresh
        show w.frame.depth + 1 + Expr.heightAll args ≤ ctx.options.maxDepth + 1
        omega
      · rw [hcount]
        exact excused_finishCall harity text span

theorem excused_arguments : ∀ es : List Expr, (∀ e ∈ es, e ∈ block.exprs) →
    ctx.lambdas.Covers (Expr.subexprsAll es) → ∀ {deep : Prop} {s : Signature} {position : Nat}
      {ps : List Param} {w ms}, ArgsCode ⟨ctx.functions, w.frame.scope, lambdas, wrappers⟩ ps es ms →
        (deep ∨ w.frame.depth + Expr.heightAll es ≤ ctx.options.maxDepth + 1) → w.session.Fresh →
          Excused ctx.options.maxDepth deep (arguments ctx s position ps es) w
  | [], _, _, _, _, _, _, _, _, _, _, _ => Attempt.failsWithin_of_ok rfl
  | e :: es, hes, hcovers, deep, s, position, [], w, _, h, _, _ => nomatch h
  | e :: es, hes, hcovers, deep, s, position, p :: ps, w, _, h, hdepth, hfresh => by
    have he := hes e (by simp)
    rw [Expr.heightAll] at hdepth
    have hvalue : Repeats ctx lambdas wrappers e (value ctx e) :=
      repeats_operand hctx he fun h => excused_expr e he
        (hcovers.of_subset fun _ he' => by simp [Expr.subexprsAll, he']) h
    refine .bind (excused_argument hctx he hvalue h (hdepth.imp_right fun h => by omega) hfresh)
      fun _ w₁ hrun => ?_
    obtain ⟨ms', hwrote, -⟩ := wrote_argument hctx.fits he hrun (value_wrote hctx.fits he)
    have hstable := stable_numbers ctx block
    have hnumbers := (hstable.argument he (hstable.value he) s position p).of_run hrun
    have hrest : ∃ ns, ArgsCode ⟨ctx.functions, w₁.frame.scope, lambdas, wrappers⟩ ps es ns := by
      rw [hwrote.frame]
      cases h with
      | value _ hes | wrapped _ _ _ hes => exact ⟨_, hes⟩
    obtain ⟨ns, hrest⟩ := hrest
    have hdepth₁ : w₁.frame.depth = w.frame.depth := by rw [hwrote.frame]
    refine excused_arguments es (fun e' he' => hes e' (by simp [he']))
      (hcovers.of_subset fun _ he' => by simp [Expr.subexprsAll, he']) hrest
      (hdepth.imp_right fun h => ?_) (hfresh.numbers hnumbers)
    rw [hdepth₁]
    omega

end

/-- The same for an expression whose value is wanted. -/
theorem repeats_value {e : Expr} (he : e ∈ block.exprs) (hcovers : ctx.lambdas.Covers e.subexprs) :
    Repeats ctx lambdas wrappers e (value ctx e) :=
  repeats_operand hctx he fun h => excused_expr hctx e he hcovers h

end Expressions

/-! ## Bodies -/

/-- What the last expression left can be returned if its type is accepted. -/
theorem excused_returnLeft {limit : Nat} {deep : Prop} {w : Workbench} {span : Span} {t? : Option Ty}
    (htypes : w.frame.operands.types = t?.toList)
    (haccepts : w.frame.signature.result.acceptsAssign (t?.getD .unit) = true) :
    Excused limit deep (returnLeft span) w := by
  simp only [Ty.acceptsAssign, Ty.acceptsDiscarding, Bool.or_eq_true, beq_iff_eq] at haccepts
  refine .bind excused_frame fun fr w₁ hframe => ?_
  cases hframe
  dsimp only
  cases t? with
  | none =>
    have hunit : w.frame.signature.result.isUnit = true :=
      haccepts.elim (fun heq => by rw [heq]; rfl) id
    rw [htypes, Option.toList_none]
    dsimp only
    rw [if_pos hunit]
    exact .bind (excused_modifyFrame _) fun _ _ _ => excused_returnTop _
  | some t =>
    rw [htypes, Option.toList_some]
    refine .bind (excused_popTy htypes _ _) fun actual w₁ hpop => ?_
    have hactual : actual = t := by
      simp only [popTy, TypeStack.pop, htypes, Option.toList_some, Prod.mk.injEq, Except.ok.injEq] at hpop
      exact hpop.1.symm
    split
    · exact excused_returnTop _
    next hne =>
      have hunit : w.frame.signature.result.acceptsDiscarding = true :=
        haccepts.resolve_left fun heq => hne (by rw [hactual, heq]; rfl)
      rw [if_pos hunit]
      exact excused_returnUnit

section Bodies

variable {S : Session} {s : Signature} {deep : Prop}

/-- After a statement whose values were dropped, the next one begins as the first one did. -/
theorem Begins.drop {depth : Nat} {w w₁ w' : Workbench} {ms : List Emitted} {ts : List Ty}
    (h : Begins S s depth w) (hwrote : Wrote w w₁ ms ts) (hdrop : dropOperands w₁ = (.ok (), w')) :
    Begins w₁.session s depth w' := by
  cases hdrop
  refine ⟨rfl, ?_, ?_, rfl, ?_⟩
  · show w₁.frame.signature = s
    rw [hwrote.frame, ← h.signature]
  · show w₁.frame.scope = .ofParams s.params
    rw [hwrote.frame, ← h.scope]
  · show w₁.frame.depth = depth
    rw [hwrote.frame, ← h.depth]

variable (hctx : ctx.Follows block lambdas wrappers)

include hctx

/-- An expression with a translation does, as a part of a body, not lie too deep. -/
theorem excused_stmt_expr {e : Expr} (he : e ∈ block.exprs) (hcovers : ctx.lambdas.Covers e.subexprs)
    {w : Workbench} (h : Begins S s 0 w) (hfresh : S.Fresh) {ms : List Emitted} {t? : Option Ty}
    (hms : ExprCode ⟨ctx.functions, .ofParams s.params, lambdas, wrappers⟩ e ms t?) :
    Excused ctx.options.maxDepth deep (expr ctx e) w := by
  have hheight := hctx.precedent.height e he
  rw [← h.scope] at hms
  rw [← h.session] at hfresh
  refine excused_expr hctx e he hcovers hms (.inr ?_) hfresh
  rw [h.depth]
  omega

theorem excused_stmt_ret {e : Expr} (he : e ∈ block.exprs) (hcovers : ctx.lambdas.Covers e.subexprs)
    {w : Workbench} (h : Begins S s 0 w) (hfresh : S.Fresh) {ms : List Emitted} {t : Ty}
    (hms : OperandCode ⟨ctx.functions, .ofParams s.params, lambdas, wrappers⟩ e ms t)
    (haccepts : s.result.acceptsAssign t = true) (span : Span) :
    Excused ctx.options.maxDepth deep (returnValue e.text span (value ctx e)) w := by
  have hheight := hctx.precedent.height e he
  rw [← h.scope] at hms
  rw [← h.session] at hfresh
  rw [← h.signature] at haccepts
  refine excused_returnValue hctx he (repeats_value hctx he hcovers hms (.inr ?_) hfresh) h.operands
    hms.typeOf haccepts
  rw [h.depth]
  omega

/-- The value of the last expression is returned if it is of the right type. -/
theorem excused_stmt_last {e : Expr} (he : e ∈ block.exprs) {w w' : Workbench} {t : Ty}
    (h : Begins S s 0 w) (hrun : expr ctx e w = (.ok (), w'))
    (htype : e.typeOf ctx.functions (.ofParams s.params) = some t)
    (haccepts : s.result.acceptsAssign t = true) (span : Span) :
    Excused ctx.options.maxDepth deep (returnLeft span) w' := by
  obtain ⟨ns, t?, hns, hwrote⟩ := expr_wrote hctx.fits e he hrun
  have htypes : w'.frame.operands.types = t?.toList := by
    rw [hwrote.frame]
    simp [h.operands]
  have hleft : e.typeOf ctx.functions w'.frame.scope = some (t?.getD .unit) := ExprCode.typeOf e hns
  rw [hwrote.frame] at hleft
  dsimp only at hleft
  rw [h.scope, htype] at hleft
  refine excused_returnLeft htypes ?_
  rw [hwrote.frame, ← Option.some.inj hleft]
  show w.frame.signature.result.acceptsAssign t = true
  rw [h.signature, haccepts]

/-- The statements of a body that has a translation have an excuse if they fail. -/
theorem excused_stmts : ∀ (ss : List Stmt) {ms : List Emitted},
    BodyCode ⟨ctx.functions, .ofParams s.params, lambdas, wrappers⟩ s.result ss ms →
    (∀ e ∈ Stmt.exprsAll ss, e ∈ block.exprs) → ctx.lambdas.Covers (Stmt.exprsAll ss) →
      ∀ {S w}, Begins S s 0 w → S.Fresh → Excused ctx.options.maxDepth deep (stmts ctx ss) w
  | [], _, hms, _, _, S, w, h, _ => by
    refine .bind excused_frame fun fr w₁ hframe => ?_
    cases hframe
    cases hms with
    | empty hresult =>
      have haccepts : w.frame.signature.result.acceptsAssign ((none : Option Ty).getD .unit) = true := by
        rw [h.signature, hresult]
        rfl
      exact excused_returnLeft (by rw [h.operands]; rfl) haccepts
  | st :: rest, _, hms, hss, hcovers, S, w, h, hfresh => by
    have hstable := stable_numbers ctx block
    refine .bind (excused_setLine _) fun _ w₁ hline => ?_
    have h₁ := h.setLine hline
    have hcoversHead : ctx.lambdas.Covers st.exprs :=
      hcovers.of_subset fun _ he => List.mem_append_left _ he
    have hfresh₁ : w₁.session.Fresh := by
      rw [h₁.session]
      exact hfresh
    have hnext {ns ns' : List Emitted} {ts : List Ty}
        (hns : BodyCode ⟨ctx.functions, .ofParams s.params, lambdas, wrappers⟩ s.result rest ns)
        {w₂ : Workbench} (hwrote : Wrote w₁ w₂ ns' ts) (hnumbers : w₁.session.Numbers w₂.session) :
        Excused ctx.options.maxDepth deep (do dropOperands; stmts ctx rest) w₂ := by
      refine .bind (Attempt.failsWithin_of_ok rfl) fun _ w₃ hdrop => ?_
      exact excused_stmts rest hns (fun e he => hss e (List.mem_append_right _ he))
        (hcovers.of_subset fun _ he => List.mem_append_right _ he) (h₁.drop hwrote hdrop)
        (hfresh₁.numbers hnumbers)
    cases hms with
    | @ret e ms t span hms ht =>
      have he : e ∈ block.exprs := hss e (List.mem_append_left _ e.mem_subexprs_self)
      refine .bind (excused_stmt_ret hctx he hcoversHead h₁ hfresh hms ht span) fun _ w₂ _ => ?_
      exact Attempt.failsWithin_of_ok rfl
    | @last e ms t hms ht =>
      have he : e ∈ block.exprs := hss e (List.mem_append_left _ e.mem_subexprs_self)
      obtain ⟨_, _, hcode⟩ : ∃ ns t?, ExprCode ⟨ctx.functions, .ofParams s.params, lambdas, wrappers⟩
          e ns t? := by
        cases hms with
        | value hms | unit hms => exact ⟨_, _, hms⟩
      refine .bind (excused_stmt_expr hctx he hcoversHead h₁ hfresh hcode) fun _ w₂ hrun => ?_
      exact excused_stmt_last hctx he h₁ hrun hms.typeOf ht _
    | @retThen e ms ns t st' ss span hms ht hns =>
      have he : e ∈ block.exprs := hss e (List.mem_append_left _ e.mem_subexprs_self)
      refine .bind (excused_stmt_ret hctx he hcoversHead h₁ hfresh hms ht span) fun _ w₂ hrun => ?_
      obtain ⟨_, _, -, -, hwrote⟩ := wrote_returnValue hrun (value_wrote hctx.fits he)
      exact hnext hns hwrote ((hstable.value he).returnValue.of_run hrun)
    | @exprThen e ms ns t? st' ss hms hns =>
      have he : e ∈ block.exprs := hss e (List.mem_append_left _ e.mem_subexprs_self)
      refine .bind (excused_stmt_expr hctx he hcoversHead h₁ hfresh hms) fun _ w₂ hrun => ?_
      obtain ⟨_, _, -, hwrote⟩ := expr_wrote hctx.fits e he hrun
      exact hnext hns hwrote ((hstable.expr e he).of_run hrun)

/-- A body that has a translation has an excuse if it fails. -/
theorem excused_body {ss : List Stmt} {ms : List Emitted} {site : Span}
    (hnames : (s.params.map Param.name).Nodup) (harity : s.params.length ≤ Scope.slotLimit)
    (hms : BodyCode ⟨ctx.functions, .ofParams s.params, lambdas, wrappers⟩ s.result ss ms)
    (hss : ∀ e ∈ Stmt.exprsAll ss, e ∈ block.exprs) (hcovers : ctx.lambdas.Covers (Stmt.exprsAll ss))
    (hfresh : S.Fresh) : Excused ctx.options.maxDepth deep (body ctx ss) ⟨S, .start s site 0⟩ :=
  excused_framed hnames harity fun h => excused_stmts hctx ss hms hss hcovers h hfresh

end Bodies

end Gen

end BlockCompiler
