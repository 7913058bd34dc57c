import BlockCompiler.Proofs.Additions

/-!
# Two ways to return a value

A body may end in a return statement, or in an expression whose value is returned.  The two are compiled by
different steps: a return statement takes its value as an operand, which is there even after a call that
gives none, and a body that ends otherwise returns what its last statement left.

* `Gen.returnValue_eq` and `Gen.returnValue_unitCall` compare the steps after one expression: they are the
  same, unless the expression is a call that gives no value and a value has to be returned.
* `Gen.stmts_append` takes the last statement off a body, and `Gen.Endings` compares whole bodies.
* `return_forms_agree` is the result for functions.
-/

namespace BlockCompiler

namespace Gen

variable {ctx : CodeContext} {e : Expr} {w w' : Workbench}

/-! ## One expression -/

/-- Whether a bare call of a function without a value stands where a value has to be returned. -/
def LacksValue (ctx : CodeContext) (s : Signature) (e : Expr) : Prop :=
  e.CallsUnit ctx.functions ∧ s.result ≠ .unit

theorem value_of_error {err : CompileError} (h : expr ctx e w = (.error err, w')) :
    value ctx e w = (.error err, w') := by
  simp only [value, operand, Attempt.bind_run, frame, h]

/-- The value that carries nothing takes the place of one that is missing. -/
theorem value_of_none (h : expr ctx e w = (.ok (), w')) (hbefore : w.frame.operands.types = [])
    (hafter : w'.frame.operands.types = []) :
    value ctx e w = (.ok .unit, { w' with frame.emitter := w'.frame.emitter.unit }) := by
  have hsize : w'.frame.operands.size = w.frame.operands.size := by
    rw [TypeStack.size, TypeStack.size, hbefore, hafter]
  have hoperands : (⟨[]⟩ : TypeStack) = w'.frame.operands := by rw [← hafter]
  simp only [value, operand, Attempt.bind_run, frame, h, hsize, if_true, emit, pushTy, modifyFrame,
    Attempt.modify, popTy, TypeStack.push, TypeStack.pop, hafter, hoperands]

/-- A value that is there is taken. -/
theorem value_of_single {t : Ty} (h : expr ctx e w = (.ok (), w')) (hbefore : w.frame.operands.types = [])
    (hafter : w'.frame.operands.types = [t]) :
    value ctx e w = (.ok t, { w' with frame.operands := ⟨[]⟩ }) := by
  have hsize : ¬w'.frame.operands.size = w.frame.operands.size := by
    rw [TypeStack.size, TypeStack.size, hbefore, hafter]
    simp
  simp only [value, operand, Attempt.bind_run, frame, h, if_neg hsize, popTy, TypeStack.pop, hafter]

theorem ensureNoOperands_of_empty (h : w.frame.operands.types = []) (text : String) (span : Span) :
    ensureNoOperands text span w = (.ok (), w) := by
  simp [ensureNoOperands, TypeStack.ensureEmpty, TypeStack.isEmpty, h]

/-- A return statement after its value. -/
theorem returnValue_of_value {t : Ty} (h : value ctx e w = (.ok t, w'))
    (hempty : w'.frame.operands.types = []) (text : String) (span : Span) :
    returnValue text span (value ctx e) w =
      if w'.frame.signature.result.acceptsAssign t then
        (if w'.frame.signature.result.isUnit && !t.isUnit then returnUnit
          else returnTop w'.frame.signature.result) w'
      else failReturn w'.frame.signature t span w' := by
  have hensure (code : Gen Unit) (hcode : code w' = (.ok (), (code w').2))
      (hsame : (code w').2.frame.operands.types = []) :
      (code >>= fun _ => ensureNoOperands text span) w' = code w' := by
    rw [Attempt.bind_run, hcode]
    exact ensureNoOperands_of_empty hsame text span
  simp only [returnValue, Attempt.bind_run, h, frame]
  split
  · split
    · exact hensure returnUnit rfl hempty
    · exact hensure (returnTop _) rfl hempty
  · rfl

/-- What an expression leaves is returned as by a return statement, unless there is nothing to return. -/
theorem returnValue_eq (hempty : w.frame.operands.types = [])
    (hlacks : (expr ctx e w).1 = .ok () → ¬LacksValue ctx w.frame.signature e) :
    returnValue e.text e.span (value ctx e) w = (expr ctx e >>= fun _ => returnLeft e.span) w := by
  rcases hrun : expr ctx e w with ⟨err | _, w₁⟩
  · have hvalue := value_of_error hrun
    simp only [returnValue, Attempt.bind_run, hvalue, hrun]
  obtain ⟨ms, ts, hadded, hadds⟩ := expr_added e hrun
  have htypes : w₁.frame.operands.types = ts := by rw [hadded.types, hempty, List.append_nil]
  rw [Attempt.bind_run, hrun]
  dsimp only
  match ts, htypes, hadds.single, hadds.none_iff with
  | [], htypes, _, hnone =>
    have hunit : w₁.frame.signature.result = .unit := by
      by_contra hresult
      rw [hadded.signature] at hresult
      exact hlacks (congrArg Prod.fst hrun) ⟨hnone.1 rfl, hresult⟩
    rw [returnValue_of_value (value_of_none hrun hempty htypes) htypes]
    simp only [returnLeft, Attempt.bind_run, frame, htypes, hunit]
    rfl
  | [t], htypes, _, _ =>
    rw [returnValue_of_value (value_of_single hrun hempty htypes) rfl]
    simp only [returnLeft, Attempt.bind_run, frame, htypes, popTy, TypeStack.pop]
    by_cases heq : t = w₁.frame.signature.result
    · rw [if_pos heq, heq]
      simp [Ty.acceptsAssign]
    · have hne : (w₁.frame.signature.result == t) = false := by simpa using Ne.symm heq
      rw [if_neg heq, Ty.acceptsAssign, hne, Bool.false_or, Ty.acceptsDiscarding]
      by_cases hunit : w₁.frame.signature.result.isUnit = true
      · have hvalue : t.isUnit = false := by
          rw [← Bool.not_eq_true]
          intro ht
          simp only [Ty.isUnit, beq_iff_eq] at ht hunit
          exact heq (ht.trans hunit.symm)
        simp [hunit, hvalue]
      · simp [hunit]

/-- Where there is nothing to return, a return statement reports the value that carries nothing, and the
other form that a value is missing. -/
theorem returnValue_unitCall (hempty : w.frame.operands.types = [])
    (hlacks : LacksValue ctx w.frame.signature e) (h : expr ctx e w = (.ok (), w')) :
    (expr ctx e >>= fun _ => returnLeft e.span) w =
        (.error ⟨.internal (.noValueLeft w.frame.signature.result) w.frame.signature.name, e.span⟩, w') ∧
      ∃ w'', w''.session = w'.session ∧ returnValue e.text e.span (value ctx e) w =
        (.error ⟨.returnTypeMismatch w.frame.signature.name w.frame.signature.result.render
          Ty.unit.render, e.span⟩, w'') := by
  obtain ⟨hcalls, hresult⟩ := hlacks
  obtain ⟨ms, ts, hadded, hadds⟩ := expr_added e h
  have htypes : w'.frame.operands.types = [] := by
    rw [hadded.types, hadds.none_iff.2 hcalls, hempty]
    rfl
  rw [← hadded.signature] at hresult ⊢
  have hnotUnit : w'.frame.signature.result.isUnit = false := by simpa [Ty.isUnit] using hresult
  refine ⟨?_, { w' with frame.emitter := w'.frame.emitter.unit }, rfl, ?_⟩
  · rw [Attempt.bind_run, h]
    simp only [returnLeft, Attempt.bind_run, frame, htypes, hnotUnit]
    rfl
  · rw [returnValue_of_value (value_of_none h hempty htypes) htypes]
    have hrefuses : w'.frame.signature.result.acceptsAssign .unit = false := by
      simp [Ty.acceptsAssign, Ty.acceptsDiscarding, hnotUnit, hresult]
    simp only [hrefuses]
    rfl

/-! ## Bodies -/

/-- The statements of a body before the last one. -/
def initial (ctx : CodeContext) : List Stmt → Gen Unit
  | [] => pure ()
  | s :: ss => do
    setLine ctx s.span.line
    stmt ctx s
    dropOperands
    initial ctx ss

/-- The last statement of a body comes after the others. -/
theorem stmts_append (ctx : CodeContext) (s : Stmt) (ss : List Stmt) :
    stmts ctx (ss ++ [s]) = (do
      initial ctx ss
      setLine ctx s.span.line
      stmt ctx s
      if s.isRet then pure () else returnLeft s.span) := by
  induction ss with
  | nil => rfl
  | cons s' ss ih =>
    cases ss with
    | nil => simp [stmts, initial]
    | cons s'' ss =>
      rw [List.cons_append, List.cons_append, stmts, ← List.cons_append, ih]
      simp only [initial, bind_assoc]

end Gen

theorem Frame.Has.setLine {ctx : CodeContext} {s : Signature} {site : Span} {ts : List Ty} {line : Nat}
    {w w' : Workbench} (h : w.frame.Has s site ts) (hrun : Gen.setLine ctx line w = (.ok (), w')) :
    w'.frame.Has s site ts := by
  unfold Gen.setLine at hrun
  split at hrun <;> cases hrun
  · exact ⟨h.signature, h.site, h.operands⟩
  · exact h

namespace Gen

variable {ctx : CodeContext} {e : Expr} {w w' : Workbench}

/-- Statements leave no operands to the next one, and the function as it was. -/
theorem has_initial {s : Signature} {site : Span} : ∀ (ss : List Stmt) {w w' : Workbench},
    w.frame.Has s site [] → initial ctx ss w = (.ok (), w') → w'.frame.Has s site []
  | [], _, _, h, hrun => by
    cases hrun
    exact h
  | s' :: ss, w, w', h, hrun => by
    obtain ⟨_, w₁, hline, hrest⟩ := Attempt.bind_eq_ok.1 hrun
    obtain ⟨_, w₂, hstmt, hrest⟩ := Attempt.bind_eq_ok.1 hrest
    obtain ⟨_, w₃, hdrop, hrest⟩ := Attempt.bind_eq_ok.1 hrest
    have h₁ := h.setLine hline
    obtain ⟨ms, ts, hadded, -⟩ := stmt_added hstmt
    refine has_initial ss ?_ hrest
    cases hdrop
    exact ⟨hadded.signature.trans h₁.signature, hadded.site.trans h₁.site, rfl⟩

/-- The code of a body up to the value that it returns. -/
def valued (ctx : CodeContext) (ss : List Stmt) (e : Expr) : Gen Unit := do
  initial ctx ss
  setLine ctx e.span.line
  expr ctx e

/-- The body without its return. -/
def unreturned (ctx : CodeContext) (ss : List Stmt) (e : Expr) : Gen Unit := framed ctx (valued ctx ss e)

/-- How the same body ends in the one form and in the other, and without its return: it fails before the
return, the forms return the same, or there is nothing to return. -/
inductive Endings (ctx : CodeContext) (s : Signature) (e : Expr) :
    (bare implicit explicit : Except CompileError Unit × Workbench) → Prop where
  | fails (err : CompileError) (w : Workbench) :
    Endings ctx s e (.error err, w) (.error err, w) (.error err, w)
  | returned {w : Workbench} (r : Except CompileError Unit × Workbench) (h : ¬LacksValue ctx s e) :
    Endings ctx s e (.ok (), w) r r
  | lacking {w w₁ w₂ : Workbench} (h : LacksValue ctx s e) (hsession : w₂.session = w₁.session) :
    Endings ctx s e (.ok (), w) (.error ⟨.internal (.noValueLeft s.result) s.name, e.span⟩, w₁)
      (.error ⟨.returnTypeMismatch s.name s.result.render Ty.unit.render, e.span⟩, w₂)

section Endings

variable {s : Signature} {site : Span} {α : Type}

/-- The same steps before. -/
theorem Endings.after {x : Gen α} {f g k : α → Gen Unit}
    (h : ∀ a w', x w = (.ok a, w') → Endings ctx s e (f a w') (g a w') (k a w')) :
    Endings ctx s e ((x >>= f) w) ((x >>= g) w) ((x >>= k) w) := by
  simp only [Attempt.bind_run]
  rcases hx : x w with ⟨err | a, w'⟩
  · exact .fails err w'
  · exact h a w' hx

/-- The same steps afterwards, which cannot fail. -/
theorem Endings.before {x y z k : Gen Unit} (h : Endings ctx s e (x w) (y w) (z w))
    (hk : ∀ w, ∃ w', k w = (.ok (), w')) :
    Endings ctx s e ((x >>= fun _ => k) w) ((y >>= fun _ => k) w) ((z >>= fun _ => k) w) := by
  simp only [Attempt.bind_run]
  generalize x w = rx, y w = ry, z w = rz at h
  cases h with
  | fails err w₁ => exact .fails err w₁
  | @returned w₁ r hvalue =>
    obtain ⟨w₂, hclosed⟩ := hk w₁
    simp only [hclosed]
    exact .returned _ hvalue
  | @lacking w₁ _ _ hlacks hsession =>
    obtain ⟨w₂, hclosed⟩ := hk w₁
    simp only [hclosed]
    exact .lacking hlacks hsession

theorem endings_last (h : w.frame.Has s site []) :
    Endings ctx s e (expr ctx e w) ((expr ctx e >>= fun _ => returnLeft e.span) w)
      (returnValue e.text e.span (value ctx e) w) := by
  by_cases hlacks : LacksValue ctx s e
  · rcases hrun : expr ctx e w with ⟨err | _, w₁⟩
    · rw [returnValue_eq h.operands (by simp [hrun]), Attempt.bind_run, hrun]
      exact .fails err w₁
    · obtain ⟨himplicit, w₂, hsession, hexplicit⟩ :=
        returnValue_unitCall h.operands (by rwa [h.signature]) hrun
      rw [himplicit, hexplicit, h.signature]
      exact .lacking hlacks hsession
  · rw [returnValue_eq h.operands (by rw [h.signature]; exact fun _ => hlacks)]
    rcases hrun : expr ctx e w with ⟨err | _, w₁⟩
    · rw [Attempt.bind_run, hrun]
      exact .fails err w₁
    · exact .returned _ hlacks

/-- The forms compared between the labels of a body. -/
theorem endings_stmts (ss : List Stmt) (h : w.frame.Has s site []) :
    Endings ctx s e (valued ctx ss e w) (stmts ctx (ss ++ [.expr e]) w)
      (stmts ctx (ss ++ [.ret e e.span]) w) := by
  have himplicit : stmts ctx (ss ++ [.expr e]) = initial ctx ss >>= fun _ =>
      setLine ctx e.span.line >>= fun _ => expr ctx e >>= fun _ => returnLeft e.span :=
    stmts_append ctx (.expr e) ss
  have hexplicit : stmts ctx (ss ++ [.ret e e.span]) = initial ctx ss >>= fun _ =>
      setLine ctx e.span.line >>= fun _ => returnValue e.text e.span (value ctx e) := by
    rw [stmts_append]
    simp [stmt, Stmt.isRet, Stmt.span]
  rw [himplicit, hexplicit]
  refine .after fun _ w₁ hinitial => .after fun _ w₂ hline => ?_
  exact endings_last ((has_initial ss h hinitial).setLine hline)

/-- A body fails before its code, whatever the code is, or it runs the code and then cannot fail. -/
theorem framed_run (ctx : CodeContext) (s : Signature) (site : Span) (depth : Nat) (S : Session) :
    (∃ err w', ∀ code, framed ctx code ⟨S, .start s site depth⟩ = (.error err, w')) ∨
    ∃ (w₁ : Workbench) (k : Gen Unit), w₁.frame.Has s site [] ∧ (∀ w, ∃ w', k w = (.ok (), w')) ∧
      ∀ code, framed ctx code ⟨S, .start s site depth⟩ = (code >>= fun _ => k) w₁ := by
  rcases hparams : declareParams ctx s.params ⟨S, .start s site depth⟩ with ⟨err | _, w₁⟩
  · refine .inl ⟨err, w₁, fun code => ?_⟩
    show (declareParams ctx s.params >>= _) ⟨S, .start s site depth⟩ = _
    rw [Attempt.bind_run, hparams]
  · have h₁ : w₁.frame.Has s site [] := by
      obtain ⟨-, -, -, emitter, -, rfl⟩ := declareParams_eq_ok hparams
      exact ⟨rfl, rfl, rfl⟩
    have h₂ : (label w₁).2.frame.Has s site [] := ⟨h₁.signature, h₁.site, h₁.operands⟩
    let closing : Gen Unit := do
      let stop ← label
      if ctx.options.debugInfo then recordRanges w₁.frame.emitter.offset stop
    refine .inr ⟨(label w₁).2, closing, h₂, fun w => ?_, fun code => ?_⟩
    · simp only [closing, Attempt.bind_run, label]
      split
      · exact ⟨_, rfl⟩
      · exact ⟨_, rfl⟩
    · show (declareParams ctx s.params >>= _) ⟨S, .start s site depth⟩ = _
      rw [Attempt.bind_run, hparams]
      rfl

theorem endings_body {depth : Nat} {S : Session} (ss : List Stmt) :
    Endings ctx s e (unreturned ctx ss e ⟨S, .start s site depth⟩)
      (body ctx (ss ++ [.expr e]) ⟨S, .start s site depth⟩)
      (body ctx (ss ++ [.ret e e.span]) ⟨S, .start s site depth⟩) := by
  unfold unreturned body
  obtain ⟨err, w', hfails⟩ | ⟨w₁, k, h, hk, hrun⟩ := framed_run ctx s site depth S
  · rw [hfails, hfails, hfails]
    exact .fails err w'
  · rw [hrun, hrun, hrun]
    exact (endings_stmts ss h).before hk

end Endings

/-! ## Functions -/

theorem growsTo_stmt (ctx : CodeContext) (s : Stmt) : KeepsSession Session.GrowsTo (stmt ctx s) := by
  cases s with
  | expr e =>
    have hmem : e ∈ Block.exprs ⟨[.expr e]⟩ := List.mem_append_left _ e.mem_subexprs_self
    exact (stable_growsTo ctx ⟨[.expr e]⟩).expr e hmem
  | ret e span => exact (growsTo_value ctx e).returnValue
  | decl => exact keepsSession_fail _

theorem growsTo_initial (ctx : CodeContext) (ss : List Stmt) :
    KeepsSession Session.GrowsTo (initial ctx ss) := by
  induction ss with
  | nil => exact keepsSession_pure ()
  | cons s ss ih =>
    exact .bind (keepsSession_setLine ctx _) fun _ => .bind (growsTo_stmt ctx s) fun _ =>
      .bind (keepsSession_modifyFrame _) fun _ => ih

theorem growsTo_unreturned (ctx : CodeContext) (ss : List Stmt) (e : Expr) :
    KeepsSession Session.GrowsTo (unreturned ctx ss e) :=
  KeepsSession.framed <| .bind (growsTo_initial ctx ss) fun _ =>
    .bind (keepsSession_setLine ctx _) fun _ => growsTo_stmt ctx (.expr e)

end Gen

namespace Session

variable {s : Signature} {flags : EntryFlags} {site : Span} {depth : Nat} {S : Session} {r : Registry}
  {body body' : Gen Unit}

/-- Bodies that run alike make the same function. -/
theorem compileWith_congr (h : ∀ r, S.registry.declare s flags site = .ok r →
      body ⟨{ S with registry := r }.note (.declared s), .start s site depth⟩ =
        body' ⟨{ S with registry := r }.note (.declared s), .start s site depth⟩) :
    compileWith s flags site depth body S = compileWith s flags site depth body' S := by
  rw [compileWith_eq, compileWith_eq]
  split
  next => rfl
  next r hdecl => rw [h r hdecl]

theorem compileWith_of_error (hdecl : S.registry.declare s flags site = .ok r) {err : CompileError}
    {w : Workbench} (h : body ⟨{ S with registry := r }.note (.declared s), .start s site depth⟩ =
      (.error err, w)) :
    compileWith s flags site depth body S = (.error err,
      { w.session.note (.abandoned s.name err) with registry := w.session.registry.abandon s.name }) := by
  simp only [compileWith_eq, hdecl, h]

/-- How the same function ends in the one form and in the other, and without its return: the forms agree, or
both fail for want of a value, and only the journals differ. -/
inductive Forms (ctx : CodeContext) (s : Signature) (e : Expr) :
    (bare implicit explicit : Except CompileError Unit × Session) → Prop where
  | agree {bare : Except CompileError Unit × Session} (r : Except CompileError Unit × Session)
    (h : ¬(bare.1 = .ok () ∧ Gen.LacksValue ctx s e)) : Forms ctx s e bare r r
  | lacking {bare : Except CompileError Unit × Session} {S₁ S₂ : Session} (hbare : bare.1 = .ok ())
    (h : Gen.LacksValue ctx s e) (hsame : S₂ = { S₁ with journal := S₂.journal }) :
    Forms ctx s e bare (.error ⟨.internal (.noValueLeft s.result) s.name, e.span⟩, S₁)
      (.error ⟨.returnTypeMismatch s.name s.result.render Ty.unit.render, e.span⟩, S₂)

/-- Functions end as their bodies do. -/
theorem forms_of_endings {ctx : CodeContext} {e : Expr} {bare implicit explicit : Gen Unit}
    (hgrows : ∀ w : Workbench, w.session.registry.GrowsTo (bare w).2.session.registry)
    (h : ∀ S, Gen.Endings ctx s e (bare ⟨S, .start s site depth⟩) (implicit ⟨S, .start s site depth⟩)
      (explicit ⟨S, .start s site depth⟩)) :
    Forms ctx s e (compileWith s flags site depth bare S) (compileWith s flags site depth implicit S)
      (compileWith s flags site depth explicit S) := by
  have hagree (hsame : compileWith s flags site depth implicit S = compileWith s flags site depth explicit S)
      (hlacks : ¬((compileWith s flags site depth bare S).1 = .ok () ∧ Gen.LacksValue ctx s e)) :
      Forms ctx s e (compileWith s flags site depth bare S) (compileWith s flags site depth implicit S)
        (compileWith s flags site depth explicit S) := by
    rw [hsame]
    exact .agree _ hlacks
  rcases hrun : compileWith s flags site depth bare S with ⟨result, S'⟩
  rw [hrun] at hagree
  cases functionRun hgrows hrun with
  | taken hdecl =>
    refine hagree (compileWith_congr fun r hr => ?_) fun hlacks => nomatch hlacks.1
    rw [hdecl] at hr
    cases hr
  | @failed r w err hdecl hbare =>
    refine hagree (compileWith_congr fun r' hr => ?_) fun hlacks => nomatch hlacks.1
    obtain rfl := Except.ok.inj (hdecl.symm.trans hr)
    have hends := h ({ S with registry := r }.note (.declared s))
    rw [hbare] at hends
    generalize implicit _ = ri, explicit _ = re at hends ⊢
    cases hends
    rfl
  | @finished r _ w hdecl hbare =>
    have hends := h ({ S with registry := r }.note (.declared s))
    rw [hbare] at hends
    generalize hi : implicit _ = ri, he : explicit _ = re at hends
    cases hends with
    | returned _ hvalue =>
      refine hagree (compileWith_congr fun r' hr => ?_) fun hlacks => hvalue hlacks.2
      obtain rfl := Except.ok.inj (hdecl.symm.trans hr)
      rw [hi, he]
    | lacking hlacks hsession =>
      rw [compileWith_of_error hdecl hi, compileWith_of_error hdecl he, hsession]
      exact .lacking rfl hlacks rfl

end Session

/-- A function ends alike whether its last value is returned by a statement or not.  Its code, the entries,
the wrappers, the constants and the error are the same, also the journal, but for one case.  Where a bare
call of a function without a value stands at the end of a body that has to return one, and the body compiles
up to there, a return statement reports a value of the wrong type, and the other form that no value is left. -/
theorem return_forms_agree (ctx : CodeContext) (s : Signature) (flags : EntryFlags) (site : Span)
    (depth : Nat) (ss : List Stmt) (e : Expr) (S : Session) :
    let implicit := Session.compileWith s flags site depth (Gen.body ctx (ss ++ [.expr e])) S
    let explicit := Session.compileWith s flags site depth (Gen.body ctx (ss ++ [.ret e e.span])) S
    let bare := Session.compileWith s flags site depth (Gen.unreturned ctx ss e) S
    let lacking := bare.1 = .ok () ∧ e.CallsUnit ctx.functions ∧ s.result ≠ .unit
    (implicit.1 = .ok () ↔ explicit.1 = .ok ()) ∧
    (¬lacking → implicit = explicit) ∧
    (lacking →
      implicit.1 = .error ⟨.internal (.noValueLeft s.result) s.name, e.span⟩ ∧
      explicit.1 = .error ⟨.returnTypeMismatch s.name s.result.render Ty.unit.render, e.span⟩ ∧
      explicit.2 = { implicit.2 with journal := explicit.2.journal }) := by
  intro implicit explicit bare lacking
  have hforms : Session.Forms ctx s e bare implicit explicit :=
    Session.forms_of_endings (fun w => (Gen.growsTo_unreturned ctx ss e w).registry)
      fun _ => Gen.endings_body ss
  have hlacking : lacking ↔ bare.1 = .ok () ∧ Gen.LacksValue ctx s e := Iff.rfl
  rw [hlacking]
  generalize bare = rb, implicit = ri, explicit = re at hforms
  cases hforms with
  | agree _ h => exact ⟨Iff.rfl, fun _ => rfl, fun hlacks => absurd hlacks h⟩
  | lacking hbare h hsame =>
    exact ⟨by simp, fun hlacks => absurd ⟨hbare, h⟩ hlacks, fun _ => ⟨rfl, rfl, hsame⟩⟩

/-- A call of `print`, which returns nothing. -/
def printCall : Expr := .call ⟨"print", default⟩ [] "print()" default

/-- The functions that may be called: only `print`. -/
def printContext : CodeContext := ⟨.ofList [⟨"print", [], .unit, "Main", false⟩], {}, .empty⟩

/-- At the end of a function that returns an integer, the two forms report the missing value differently. -/
theorem return_forms_agree_printCall :
    (Session.compileWith ⟨"f", [], .int, "Main", false⟩ .user default 0
      (Gen.body printContext [.expr printCall]) .start).1 =
        .error ⟨.internal (.noValueLeft .int) "f", default⟩ ∧
    (Session.compileWith ⟨"f", [], .int, "Main", false⟩ .user default 0
      (Gen.body printContext [.ret printCall default]) .start).1 =
        .error ⟨.returnTypeMismatch "f" Ty.int.render Ty.unit.render, default⟩ := by
  have hcalls : printCall.CallsUnit printContext.functions :=
    ⟨_, _, _, _, ⟨"print", [], .unit, "Main", false⟩, rfl, by decide, rfl⟩
  obtain ⟨-, -, hlacking⟩ := return_forms_agree printContext ⟨"f", [], .int, "Main", false⟩ .user default 0
    [] printCall .start
  obtain ⟨himplicit, hexplicit, -⟩ := hlacking ⟨rfl, hcalls, by decide⟩
  exact ⟨himplicit, hexplicit⟩

end BlockCompiler
