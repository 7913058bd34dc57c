import BlockCompiler.Proofs.Numbering

/-!
# Every anonymous function is compiled, and each once

When the walk through a block ends well, its table has exactly the texts of the anonymous functions in
the block, wherever they stand, and the functions that were made up for them are there.

* `Block.lambdas` lists the anonymous functions of a block in the order in which the walk meets them:
  those in a body come before the one that has the body.
* `Hoist.Visits` is the walk as a list of meetings, and `Hoist.visits_topLevel` says that the walk
  through a block meets `Block.lambdas`.
* `Walk.Hoisted` is what the walk has brought about after some meetings, `Walk.Hoisted.meet` its step,
  and `hoisting_complete` what it comes to in the end.

Of anonymous functions with one text, the first one that is met counts.  Nothing is assumed about texts.
-/

namespace BlockCompiler

/-! ## Anonymous functions as written -/

/-- An anonymous function as it is written. -/
structure LambdaLiteral where
  body : Expr
  text : String
  span : Span

/-- The expression that it is. -/
def LambdaLiteral.expr (l : LambdaLiteral) : Expr := .lambda l.body l.text l.span

namespace Expr

mutual

/-- The anonymous functions in an expression, from the inside out. -/
def lambdas : Expr → List LambdaLiteral
  | literal _ _ _ | var _ | placeholder _ => []
  | pair first second _ _ => lambdas first ++ lambdas second
  | lambda body text span => lambdas body ++ [⟨body, text, span⟩]
  | call _ args _ _ => lambdasAll args
termination_by structural e => e

/-- The anonymous functions in a list of expressions. -/
def lambdasAll : List Expr → List LambdaLiteral
  | [] => []
  | e :: es => lambdas e ++ lambdasAll es
termination_by structural es => es

end

mutual

theorem mem_lambdas {l : LambdaLiteral} : ∀ e : Expr, l ∈ e.lambdas ↔ l.expr ∈ e.subexprs
  | literal _ _ _ | var _ | placeholder _ => by simp [lambdas, subexprs, LambdaLiteral.expr]
  | pair first second _ _ => by
    simp [lambdas, subexprs, mem_lambdas first, mem_lambdas second, LambdaLiteral.expr]
  | lambda body text span => by
    rw [lambdas, subexprs, List.mem_append, mem_lambdas body, List.mem_singleton, List.mem_cons,
      or_comm, LambdaLiteral.expr, lambda.injEq]
    rcases l with ⟨body', text', span'⟩
    simp
  | call _ args _ _ => by simp [lambdas, subexprs, mem_lambdasAll args, LambdaLiteral.expr]

theorem mem_lambdasAll {l : LambdaLiteral} :
    ∀ es : List Expr, l ∈ lambdasAll es ↔ l.expr ∈ subexprsAll es
  | [] => by simp [lambdasAll, subexprsAll]
  | e :: es => by simp [lambdasAll, subexprsAll, mem_lambdas e, mem_lambdasAll es]

end

end Expr

namespace Stmt

mutual

/-- The anonymous functions in a statement. -/
def lambdas : Stmt → List LambdaLiteral
  | expr value => value.lambdas
  | ret value _ => value.lambdas
  | decl _ body _ => lambdasAll body
termination_by structural s => s

/-- The anonymous functions in a list of statements. -/
def lambdasAll : List Stmt → List LambdaLiteral
  | [] => []
  | s :: ss => lambdas s ++ lambdasAll ss
termination_by structural ss => ss

end

mutual

theorem mem_lambdas {l : LambdaLiteral} : ∀ s : Stmt, l ∈ s.lambdas ↔ l.expr ∈ s.exprs
  | expr value | ret value _ => value.mem_lambdas
  | decl _ body _ => mem_lambdasAll body

theorem mem_lambdasAll {l : LambdaLiteral} :
    ∀ ss : List Stmt, l ∈ lambdasAll ss ↔ l.expr ∈ exprsAll ss
  | [] => by simp [lambdasAll, exprsAll]
  | s :: ss => by simp [lambdasAll, exprsAll, mem_lambdas s, mem_lambdasAll ss]

end

end Stmt

namespace Block

/-- The anonymous functions in a block, in the order in which the walk meets them. -/
def lambdas (block : Block) : List LambdaLiteral := Stmt.lambdasAll block.stmts

/-- The first anonymous function with a text. -/
def firstLambda? (block : Block) (text : String) : Option LambdaLiteral :=
  block.lambdas.find? (·.text = text)

/-- Whether the first anonymous function with a text is the bare placeholder in braces. -/
def isIdentityText (block : Block) (text : String) : Bool :=
  (block.firstLambda? text).any (·.body.isPlaceholder)

theorem mem_lambdas {block : Block} {l : LambdaLiteral} :
    l ∈ block.lambdas ↔ l.expr ∈ block.exprs :=
  Stmt.mem_lambdasAll block.stmts

end Block

/-! ## The walk as a list of meetings -/

namespace Hoist

variable {functions : FunctionTable} {options : Options}

/-- A walk that meets these anonymous functions one after the other, and none fails. -/
inductive Visits (functions : FunctionTable) (options : Options) :
    List LambdaLiteral → Walk → Walk → Prop where
  | nil (w : Walk) : Visits functions options [] w w
  | cons {l : LambdaLiteral} {ls : List LambdaLiteral} {w w' w'' : Walk}
    (hmeet : lambda functions options l.body l.text l.span w = (.ok (), w'))
    (hrest : Visits functions options ls w' w'') : Visits functions options (l :: ls) w w''

theorem Visits.append {ls ls' : List LambdaLiteral} {w w' w'' : Walk}
    (h : Visits functions options ls w w') (h' : Visits functions options ls' w' w'') :
    Visits functions options (ls ++ ls') w w'' := by
  induction h with
  | nil => exact h'
  | cons hmeet _ ih => exact .cons hmeet (ih h')

/-- A step that succeeds after a check of the depth is left with the state before the check. -/
private theorem run_of_checked {depth : Nat} {span : Span} {x : Hoist Unit} {w w' : Walk}
    (h : (Attempt.ofExcept (ensureDepth options.maxDepth depth span) >>= fun _ => x) w =
      (.ok (), w')) : x w = (.ok (), w') := by
  obtain ⟨_, w₁, hdepth, hrest⟩ := Attempt.bind_eq_ok.1 h
  obtain ⟨-, rfl⟩ := Attempt.ofExcept_eq_ok.1 hdepth
  exact hrest

mutual

theorem visits_expr : ∀ (e : Expr) {depth : Nat} {w w' : Walk},
    expr functions options depth e w = (.ok (), w') → Visits functions options e.lambdas w w'
  | .literal _ _ _, _, w, w', h | .var _, _, w, w', h | .placeholder _, _, w, w', h => by
    obtain ⟨-, rfl⟩ := Attempt.ofExcept_eq_ok.1 h
    exact .nil _
  | .pair first second _ _, _, w, w', h => by
    obtain ⟨_, w₁, hfirst, hsecond⟩ := Attempt.bind_eq_ok.1 (run_of_checked h)
    exact (visits_expr first hfirst).append (visits_expr second hsecond)
  | .lambda body text span, _, w, w', h => by
    obtain ⟨_, w₁, hbody, hmeet⟩ := Attempt.bind_eq_ok.1 (run_of_checked h)
    exact (visits_expr body hbody).append (.cons hmeet (.nil _))
  | .call _ args _ _, _, w, w', h => by
    exact visits_exprs args (run_of_checked h)

theorem visits_exprs : ∀ (es : List Expr) {depth : Nat} {w w' : Walk},
    exprs functions options depth es w = (.ok (), w') →
      Visits functions options (Expr.lambdasAll es) w w'
  | [], _, w, w', h => by
    cases h
    exact .nil _
  | e :: es, _, w, w', h => by
    obtain ⟨_, w₁, he, hes⟩ := Attempt.bind_eq_ok.1 h
    exact (visits_expr e he).append (visits_exprs es hes)

end

mutual

theorem visits_stmt : ∀ (s : Stmt) {depth : Nat} {w w' : Walk},
    stmt functions options depth s w = (.ok (), w') → Visits functions options s.lambdas w w'
  | .expr e, _, w, w', h | .ret e _, _, w, w', h => by
    exact visits_expr e (run_of_checked h)
  | .decl _ body _, _, w, w', h => by
    exact visits_stmts body (run_of_checked h)

theorem visits_stmts : ∀ (ss : List Stmt) {depth : Nat} {w w' : Walk},
    stmts functions options depth ss w = (.ok (), w') →
      Visits functions options (Stmt.lambdasAll ss) w w'
  | [], _, w, w', h => by
    cases h
    exact .nil _
  | s :: ss, _, w, w', h => by
    obtain ⟨_, w₁, hs, hss⟩ := Attempt.bind_eq_ok.1 h
    exact (visits_stmt s hs).append (visits_stmts ss hss)

end

/-- The walk through a block meets its anonymous functions from the inside out. -/
theorem visits_topLevel (ss : List Stmt) {w w' : Walk}
    (h : topLevel functions options ss w = (.ok (), w')) :
    Visits functions options (Stmt.lambdasAll ss) w w' := by
  induction ss generalizing w with
  | nil =>
    cases h
    exact .nil _
  | cons s ss ih =>
    cases s with
    | expr e =>
      obtain ⟨_, w₁, hs, hss⟩ := Attempt.bind_eq_ok.1 h
      exact (visits_stmt (.expr e) hs).append (ih hss)
    | ret e span =>
      obtain ⟨_, w₁, hs, hss⟩ := Attempt.bind_eq_ok.1 h
      exact (visits_stmt (.ret e span) hs).append (ih hss)
    | decl name body span =>
      obtain ⟨_, w₁, hs, hss⟩ := Attempt.bind_eq_ok.1 h
      exact (visits_stmts body hs).append (ih hss)

end Hoist

/-! ## What the walk brings about -/

/-- The signature of the function that is made up for the bare placeholder. -/
def identitySignature (owner : String) : Signature := ⟨identityName, [lambdaParam], .real, owner, false⟩

/-- What the signature of the function made up for an anonymous function is like.  Its result is the type
of the body where there are no arguments. -/
structure LambdaLiteral.Becomes (l : LambdaLiteral) (functions : FunctionTable) (options : Options)
    (s : Signature) : Prop where
  identity : l.body.isPlaceholder = true → s = identitySignature options.owner
  numbered : l.body.isPlaceholder = false → ∃ id, s.name = lambdaName id
  params : s.params = [lambdaParam]
  owner : s.owner = options.owner
  result : ∀ lambdas, ∃ typing,
    l.body.infer ⟨functions, .empty, lambdas, options.maxDepth⟩ = .ok typing ∧ typing.ty = s.result

namespace LambdaLiteral

variable {l : LambdaLiteral} {functions : FunctionTable} {options : Options} {s : Signature}

theorem becomes_lambdaSignature {lambdas : LambdaTable} {typing : Typing}
    (htype : l.body.infer ⟨functions, .empty, lambdas, options.maxDepth⟩ = .ok typing) (id : Nat) :
    l.Becomes functions options (Hoist.lambdaSignature id l.body typing.ty options.owner) := by
  refine ⟨fun hplaceholder => ?_, fun hother => ⟨id, ?_⟩, rfl, rfl, fun lambdas' => ?_⟩
  · have hreal : typing.ty = .real := by
      cases hbody : l.body with
      | placeholder span =>
        rw [hbody] at htype
        cases htype
        rfl
      | _ => simp [hbody, Expr.isPlaceholder] at hplaceholder
    rw [Hoist.lambdaSignature, if_pos hplaceholder, hreal, identitySignature]
  · simp [Hoist.lambdaSignature, hother]
  · exact Expr.inferAt_of_lambdas lambdas' l.body htype

/-- The bare placeholder is always typed. -/
theorem becomes_identitySignature (h : l.body.isPlaceholder = true) :
    l.Becomes functions options (identitySignature options.owner) := by
  refine ⟨fun _ => rfl, fun hother => ?_, rfl, rfl, fun lambdas => ⟨.ofTy .real, ?_, rfl⟩⟩
  · rw [h] at hother
    cases hother
  · cases hbody : l.body with
    | placeholder span => rfl
    | _ => simp [hbody, Expr.isPlaceholder] at h

/-- Only the function of the bare placeholder has no number. -/
theorem Becomes.isPlaceholder_of_name (h : l.Becomes functions options s)
    (hname : s.name = identityName) : l.body.isPlaceholder = true := by
  cases hplaceholder : l.body.isPlaceholder with
  | true => rfl
  | false =>
    obtain ⟨id, hid⟩ := h.numbered hplaceholder
    exact absurd (hid.symm.trans hname) (lambdaName_ne_identityName id)

theorem Becomes.dollar_not_mem_name (h : l.Becomes functions options s) : '$' ∉ s.name.toList := by
  cases hplaceholder : l.body.isPlaceholder with
  | true =>
    rw [h.identity hplaceholder]
    show '$' ∉ identityName.toList
    decide
  | false =>
    obtain ⟨id, hid⟩ := h.numbered hplaceholder
    rw [hid]
    exact dollar_not_mem_lambdaName id

end LambdaLiteral

/-- What the walk has brought about after it met some anonymous functions. -/
structure Walk.Hoisted (functions : FunctionTable) (options : Options) (met : List LambdaLiteral)
    (w : Walk) : Prop where
  closed : w.Closed functions
  nodup : w.session.registry.names.Nodup
  covers : ∀ l ∈ met, ∃ s, w.table.get? l.text = some s
  first : ∀ {text s}, w.table.get? text = some s →
    ∃ l, met.find? (·.text = text) = some l ∧ l.Becomes functions options s
  identity : ∀ {s}, w.identity? = some s → s = identitySignature options.owner
  /-- Different texts have functions of different names, except for the bare placeholder. -/
  apart : ∀ {text text' s s'}, w.table.get? text = some s → w.table.get? text' = some s' →
    s.name = s'.name → text = text' ∨ s.name = identityName
  /-- There are no other entries but wrappers. -/
  made : ∀ name ∈ w.session.registry.names, (∃ id, name = Gen.wrapperName id) ∨
    ∃ text s, w.table.get? text = some s ∧ s.name = name

namespace Walk.Hoisted

variable {functions : FunctionTable} {options : Options} {met : List LambdaLiteral} {w w' : Walk}
  {l : LambdaLiteral}

/-- A text that is not in the table was not met. -/
theorem find?_eq_none (h : w.Hoisted functions options met) {text : String}
    (hfresh : w.table.get? text = none) : met.find? (·.text = text) = none := by
  refine List.find?_eq_none.2 fun l hl htext => ?_
  obtain ⟨s, hs⟩ := h.covers l hl
  rw [of_decide_eq_true htext, hfresh] at hs
  cases hs

/-- The names of recorded functions are taken. -/
theorem name_mem (h : w.Hoisted functions options met) {text : String} {s : Signature}
    (hs : w.table.get? text = some s) : s.name ∈ w.session.registry.names := by
  obtain ⟨chunk, hget⟩ := h.closed.session.lambdas hs
  exact List.mem_map.2 ⟨_, List.mem_of_find?_eq_some hget, rfl⟩

/-- An anonymous function is recorded under its text, which is new. -/
theorem insert (h : w.Hoisted functions options met) (hclosed : w'.Closed functions)
    (hnodup : w'.session.registry.names.Nodup) (hfresh : w.table.get? l.text = none) {s : Signature}
    (htable : w'.table = w.table.insert l.text s) (hbecomes : l.Becomes functions options s)
    (hidentity : ∀ {s'}, w'.identity? = some s' → s' = identitySignature options.owner)
    (hname : s.name ∈ w.session.registry.names → s.name = identityName)
    (hmade : ∀ name ∈ w'.session.registry.names, name ∈ w.session.registry.names ∨ name = s.name ∨
      ∃ id, name = Gen.wrapperName id) : w'.Hoisted functions options (met ++ [l]) := by
  have hlookup (text : String) :
      w'.table.get? text = if l.text = text then some s else w.table.get? text := by
    rw [htable, LambdaTable.get?_insert]
  refine ⟨hclosed, hnodup, fun l' hl' => ?_, fun {text s'} hs' => ?_, hidentity,
    fun {text text' s₁ s₂} hs₁ hs₂ heq => ?_, fun name hname => ?_⟩
  · rw [hlookup]
    split
    · exact ⟨s, rfl⟩
    next hne =>
      rcases List.mem_append.1 hl' with hl' | hl'
      · exact h.covers l' hl'
      · rw [List.mem_singleton.1 hl'] at hne
        exact absurd rfl hne
  · rw [hlookup] at hs'
    split at hs'
    next htext =>
      refine ⟨l, ?_, Option.some.inj hs' ▸ hbecomes⟩
      rw [List.find?_append, h.find?_eq_none (htext ▸ hfresh)]
      simp [htext]
    next =>
      obtain ⟨l', hl', hbecomes'⟩ := h.first hs'
      exact ⟨l', by rw [List.find?_append, hl']; rfl, hbecomes'⟩
  · rw [hlookup] at hs₁ hs₂
    split at hs₁ <;> split at hs₂
    next htext htext' => exact .inl (htext.symm.trans htext')
    next =>
      rw [← Option.some.inj hs₁] at heq ⊢
      exact .inr (hname (heq ▸ h.name_mem hs₂))
    next =>
      rw [← Option.some.inj hs₂] at heq
      rw [heq]
      exact .inr (hname (heq ▸ h.name_mem hs₁))
    next => exact h.apart hs₁ hs₂ heq
  · rcases hmade name hname with hold | rfl | hwrapper
    · refine (h.made name hold).imp id ?_
      rintro ⟨text, s', hs', rfl⟩
      refine ⟨text, s', ?_, rfl⟩
      rw [hlookup, if_neg, hs']
      rintro rfl
      rw [hfresh] at hs'
      cases hs'
    · exact .inr ⟨l.text, s, by rw [hlookup, if_pos rfl], rfl⟩
    · exact .inl hwrapper

/-- The step of the walk. -/
theorem meet {block : Block} (h : w.Hoisted functions options met) (hl : l.expr ∈ block.exprs)
    (hrun : Hoist.lambda functions options l.body l.text l.span w = (.ok (), w')) :
    w'.Hoisted functions options (met ++ [l]) := by
  have hclosed := ((Hoist.lambda_secures hl).of_run hrun).2 h.closed
  have hnodup := ((Hoist.makesUp_lambda hl).of_run hrun).nodup h.nodup
  cases Hoist.meeting hrun with
  | recorded hs =>
    refine ⟨hclosed, hnodup, fun l' hl' => ?_, fun hs' => ?_, h.identity, h.apart, h.made⟩
    · rcases List.mem_append.1 hl' with hl' | hl'
      · exact h.covers l' hl'
      · rw [List.mem_singleton.1 hl']
        exact ⟨_, hs⟩
    · obtain ⟨l', hl', hbecomes⟩ := h.first hs'
      exact ⟨l', by rw [List.find?_append, hl']; rfl, hbecomes⟩
  | identity hfresh hplaceholder hs =>
    have hsignature := h.identity hs
    subst hsignature
    exact h.insert hclosed hnodup hfresh rfl (LambdaLiteral.becomes_identitySignature hplaceholder)
      h.identity (fun _ => rfl) fun name hname => .inl hname
  | @compiled s S typing hfresh htype hs hcompiled =>
    have hbecomes := LambdaLiteral.becomes_lambdaSignature htype w.session.nextId
    rw [hs] at hbecomes
    have hvalue := (Gen.stable_numbers ⟨functions, options, w.table⟩ block).value
      (Block.body_mem_exprs hl)
    obtain ⟨ids, -, ⟨e, hok, -⟩ | ⟨-, hfree, hnames⟩⟩ :=
      Session.compileWith_numbers hvalue.returnBody hcompiled h.nodup
    · cases hok
    · refine h.insert hclosed hnodup hfresh rfl hbecomes (fun {s'} hs' => ?_)
        (fun hname => absurd hname hfree) fun name hname => ?_
      · dsimp only at hs'
        split at hs'
        next hplaceholder => rw [← Option.some.inj hs', hbecomes.identity hplaceholder]
        next => exact h.identity hs'
      · have hname : name ∈ S.registry.names := hname
        rw [hnames] at hname
        simp only [List.mem_append, List.mem_cons, List.mem_map] at hname
        rcases hname with hold | rfl | ⟨id, -, rfl⟩
        · exact .inl hold
        · exact .inr (.inl rfl)
        · exact .inr (.inr ⟨id, rfl⟩)

/-- The walk through some anonymous functions. -/
theorem visit {block : Block} {ls : List LambdaLiteral} (h : w.Hoisted functions options met)
    (hls : ∀ l ∈ ls, l.expr ∈ block.exprs) (hvisits : Hoist.Visits functions options ls w w') :
    w'.Hoisted functions options (met ++ ls) := by
  induction hvisits generalizing met with
  | nil w => simpa using h
  | @cons l ls w w' w'' hmeet _ ih =>
    have hstep := h.meet (hls l (by simp)) hmeet
    simpa using ih hstep fun l' hl' => hls l' (by simp [hl'])

theorem start (functions : FunctionTable) (options : Options) :
    Walk.Hoisted functions options [] { session := .start } := by
  refine ⟨Walk.closed_start functions, List.nodup_nil, fun _ hl => (nomatch hl), fun hs => ?_,
    fun hs => (nomatch hs), fun hs => ?_, fun _ hname => (nomatch hname)⟩
  · rw [LambdaTable.get?_empty] at hs
    cases hs
  · rw [LambdaTable.get?_empty] at hs
    cases hs

end Walk.Hoisted

/-! ## Counting -/

/-- Whether an entry was made up for an anonymous function: it was made up, and it is no wrapper of a
constant. -/
def Entry.isHoisted (e : Entry) : Bool :=
  e.isSynthetic && !"$constant".toList.isSuffixOf e.name.toList

namespace LambdaTable

theorem mem_toList {t : LambdaTable} {text : String} {s : Signature} :
    (text, s) ∈ t.toList ↔ t.get? text = some s :=
  Std.TreeMap.mem_toList_iff_getElem?_eq_some

theorem nodup_toList (t : LambdaTable) : (t.toList.map Prod.fst).Nodup := by
  rw [List.Nodup, List.pairwise_map]
  refine Std.TreeMap.distinct_keys_toList.imp fun hne heq => hne ?_
  rw [heq]
  exact Std.ReflCmp.compare_self

end LambdaTable

namespace Walk.Hoisted

variable {functions : FunctionTable} {options : Options} {block : Block} {w : Walk}
  (h : w.Hoisted functions options block.lambdas)

include h

/-- The texts of the bare placeholder are those with the function of that name. -/
theorem isIdentityText_iff {text : String} {s : Signature} (hs : w.table.get? text = some s) :
    block.isIdentityText text = true ↔ s.name = identityName := by
  obtain ⟨l, hl, hbecomes⟩ := h.first hs
  rw [Block.isIdentityText, Block.firstLambda?, hl, Option.any_some]
  constructor
  · intro hplaceholder
    rw [hbecomes.identity hplaceholder]
    rfl
  · exact hbecomes.isPlaceholder_of_name

/-- The names of the entries made up for anonymous functions are those of the recorded functions. -/
theorem mem_hoistedNames {name : String} :
    name ∈ (w.session.registry.entries.filter Entry.isHoisted).map Entry.name ↔
      ∃ text s, w.table.get? text = some s ∧ s.name = name := by
  simp only [List.mem_map, List.mem_filter, Entry.isHoisted, Bool.and_eq_true, Bool.not_eq_true']
  constructor
  · rintro ⟨e, ⟨he, -, hsuffix⟩, rfl⟩
    rcases h.made e.name (List.mem_map_of_mem he) with ⟨id, hname⟩ | hrecorded
    · refine absurd ?_ (Bool.eq_false_iff.1 hsuffix)
      rw [hname, Gen.wrapperName, String.toList_append]
      exact List.isSuffixOf_iff_suffix.2 (List.suffix_append _ _)
    · exact hrecorded
  · rintro ⟨text, s, hs, rfl⟩
    obtain ⟨chunk, hget⟩ := h.closed.session.lambdas hs
    obtain ⟨l, -, hbecomes⟩ := h.first hs
    refine ⟨_, ⟨List.mem_of_find?_eq_some hget, rfl, ?_⟩, rfl⟩
    rw [Bool.eq_false_iff]
    intro hsuffix
    exact hbecomes.dollar_not_mem_name
      ((List.isSuffixOf_iff_suffix.1 hsuffix).subset (by decide))

/-- The names of the recorded functions, each once: one for each text that is not the bare placeholder,
and one for all that are. -/
theorem nodup_recordedNames :
    ((w.table.toList.filter fun k => !block.isIdentityText k.1).map (·.2.name) ++
      if w.table.toList.any fun k => block.isIdentityText k.1 then [identityName] else []).Nodup := by
  rw [List.nodup_append]
  refine ⟨?_, by split <;> simp, fun name hname name' hname' => ?_⟩
  · refine List.Nodup.map_on (fun k hk k' hk' heq => ?_) ?_
    · rw [List.mem_filter, LambdaTable.mem_toList] at hk hk'
      have hnumbered : k.2.name ≠ identityName := fun hname => by
        simp [(h.isIdentityText_iff hk.1).2 hname] at hk
      have htext := (h.apart hk.1 hk'.1 heq).resolve_right hnumbered
      have hsignature := hk'.1
      rw [← htext, hk.1] at hsignature
      exact Prod.ext htext (Option.some.inj hsignature)
    · exact (List.Nodup.of_map _ w.table.nodup_toList).filter _
  · obtain ⟨k, hk, rfl⟩ := List.mem_map.1 hname
    rw [List.mem_filter, LambdaTable.mem_toList] at hk
    split at hname'
    · rintro heq
      rw [List.mem_singleton.1 hname'] at heq
      simp [(h.isIdentityText_iff hk.1).2 heq] at hk
    · cases hname'

theorem mem_recordedNames {name : String} :
    (name ∈ (w.table.toList.filter fun k => !block.isIdentityText k.1).map (·.2.name) ++
      if w.table.toList.any fun k => block.isIdentityText k.1 then [identityName] else []) ↔
      ∃ text s, w.table.get? text = some s ∧ s.name = name := by
  rw [List.mem_append]
  constructor
  · rintro (hname | hname)
    · obtain ⟨⟨text, s⟩, hk, rfl⟩ := List.mem_map.1 hname
      exact ⟨text, s, LambdaTable.mem_toList.1 (List.mem_filter.1 hk).1, rfl⟩
    · split at hname
      next hany =>
        obtain ⟨⟨text, s⟩, hk, hidentity⟩ := List.any_eq_true.1 hany
        have hs := LambdaTable.mem_toList.1 hk
        refine ⟨text, s, hs, ?_⟩
        rw [List.mem_singleton.1 hname, (h.isIdentityText_iff hs).1 hidentity]
      next => cases hname
  · rintro ⟨text, s, hs, rfl⟩
    have hk := LambdaTable.mem_toList.2 hs
    cases hidentity : block.isIdentityText text with
    | true =>
      have hany : (w.table.toList.any fun k => block.isIdentityText k.1) = true :=
        List.any_eq_true.2 ⟨_, hk, hidentity⟩
      rw [if_pos hany, (h.isIdentityText_iff hs).1 hidentity]
      exact .inr (List.mem_singleton.2 rfl)
    | false =>
      refine .inl (List.mem_map.2 ⟨(text, s), List.mem_filter.2 ⟨hk, ?_⟩, rfl⟩)
      simp [hidentity]

/-- One function is made up for each text that is not the bare placeholder, and one for all that are. -/
theorem length_hoisted :
    (w.session.registry.entries.filter Entry.isHoisted).length =
      (w.table.toList.filter fun k => !block.isIdentityText k.1).length +
        if w.table.toList.any fun k => block.isIdentityText k.1 then 1 else 0 := by
  have hnodup : ((w.session.registry.entries.filter Entry.isHoisted).map Entry.name).Nodup :=
    h.nodup.sublist (List.filter_sublist.map _)
  have hperm := (List.perm_ext_iff_of_nodup hnodup h.nodup_recordedNames).2 fun name =>
    h.mem_hoistedNames.trans h.mem_recordedNames.symm
  have hlength := hperm.length_eq
  rw [List.length_map, List.length_append, List.length_map] at hlength
  rw [hlength]
  split <;> rfl

end Walk.Hoisted

/-! ## Whole blocks -/

/-- A walk that ends well has met the anonymous functions of the block. -/
theorem Block.hoisted_of_hoist {functions : FunctionTable} {options : Options} {block : Block}
    {table : LambdaTable} {S : Session}
    (h : Session.hoist functions options block .start = (.ok table, S)) :
    (block.walk functions options).Hoisted functions options block.lambdas ∧
      table = (block.walk functions options).table ∧
        S.registry = (block.walk functions options).session.registry := by
  rw [hoist_eq] at h
  rcases hrun : Hoist.topLevel functions options block.stmts { session := .start } with ⟨e | _, w⟩ <;>
    rw [hrun] at h
  · cases h
  · have hvisits := Hoist.visits_topLevel block.stmts hrun
    have hmem : ∀ l ∈ Stmt.lambdasAll block.stmts, l.expr ∈ block.exprs := fun _ => Block.mem_lambdas.1
    have hhoisted := (Walk.Hoisted.start functions options).visit hmem hvisits
    cases h
    refine ⟨?_, rfl, rfl⟩
    rw [walk, hrun]
    exact hhoisted

/-- Hoisting is complete, and it compiles each anonymous function once.

When it ends well, the texts in the table are those of the anonymous functions in the block, wherever
they stand.  The function recorded for a text was made for the first one with that text, counted from
the inside out: it takes one real named `_`, belongs to the module, has the type of the body, and is
there with its code.  Two texts have one function only if both are the bare placeholder.  There are as
many functions as texts, but all texts of the bare placeholder share one. -/
theorem hoisting_complete {functions : FunctionTable} {options : Options} {block : Block}
    {table : LambdaTable} {S : Session}
    (h : Session.hoist functions options block .start = (.ok table, S)) :
    (∀ text, (∃ s, table.get? text = some s) ↔
      ∃ body span, Expr.lambda body text span ∈ block.exprs) ∧
    (∀ text s, table.get? text = some s →
      s.params = [⟨"_", .real⟩] ∧ s.owner = options.owner ∧
      (∃ l, block.firstLambda? text = some l ∧ ∀ lambdas, ∃ typing,
        l.body.infer ⟨functions, .empty, lambdas, options.maxDepth⟩ = .ok typing ∧
          typing.ty = s.result) ∧
      ∃ chunk, S.registry.get? s.name = some (.ofSignature s .synthetic (some chunk))) ∧
    (∀ text text' s, table.get? text = some s → table.get? text' = some s → text ≠ text' →
      block.isIdentityText text = true ∧ block.isIdentityText text' = true) ∧
    (S.registry.entries.filter Entry.isHoisted).length =
      (table.toList.filter fun k => !block.isIdentityText k.1).length +
        if table.toList.any fun k => block.isIdentityText k.1 then 1 else 0 := by
  obtain ⟨hoisted, rfl, hregistry⟩ := Block.hoisted_of_hoist h
  rw [hregistry]
  refine ⟨fun text => ⟨?_, ?_⟩, fun text s hs => ?_, fun text text' s hs hs' hne => ?_,
    hoisted.length_hoisted⟩
  · rintro ⟨s, hs⟩
    obtain ⟨l, hl, -⟩ := hoisted.first hs
    have htext : l.text = text := by simpa using List.find?_some hl
    have hmem := Block.mem_lambdas.1 (List.mem_of_find?_eq_some hl)
    exact ⟨l.body, l.span, htext ▸ hmem⟩
  · rintro ⟨body, span, hmem⟩
    exact hoisted.covers ⟨body, text, span⟩ (Block.mem_lambdas.2 hmem)
  · obtain ⟨l, hl, hbecomes⟩ := hoisted.first hs
    exact ⟨hbecomes.params, hbecomes.owner, ⟨l, hl, hbecomes.result⟩,
      hoisted.closed.session.lambdas hs⟩
  · have hname := (hoisted.apart hs hs' rfl).resolve_left hne
    exact ⟨(hoisted.isIdentityText_iff hs).2 hname, (hoisted.isIdentityText_iff hs').2 hname⟩

/-- A block with two spellings of the bare placeholder, one of them in a declaration, and an anonymous
function within another. -/
def spelledBlock : Block :=
  ⟨[.expr (.lambda (.placeholder default) "{_}" default),
    .decl ⟨"f", default⟩ [.ret (.lambda (.placeholder default) "{ _ }" default) default] default,
    .expr (.lambda (.lambda (.literal (.int 2) "2" default) "{2}" default) "{{2}}" default)]⟩

theorem hoisting_complete_spelledBlock :
    ∃ table S, Session.hoist (.ofList []) {} spelledBlock .start = (.ok table, S) ∧
      S.registry.names = ["_lambda_identity", "_lambda_1", "_lambda_2"] ∧
      (∃ s, table.get? "{ _ }" = some s) ∧
      (∀ text s, table.get? text = some s → s.params = [⟨"_", .real⟩] ∧ s.owner = "Main") ∧
      (table.toList.filter fun k => !spelledBlock.isIdentityText k.1).length = 2 := by
  have hnames : (Session.hoist (.ofList []) {} spelledBlock .start).2.registry.names =
      ["_lambda_identity", "_lambda_1", "_lambda_2"] := by
    decide +kernel
  have hcount : ((Session.hoist (.ofList []) {} spelledBlock .start).2.registry.entries.filter
      Entry.isHoisted).length = 3 := by
    decide +kernel
  have hok : (Session.hoist (.ofList []) {} spelledBlock .start).1.toOption.isSome = true := by
    decide +kernel
  rcases hrun : Session.hoist (.ofList []) {} spelledBlock .start with ⟨e | table, S⟩ <;>
    rw [hrun] at hnames hcount hok
  · cases hok
  · obtain ⟨htexts, hfunctions, -, hlength⟩ := hoisting_complete hrun
    have hspelled : ∃ s, table.get? "{ _ }" = some s :=
      (htexts "{ _ }").2 ⟨.placeholder default, default, .tail _ (.tail _ (.head _))⟩
    refine ⟨table, S, rfl, hnames, hspelled, fun text s hs => ?_, ?_⟩
    · obtain ⟨hparams, howner, -⟩ := hfunctions text s hs
      exact ⟨hparams, howner⟩
    · obtain ⟨s, hs⟩ := hspelled
      have hidentity : spelledBlock.isIdentityText "{ _ }" = true := by decide +kernel
      have hany : (table.toList.any fun k => spelledBlock.isIdentityText k.1) = true :=
        List.any_eq_true.2 ⟨_, LambdaTable.mem_toList.2 hs, hidentity⟩
      rw [hcount, if_pos hany] at hlength
      omega

end BlockCompiler
