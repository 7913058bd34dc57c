import BlockCompiler.Proofs.Additions
import BlockCompiler.Proofs.Preservation
import BlockCompiler.Proofs.ShortestDecimal

/-!
# The reals that code loads

A real literal is loaded by the number that the pool has for it, and of constants that are the same the
pool keeps the first.  So a load may find another real than the one that was written, but only if both are
zeros.

* `Binary64.canonical_eq_iff` says which reals are one constant: equal ones, two zeros, and two that are not
  numbers.
* `Pool.get?_add_real` says what a real is found as after any additions, and `Pool.zero_addAll` that all
  zeros are found as the first.
* `Gen.stmts_loads` says that the code of a body loads the reals that its statements write, in order, and
  `Block.loads_session` that all code of a block is so.
* `real_loads_exact` is the result for pools and for blocks.
-/

namespace BlockCompiler

/-! ## Reals that are one constant -/

namespace Binary64

/-- Whether a real is as good as another: it is the same, or neither is a number. -/
def Agrees (y x : Binary64) : Prop := y = x ∨ y.isNaN = true ∧ x.isNaN = true

instance : DecidableRel Agrees := fun y x => inferInstanceAs (Decidable (y = x ∨ _ ∧ _))

theorem isNaN_of_isZero {x : Binary64} (h : x.isZero = true) : x.isNaN = false := by
  simp [isNaN, (isZero_iff x).1 h]

theorem isNaN_canonical (x : Binary64) : x.canonical.isNaN = x.isNaN := by
  by_cases hx : x.isNaN = true
  · rw [canonical, if_pos hx, hx]
    decide
  · by_cases hzero : x.isZero = true
    · rw [canonical, if_neg hx, if_pos hzero, isNaN_of_isZero hzero]
      decide
    · rw [canonical, if_neg hx, if_neg hzero]

theorem isZero_canonical (x : Binary64) : x.canonical.isZero = x.isZero := by
  by_cases hx : x.isNaN = true
  · have hzero : x.isZero = false := by
      rw [← Bool.not_eq_true]
      intro hzero
      rw [isNaN_of_isZero hzero] at hx
      cases hx
    rw [canonical, if_pos hx, hzero]
    decide
  · by_cases hzero : x.isZero = true
    · rw [canonical, if_neg hx, if_pos hzero, hzero]
      decide
    · rw [canonical, if_neg hx, if_neg hzero]

/-- Reals are one constant if they are equal, or neither is a number, or both are zeros. -/
theorem canonical_eq_iff {x y : Binary64} :
    x.canonical = y.canonical ↔ x.Agrees y ∨ x.isZero = true ∧ y.isZero = true := by
  constructor
  · intro h
    have hnan : x.isNaN = y.isNaN := by rw [← isNaN_canonical, h, isNaN_canonical]
    have hzero : x.isZero = y.isZero := by rw [← isZero_canonical, h, isZero_canonical]
    by_cases hx : x.isNaN = true
    · exact .inl (.inr ⟨hx, hnan ▸ hx⟩)
    · by_cases hxz : x.isZero = true
      · exact .inr ⟨hxz, hzero ▸ hxz⟩
      · rw [canonical, if_neg hx, if_neg hxz, canonical, if_neg (hnan ▸ hx), if_neg (hzero ▸ hxz)] at h
        exact .inl (.inl h)
  · rintro ((rfl | ⟨hx, hy⟩) | ⟨hx, hy⟩)
    · rfl
    · rw [canonical, canonical, if_pos hx, if_pos hy]
    · simp [canonical, isNaN_of_isZero, hx, hy]

end Binary64

theorem Constant.same_real_iff {x y : Binary64} :
    Same (.real x) (.real y) ↔ x.Agrees y ∨ x.isZero = true ∧ y.isZero = true := by
  rw [← Binary64.canonical_eq_iff, Same, canonical, canonical, Constant.real.injEq]

/-- Only zeros are the same as a zero. -/
theorem Constant.Same.isZero_of_isZero {c : Constant} {x : Binary64} (h : Same c (.real x))
    (hx : x.isZero = true) : ∃ z, c = .real z ∧ z.isZero = true := by
  cases c with
  | real z =>
    refine ⟨z, rfl, ?_⟩
    rcases Constant.same_real_iff.1 h with (rfl | ⟨-, hnan⟩) | ⟨hz, -⟩
    · exact hx
    · rw [Binary64.isNaN_of_isZero hx] at hnan
      cases hnan
    · exact hz
  | _ => simp [Same, canonical] at h

/-! ## Reals in a pool -/

/-- The first zero among some constants. -/
def Constant.firstZero? (cs : List Constant) : Option Binary64 :=
  cs.findSome? fun
    | .real z => if z.isZero then some z else none
    | _ => none

namespace Pool

theorem addAll_append (p : Pool) (cs ds : List Constant) :
    p.addAll (cs ++ ds) = (p.addAll cs).addAll ds :=
  List.foldl_append

theorem addAll_concat (p : Pool) (cs : List Constant) (c : Constant) :
    p.addAll (cs ++ [c]) = ((p.addAll cs).add c).1 :=
  p.addAll_append cs [c]

theorem stored_eq_of_find? {p : Pool} {c d : Constant} {i : Nat} (hi : p.find? c = some i)
    (hd : p.get? i = some d) : p.stored c = d := by
  simp [stored, hi, hd]

/-- Where a real is found, there is one that stands for it. -/
theorem get?_of_find?_real {p : Pool} {x : Binary64} {i : Nat} (hi : p.find? (.real x) = some i) :
    p.get? i = some (.real (p.storedReal x)) := by
  obtain ⟨d, hd, -⟩ := same_of_find? hi
  rw [← p.stored_real x, stored_eq_of_find? hi hd]
  exact hd

/-- The real that stands for another is as good, unless both are zeros. -/
theorem storedReal_agrees (p : Pool) {x : Binary64} (hx : x.isZero = false) :
    (p.storedReal x).Agrees x := by
  have hsame := p.same_stored (.real x)
  rw [stored_real, Constant.same_real_iff, hx] at hsame
  simpa using hsame

/-- What a pool has in the place of a constant stays there. -/
theorem storedReal_eq_of_growsTo {p q : Pool} {x : Binary64} {i : Nat} (hi : p.find? (.real x) = some i)
    (hpq : p.GrowsTo q) : q.storedReal x = p.storedReal x := by
  have hp := hpq.get? (get?_of_find?_real hi)
  have hq := get?_of_find?_real (hpq.find? hi)
  rw [hp] at hq
  exact (Constant.real.inj (Option.some.inj hq)).symm

/-- Constants that are the same are found at one place. -/
theorem find?_congr {c d : Constant} (h : Constant.Same c d) (p : Pool) : p.find? c = p.find? d := by
  have hholds : p.holds c = p.holds d := by
    funext i
    unfold holds
    split
    next e _ => exact decide_eq_decide.2 ⟨fun hc => hc.trans h, fun hd => hd.trans h.symm⟩
    next => rfl
  rw [find?, find?, h.fingerprint_eq, hholds]

/-- A constant that is not the same as another leaves that one unknown. -/
theorem find?_add_eq_none {p : Pool} {c d : Constant} (hcd : ¬Constant.Same c d)
    (hnone : p.find? d = none) : (p.add c).1.find? d = none := by
  cases hc : p.find? c with
  | some i => rw [add_of_find? hc, hnone]
  | none => rw [add_of_not_find? hc, find?_push_of_not_same hcd, hnone]

/-- A constant that was unknown stands for itself. -/
theorem stored_add {p : Pool} {c : Constant} (hnone : p.find? c = none) : (p.add c).1.stored c = c := by
  have hfound := p.find?_add c
  rw [add_of_not_find? hnone] at hfound ⊢
  exact stored_eq_of_find? hfound (by rw [get?_push, if_pos rfl])

theorem storedReal_congr {x y : Binary64} (h : Constant.Same (.real x) (.real y)) {p : Pool} {i : Nat}
    (hi : p.find? (.real x) = some i) : p.storedReal x = p.storedReal y := by
  have hx := get?_of_find?_real hi
  rw [find?_congr h] at hi
  rw [get?_of_find?_real hi] at hx
  exact (Constant.real.inj (Option.some.inj hx)).symm

theorem firstZero?_of_not_same {x : Binary64} (hx : x.isZero = true) {c : Constant}
    (hc : ¬Constant.Same c (.real x)) (cs : List Constant) :
    Constant.firstZero? (c :: cs) = Constant.firstZero? cs := by
  cases c with
  | real z =>
    rw [Constant.same_real_iff, hx] at hc
    have hz : ¬z.isZero = true := fun hz => hc (.inr ⟨hz, rfl⟩)
    simp [Constant.firstZero?, hz]
  | _ => rfl

/-- In a pool that additions reach, a zero is the first that was added. -/
theorem zero_addAll {x : Binary64} (hx : x.isZero = true) (cs : List Constant) {p : Pool}
    (hnone : p.find? (.real x) = none) :
    (p.addAll cs).storedReal x = (Constant.firstZero? cs).getD x := by
  induction cs generalizing p with
  | nil => simp [addAll, storedReal, stored, hnone, Constant.firstZero?]
  | cons c cs ih =>
    by_cases hsame : Constant.Same c (.real x)
    · obtain ⟨z, rfl, hz⟩ := Constant.Same.isZero_of_isZero hsame hx
      rw [← find?_congr hsame] at hnone
      have hfound := p.find?_add (.real z)
      have hself : (p.add (.real z)).1.storedReal z = z := by
        have hstored := stored_add hnone
        rw [stored_real] at hstored
        exact Constant.real.inj hstored
      -- From here on the zero is found, whatever else is added.
      have hkept := storedReal_eq_of_growsTo hfound (growsTo_addAll _ cs)
      have hlast := (growsTo_addAll (p.add (.real z)).1 cs).find? hfound
      show ((p.add (.real z)).1.addAll cs).storedReal x = _
      rw [← storedReal_congr hsame hlast, hkept, hself]
      simp [Constant.firstZero?, hz]
    · rw [firstZero?_of_not_same hx hsame]
      exact ih (find?_add_eq_none hsame hnone)

/-- What stands for a real in a pool that additions reach: a zero is the first that was added, and any other
real is as good as itself. -/
theorem storedReal_addAll (cs : List Constant) (x : Binary64) :
    if x.isZero then (empty.addAll cs).storedReal x = (Constant.firstZero? cs).getD x
    else ((empty.addAll cs).storedReal x).Agrees x := by
  split
  next hx =>
    refine zero_addAll hx cs ?_
    rw [find?_eq_none_iff]
    intro i d hd
    simp [empty, get?] at hd
  next hx => exact storedReal_agrees _ (Bool.not_eq_true _ ▸ hx)

/-- What is found under the number that adding a real returned, whatever is added later. -/
theorem get?_add_real (cs : List Constant) (x : Binary64) (later : List Constant) :
    ∃ y, (((empty.addAll cs).add (.real x)).1.addAll later).get?
        ((empty.addAll cs).add (.real x)).2 = some (.real y) ∧
      if x.isZero then y = (Constant.firstZero? cs).getD x else y.Agrees x := by
  have hfound := (growsTo_addAll _ later).find? ((empty.addAll cs).find?_add (.real x))
  refine ⟨_, get?_of_find?_real hfound, ?_⟩
  rw [← addAll_concat, ← addAll_append, List.append_assoc]
  have hstored := storedReal_addAll (cs ++ ([.real x] ++ later)) x
  by_cases hx : x.isZero = true
  · rw [if_pos hx] at hstored ⊢
    rw [hstored, Constant.firstZero?, List.findSome?_append]
    cases hfirst : Constant.firstZero? cs with
    | some z => rw [Constant.firstZero?] at hfirst; rw [hfirst]; rfl
    | none => rw [Constant.firstZero?] at hfirst; simp [hfirst, hx]
  · rw [if_neg hx] at hstored ⊢
    exact hstored

end Pool

/-! ## Bodies -/

namespace Gen

/-- Between two states of a function, the code of `ms` was appended. -/
structure Appended (w w' : Workbench) (ms : List Emitted) : Prop where
  code : w'.frame.emitter.chunk.code.toList =
    w.frame.emitter.chunk.code.toList ++ codeBytes w'.session.pool (instrs ms)
  interned : AllInterned ms w'.session.pool
  pool : w.session.pool.GrowsTo w'.session.pool
  scope : w'.frame.scope = w.frame.scope

variable {ctx : CodeContext} {w w₁ w' : Workbench} {ms ns : List Emitted} {ts : List Ty}

theorem Added.appended (h : Added w w' ms ts) : Appended w w' ms := by
  refine ⟨?_, h.interned, h.pool, h.scope⟩
  rw [h.frame]
  exact Emitter.code_writeAll _ _ _

theorem Appended.trans (h : Appended w w₁ ms) (h' : Appended w₁ w' ns) : Appended w w' (ms ++ ns) := by
  refine ⟨?_, (h.interned.mono h'.pool).append h'.interned, h.pool.trans h'.pool,
    h'.scope.trans h.scope⟩
  have hms := codeBytes_eq_of_growsTo h.interned.instrs h'.pool
  rw [h'.code, h.code, instrs_append, codeBytes_append, hms, List.append_assoc]

/-- A step that writes no code. -/
theorem appended_nil (hsession : w'.session = w.session)
    (hcode : w'.frame.emitter.chunk.code = w.frame.emitter.chunk.code)
    (hscope : w'.frame.scope = w.frame.scope) : Appended w w' [] := by
  refine ⟨by simp [hcode], .nil _, ?_, hscope⟩
  rw [hsession]

theorem appended_setLine {line : Nat} (h : setLine ctx line w = (.ok (), w')) : Appended w w' [] := by
  unfold setLine at h
  split at h
  · cases h
    exact appended_nil rfl rfl rfl
  · cases h
    exact appended_nil rfl rfl rfl

/-- What a body ends with loads nothing. -/
theorem appended_returnLeft {span : Span} (h : returnLeft span w = (.ok (), w')) :
    ∃ ms, Appended w w' ms ∧ loadedReals ms = [] := by
  obtain ⟨fr, _, hframe, hreturn⟩ := Attempt.bind_eq_ok.1 h
  cases hframe
  match htypes : w.frame.operands.types with
  | [] =>
    simp only [htypes] at hreturn
    split at hreturn
    next =>
      obtain ⟨_, w₁, hunit, hret⟩ := Attempt.bind_eq_ok.1 hreturn
      have hunit : Wrote w w₁ [.of .unit] [] := wrote_emit rfl (fun e p => e.unit_eq p) hunit
      exact ⟨_, (hunit.trans (wrote_returnTop hret)).added.appended, rfl⟩
    next => cases Attempt.fail_ne_ok hreturn
  | [t] =>
    simp only [htypes] at hreturn
    obtain ⟨actual, w₁, hpop, hrest⟩ := Attempt.bind_eq_ok.1 hreturn
    have hpopped : Appended w w₁ [] := by
      simp only [popTy, TypeStack.pop, htypes, Prod.mk.injEq, Except.ok.injEq] at hpop
      obtain ⟨-, rfl⟩ := hpop
      exact appended_nil rfl rfl rfl
    split at hrest
    next => exact ⟨_, hpopped.trans (wrote_returnTop hrest).added.appended, rfl⟩
    next =>
      split at hrest
      next => exact ⟨_, hpopped.trans (wrote_returnUnit hrest).added.appended, rfl⟩
      next => cases Attempt.fail_ne_ok hrest
  | _ :: _ :: _ =>
    simp only [htypes] at hreturn
    obtain rfl : w = w' := congrArg Prod.snd hreturn
    exact ⟨[], appended_nil rfl rfl rfl, rfl⟩

theorem foldl_pop_eq (p : Pool) (ts : List Ty) (e : Emitter) :
    ts.foldl (fun e _ => e.pop) e = e.writeAll p (ts.map fun _ => .of .pop) := by
  induction ts generalizing e with
  | nil => rfl
  | cons t ts ih => exact ih e.pop

theorem appended_dropOperands (h : dropOperands w = (.ok (), w')) :
    Appended w w' (w.frame.operands.types.map fun _ => .of .pop) := by
  cases h
  refine ⟨?_, fun m hm => ?_, .refl _, rfl⟩
  · show (w.frame.operands.types.foldl (fun e _ => e.pop) w.frame.emitter).chunk.code.toList = _
    rw [foldl_pop_eq w.session.pool]
    exact Emitter.code_writeAll _ _ _
  · obtain ⟨_, _, rfl⟩ := List.mem_map.1 hm
    exact Instr.interned_of_constant?_eq_none rfl _

theorem loadedReals_pops (ts : List Ty) : loadedReals (ts.map fun _ => .of .pop) = [] := by
  induction ts with
  | nil => rfl
  | cons t ts ih => exact ih

/-- The code of statements loads the reals that they write, in order. -/
theorem stmts_loads : ∀ (ss : List Stmt) {w w' : Workbench}, stmts ctx ss w = (.ok (), w') →
    ∃ ms, Appended w w' ms ∧
      loadedReals ms = ss.flatMap (Stmt.realLoads ctx.functions w.frame.scope)
  | [], w, w', h => by
    obtain ⟨fr, _, hframe, hreturn⟩ := Attempt.bind_eq_ok.1 h
    cases hframe
    exact appended_returnLeft hreturn
  | s :: rest, w, w', h => by
    obtain ⟨_, w₁, hline, hrest₁⟩ := Attempt.bind_eq_ok.1 h
    obtain ⟨_, w₂, hstmt, hrest₂⟩ := Attempt.bind_eq_ok.1 hrest₁
    have hlined := appended_setLine hline
    obtain ⟨ms, hms, hreals⟩ : ∃ ms, Appended w w₂ ms ∧
        loadedReals ms = s.realLoads ctx.functions w.frame.scope := by
      obtain ⟨ms, ts, hadded, hreals⟩ := stmt_added hstmt
      rw [hlined.scope] at hreals
      exact ⟨ms, hlined.trans hadded.appended, hreals⟩
    obtain ⟨ns, hns, hreals'⟩ : ∃ ns, Appended w₂ w' ns ∧
        loadedReals ns = rest.flatMap (Stmt.realLoads ctx.functions w₂.frame.scope) := by
      cases rest with
      | nil =>
        dsimp only at hrest₂
        split at hrest₂
        next =>
          cases hrest₂
          exact ⟨[], appended_nil rfl rfl rfl, rfl⟩
        next => exact appended_returnLeft hrest₂
      | cons s' rest =>
        obtain ⟨_, w₃, hdrop, htail⟩ := Attempt.bind_eq_ok.1 hrest₂
        have hdrop := appended_dropOperands hdrop
        obtain ⟨ns, hns, hreals'⟩ := stmts_loads (s' :: rest) htail
        refine ⟨_, hdrop.trans hns, ?_⟩
        rw [loadedReals_append, loadedReals_pops, hreals', hdrop.scope, List.nil_append]
    refine ⟨_, hms.trans hns, ?_⟩
    rw [loadedReals_append, hreals, hreals', hms.scope, List.flatMap_cons]

end Gen

/-! ## Functions -/

/-- The statements that a function with a signature is compiled from: the body of a declaration, the body of
an anonymous function, or an expression that is wrapped. -/
inductive Block.BodyOf (block : Block) (functions : FunctionTable) (options : Options) :
    Signature → List Stmt → Prop where
  | decl {d : Decl} {s : Signature} (hd : d ∈ block.decls) (hs : functions.get? d.name.name = some s) :
    BodyOf block functions options s d.body
  | lambda {body : Expr} {text : String} {span : Span} (id : Nat) (result : Ty)
    (he : Expr.lambda body text span ∈ block.exprs) :
    BodyOf block functions options (Hoist.lambdaSignature id body result options.owner)
      [.ret body body.span]
  | wrapper {e : Expr} (id : Nat) (params : List Ty) (result : Ty) (he : e ∈ block.exprs) :
    BodyOf block functions options (Gen.wrapperSignature id params result options.owner) [.ret e e.span]

/-- Whether code loads the reals that the statements it is compiled from write, in order. -/
def LoadsReals (functions : FunctionTable) (options : Options) (block : Block) : CodeProperty :=
  fun p s chunk => ∃ body ms, block.BodyOf functions options s body ∧
    chunk.code.toList = codeBytes p (instrs ms) ∧ AllInterned ms p ∧
    loadedReals ms = body.flatMap (Stmt.realLoads functions (.ofParams s.params))

theorem survives_loadsReals (functions : FunctionTable) (options : Options) (block : Block) :
    (LoadsReals functions options block).Survives := by
  rintro p q s chunk ⟨body, ms, hbody, hcode, hinterned, hreals⟩ hpq
  refine ⟨body, ms, hbody, ?_, hinterned.mono hpq, hreals⟩
  rw [hcode, codeBytes_eq_of_growsTo hinterned.instrs hpq]

namespace Gen

variable {ctx : CodeContext} {block : Block} {S : Session} {s : Signature} {site : Span} {depth : Nat}
  {w' : Workbench}

/-- What a body writes is all of the code of its function. -/
theorem framed_loads {code : Gen Unit} {body : List Stmt}
    (hbody : block.BodyOf ctx.functions ctx.options s body)
    (h : framed ctx code ⟨S, .start s site depth⟩ = (.ok (), w'))
    (hcode : ∀ {w₁ w₂}, code w₁ = (.ok (), w₂) → ∃ ms, Appended w₁ w₂ ms ∧
      loadedReals ms = body.flatMap (Stmt.realLoads ctx.functions w₁.frame.scope)) :
    LoadsReals ctx.functions ctx.options block w'.session.pool s
      (w'.frame.emitter.finish w'.frame.scope.maxLocals) := by
  obtain ⟨w₁, w₂, hopened, hrun, hsession, -, hlast, -⟩ := framed_eq_ok h
  obtain ⟨ms, hms, hreals⟩ := hcode hrun
  rw [hopened.scope] at hreals
  refine ⟨body, ms, hbody, ?_, ?_, hreals⟩
  · show w'.frame.emitter.chunk.code.toList = _
    rw [hsession, hlast, hms.code, hopened.code]
    rfl
  · rw [hsession]
    exact hms.interned

theorem body_loads {ss : List Stmt} (hss : block.BodyOf ctx.functions ctx.options s ss)
    (h : body ctx ss ⟨S, .start s site depth⟩ = (.ok (), w')) :
    LoadsReals ctx.functions ctx.options block w'.session.pool s
      (w'.frame.emitter.finish w'.frame.scope.maxLocals) :=
  framed_loads hss h fun hrun => stmts_loads ss hrun

theorem returnHas_loads {e : Expr} (he : block.BodyOf ctx.functions ctx.options s [.ret e e.span]) (span : Span) :
    ReturnHas (LoadsReals ctx.functions ctx.options block) ctx e span s := by
  intro S site depth w h
  refine framed_loads he h fun {w₁ w₂} hrun => ?_
  obtain ⟨_, w₃, hline, hreturn⟩ := Attempt.bind_eq_ok.1 hrun
  have hlined := appended_setLine hline
  obtain ⟨ms, hms, hreals⟩ := added_returnValue hreturn
  refine ⟨_, hlined.trans hms.appended, ?_⟩
  rw [List.nil_append, hreals, hlined.scope]
  simp [Stmt.realLoads]

end Gen

/-! ## Blocks -/

namespace Block

variable (block : Block) (functions : FunctionTable) (options : Options)

/-- All code of a block loads the reals that its source writes. -/
theorem loads_session :
    (block.session functions options).AllCode (LoadsReals functions options block) := by
  have hP := survives_loadsReals functions options block
  have hwrapper {e : Expr} (he : e ∈ block.exprs) (lambdas : LambdaTable) :
      Gen.WrapperHas (LoadsReals functions options block) ⟨functions, options, lambdas⟩ e :=
    fun id params result => Gen.returnHas_loads (.wrapper id params result he) e.span
  refine allCode_session hP (fun body text span he _ _ _ _ => ?_) fun w _ d hd => ?_
  · refine Hoist.lambda_keepsCode hP (fun lambdas id result => ?_) fun lambdas e hmem => ?_
    · exact Gen.returnHas_loads (.lambda id result he) span
    · exact hwrapper (mem_exprs_of_mem_subexprs hmem (body_mem_exprs he)) lambdas
  · refine Session.keepsCode_compileDecl hP (fun e hmem => ?_) fun hs hrun => ?_
    · exact hwrapper (mem_exprs_of_mem_decls hd e hmem) w.table
    · exact Gen.body_loads (.decl hd hs) hrun

end Block

/-- The zero that a pool has in the place of every zero that it knows. -/
theorem Pool.storedReal_eq_zero {p : Pool} {x : Binary64} (hx : x.isZero = true) {i : Nat}
    (hi : p.find? (.real x) = some i) : p.storedReal x = p.storedReal .zero :=
  storedReal_congr (Constant.same_real_iff.2 (.inr ⟨hx, by decide⟩)) hi

theorem Pool.isZero_storedReal_zero (p : Pool) : (p.storedReal .zero).isZero = true := by
  have hsame := p.same_stored (.real .zero)
  rw [stored_real] at hsame
  obtain ⟨z, heq, hz⟩ := hsame.isZero_of_isZero (by decide)
  rw [Constant.real.inj heq]
  exact hz

theorem mem_loadedReals {x : Binary64} {ms : List Emitted} :
    x ∈ loadedReals ms ↔ .push (.real x) ∈ instrs ms := by
  rw [loadedReals, List.mem_filterMap]
  constructor
  · rintro ⟨i, hi, hx⟩
    unfold Instr.real? at hx
    split at hx
    · cases hx
      exact hi
    · cases hx
  · intro h
    exact ⟨_, h, rfl⟩

/-- Reals survive the pool, zeros apart.

After any additions to the empty pool and before any others, the number that adding a real returns leads
to a real.  It is as good as the one that was added, or the first zero of all if that one is a zero.

In the module of a block, the code of each function loads the reals that the statements it was compiled
from write, in order.  Where it loads a real that is no zero it finds one that is as good, and where it loads
a zero it finds one and the same zero. -/
theorem real_loads_exact (functions : FunctionTable) (options : Options) (block : Block) :
    (∀ (cs : List Constant) (x : Binary64) (later : List Constant), ∃ y,
      (((Pool.empty.addAll cs).add (.real x)).1.addAll later).get?
          ((Pool.empty.addAll cs).add (.real x)).2 = some (.real y) ∧
        if x.isZero then y = (Constant.firstZero? cs).getD x else y.Agrees x) ∧
    ∃ z : Binary64, z.isZero = true ∧
      ∀ entry ∈ (compileBlock functions options block).module.functions, ∃ chunk body ms,
        entry.code? = some chunk ∧ block.BodyOf functions options entry.signature body ∧
        chunk.code.toList = codeBytes (compileBlock functions options block).module.pool (instrs ms) ∧
        loadedReals ms =
          body.flatMap (Stmt.realLoads functions (.ofParams entry.signature.params)) ∧
        ((compileBlock functions options block).module.pool.size ≤ 65536 →
          chunk.listing? (compileBlock functions options block).module.pool =
            some ((instrs ms).map (·.stored (compileBlock functions options block).module.pool))) ∧
        ∀ x ∈ loadedReals ms, ∃ y,
          (Instr.push (.real x)).stored (compileBlock functions options block).module.pool =
              .push (.real y) ∧
            if x.isZero then y = z else y.Agrees x := by
  refine ⟨Pool.get?_add_real, ?_⟩
  let pool := (compileBlock functions options block).module.pool
  refine ⟨pool.storedReal .zero, pool.isZero_storedReal_zero, fun entry hentry => ?_⟩
  obtain ⟨chunk, hchunk⟩ := Block.exists_code_of_mem hentry
  obtain ⟨body, ms, hbody, hcode, hinterned, hreals⟩ :=
    Block.code_has_of_mem (block.loads_session functions options) hentry hchunk
  refine ⟨chunk, body, ms, hchunk, hbody, hcode, hreals, fun hsize => ?_, fun x hx => ?_⟩
  · exact Chunk.listing?_of_code hcode hinterned.instrs hsize
  · refine ⟨pool.storedReal x, ?_, ?_⟩
    · rw [Instr.stored, Pool.stored_real]
    · obtain ⟨i, hi⟩ := hinterned.instrs _ (mem_loadedReals.1 hx) _ rfl
      by_cases hzero : x.isZero = true
      · rw [if_pos hzero]
        exact Pool.storedReal_eq_zero hzero hi
      · rw [if_neg hzero]
        exact pool.storedReal_agrees (Bool.not_eq_true _ ▸ hzero)

/-- The function that `zerosBlock` declares. -/
def zerosFunctions : FunctionTable := .ofList [⟨"f", [], .real, "Main", false⟩]

/-- In `zerosBlock`, which writes `0.0` and `-0.0`, both are loaded as one zero. -/
theorem real_loads_exact_zerosBlock :
    ∃ entry ∈ (compileBlock zerosFunctions {} zerosBlock).module.functions, ∃ chunk ms z,
      entry.code? = some chunk ∧ loadedReals ms = [⟨0⟩, ⟨0x8000000000000000⟩] ∧
      chunk.listing? (compileBlock zerosFunctions {} zerosBlock).module.pool =
        some ((instrs ms).map (·.stored (compileBlock zerosFunctions {} zerosBlock).module.pool)) ∧
      ∀ x ∈ loadedReals ms,
        (Instr.push (.real x)).stored (compileBlock zerosFunctions {} zerosBlock).module.pool =
          .push (.real z) := by
  have hentry : ((compileBlock zerosFunctions {} zerosBlock).module.function? "f").map Entry.signature =
      some ⟨"f", [], .real, "Main", false⟩ := by
    decide +kernel
  obtain ⟨entry, hfound, hsignature⟩ := Option.map_eq_some_iff.1 hentry
  have hmem := Module.mem_of_function? hfound
  have hsize : (compileBlock zerosFunctions {} zerosBlock).module.pool.size = 1 := by decide +kernel
  obtain ⟨z, hz, hall⟩ := (real_loads_exact zerosFunctions {} zerosBlock).2
  obtain ⟨chunk, body, ms, hchunk, hbody, -, hreals, hlisting, hloads⟩ := hall entry hmem
  have hwritten : loadedReals ms = [⟨0⟩, ⟨0x8000000000000000⟩] := by
    rw [hreals]
    generalize entry.signature = s at hbody hsignature
    cases hbody with
    | decl hd hs =>
      obtain rfl := List.mem_singleton.1 hd
      rfl
    | lambda => cases congrArg Signature.params hsignature
    | wrapper => cases congrArg Signature.isPure hsignature
  refine ⟨entry, hmem, chunk, ms, z, hchunk, hwritten, hlisting (by omega), fun x hx => ?_⟩
  obtain ⟨y, hy, hzero⟩ := hloads x hx
  have hxzero : x.isZero = true := by
    rw [hwritten] at hx
    simp only [List.mem_cons, List.not_mem_nil, or_false] at hx
    rcases hx with rfl | rfl <;> decide
  rw [if_pos hxzero] at hzero
  rw [hy, hzero]

end BlockCompiler
