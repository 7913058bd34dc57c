import BlockCompiler.Proofs.SourceText
import BlockCompiler.Typing

/-!
# Types without depths

`Expr.infer` finds the type of an expression, unless it nests too deeply.  `Expr.typeOf` is the type
alone: it has no limit, and it depends on no table of anonymous functions and on no places.

* `Expr.typeOf_of_inferAt` and `Expr.inferAt_of_typeOf` relate the two.  They agree wherever the limit
  admits the height of the expression.
* `Expr.typeOf_eq_of_eraseSpans_eq` says that equal expressions at different places have one type.
* `Expr.typeOf_eq_unit` says that whether an expression is of the unit type does not depend on the
  arguments in scope.
-/

namespace BlockCompiler

/-- The type of a pair of values of a type. -/
def Ty.paired : Ty → Ty
  | int => intPair
  | _ => realPair

theorem Ty.pairOf_eq_ok {t u v : Ty} {span : Span} :
    Ty.pairOf t u span = .ok v ↔ t = u ∧ v = t.paired := by
  unfold pairOf
  by_cases h : t = u
  · subst h
    rw [if_pos rfl]
    cases t <;> simp [paired, eq_comm]
  · rw [if_neg h]
    simp [h]

theorem Ty.paired_ne_unit (t : Ty) : t.paired ≠ .unit := by
  cases t <;> simp [paired]

namespace Expr

/-- The type of an expression among the arguments of a scope and the known functions. -/
def typeOf (functions : FunctionTable) (scope : Scope) : Expr → Option Ty
  | literal value _ _ => some value.ty
  | pair first second _ _ =>
    match typeOf functions scope first, typeOf functions scope second with
    | some t, some u => if t = u then some t.paired else none
    | _, _ => none
  | var name =>
    match scope.get? name.name with
    | some v => some v.ty
    | none => (functions.get? name.name).map Signature.toTy
  | placeholder _ => some .real
  | lambda body _ _ => (typeOf functions .empty body).map fun t => .fn [.real] t
  | call callee _ _ _ => (functions.get? callee.name).map Signature.result
termination_by structural e => e

variable {functions : FunctionTable} {scope : Scope}

theorem typeOf_pair_eq_some {first second : Expr} {text : String} {span : Span} {t : Ty} :
    typeOf functions scope (pair first second text span) = some t ↔
      ∃ u, typeOf functions scope first = some u ∧ typeOf functions scope second = some u ∧
        t = u.paired := by
  rw [typeOf]
  constructor
  · intro h
    split at h
    next u v hu hv =>
      split at h
      next huv =>
        subst huv
        exact ⟨u, hu, hv, (Option.some.inj h).symm⟩
      next => cases h
    next => cases h
  · rintro ⟨u, hu, hv, rfl⟩
    simp [hu, hv]

/-! ## Inference -/

/-- A name has the type that is inferred for it. -/
theorem typeOf_var_eq_some {name : Ident} {t : Ty} :
    typeOf functions scope (var name) = some t ↔
      ∃ typing, inferName functions scope name = .ok typing ∧ typing.ty = t := by
  rw [typeOf]
  unfold inferName
  cases scope.get? name.name with
  | some v => simp [Typing.ofTy]
  | none => cases functions.get? name.name <;> simp

theorem ensureDepth_eq_ok {maxDepth depth : Nat} {span : Span} :
    ensureDepth maxDepth depth span = .ok () ↔ depth ≤ maxDepth := by
  unfold ensureDepth
  split <;> simp_all

theorem except_bind_eq_ok {α β : Type} {x : Except CompileError α}
    {f : α → Except CompileError β} {b : β} :
    (x >>= f) = .ok b ↔ ∃ a, x = .ok a ∧ f a = .ok b := by
  cases x <;> simp [bind, Except.bind]

theorem resolve_eq_ok {callee : Ident} {s : Signature} :
    resolve functions callee = .ok s ↔ functions.get? callee.name = some s := by
  unfold resolve
  split <;> simp_all

/-- What is inferred at some depth is the type. -/
theorem typeOf_of_inferAt {ctx : TypingContext} : ∀ (e : Expr) {scope : Scope} {depth : Nat}
    {typing : Typing}, e.inferAt ctx scope depth = .ok typing →
      e.typeOf ctx.functions scope = some typing.ty
  | literal value _ _, _, _, typing, h => by
    simp only [inferAt, except_bind_eq_ok] at h
    obtain ⟨_, _, h⟩ := h
    cases h
    rfl
  | pair first second _ _, _, _, typing, h => by
    simp only [inferAt, except_bind_eq_ok] at h
    obtain ⟨_, _, a, ha, b, hb, t, ht, h⟩ := h
    cases h
    obtain ⟨hab, rfl⟩ := Ty.pairOf_eq_ok.1 ht
    have hfirst := typeOf_of_inferAt first ha
    have hsecond := typeOf_of_inferAt second hb
    rw [← hab] at hsecond
    exact typeOf_pair_eq_some.2 ⟨a.ty, hfirst, hsecond, rfl⟩
  | var name, scope, _, typing, h => by
    simp only [inferAt, except_bind_eq_ok] at h
    obtain ⟨_, _, h⟩ := h
    exact typeOf_var_eq_some.2 ⟨typing, h, rfl⟩
  | placeholder _, _, _, typing, h => by
    simp only [inferAt, except_bind_eq_ok] at h
    obtain ⟨_, _, h⟩ := h
    cases h
    rfl
  | lambda body _ _, _, _, typing, h => by
    simp only [inferAt, except_bind_eq_ok] at h
    obtain ⟨_, _, b, hb, h⟩ := h
    cases h
    rw [typeOf, typeOf_of_inferAt body hb]
    rfl
  | call callee _ _ _, _, _, typing, h => by
    simp only [inferAt, except_bind_eq_ok, resolve_eq_ok] at h
    obtain ⟨_, _, s, hs, h⟩ := h
    cases h
    rw [typeOf, hs]
    rfl

/-- The type is inferred where the limit admits the height of the expression. -/
theorem inferAt_of_typeOf {ctx : TypingContext} : ∀ (e : Expr) {scope : Scope} {depth : Nat}
    {t : Ty}, e.typeOf ctx.functions scope = some t → depth + e.height ≤ ctx.maxDepth →
      ∃ typing, e.inferAt ctx scope depth = .ok typing ∧ typing.ty = t
  | literal value _ _, _, depth, t, h, hdepth => by
    cases h
    refine ⟨.ofTy value.ty, ?_, rfl⟩
    rw [inferAt, ensureDepth_eq_ok.2 (by omega)]
    rfl
  | pair first second _ span, _, depth, t, h, hdepth => by
    rw [height] at hdepth
    obtain ⟨u, hfirst, hsecond, rfl⟩ := typeOf_pair_eq_some.1 h
    have hdepths : depth + 1 + first.height ≤ ctx.maxDepth ∧
        depth + 1 + second.height ≤ ctx.maxDepth := by omega
    obtain ⟨a, ha, hat⟩ := inferAt_of_typeOf first hfirst hdepths.1
    obtain ⟨b, hb, hbt⟩ := inferAt_of_typeOf second hsecond hdepths.2
    refine ⟨.ofTy u.paired, ?_, rfl⟩
    simp only [inferAt, except_bind_eq_ok]
    have hty : Ty.pairOf a.ty b.ty span = .ok u.paired := by
      rw [hat, hbt, Ty.pairOf_eq_ok]
      exact ⟨rfl, rfl⟩
    exact ⟨(), ensureDepth_eq_ok.2 (by omega), a, ha, b, hb, u.paired, hty, rfl⟩
  | var name, scope, depth, t, h, hdepth => by
    obtain ⟨typing, htyping, rfl⟩ := typeOf_var_eq_some.1 h
    simp only [inferAt, except_bind_eq_ok]
    exact ⟨typing, ⟨(), ensureDepth_eq_ok.2 (by omega), htyping⟩, rfl⟩
  | placeholder _, _, depth, t, h, hdepth => by
    cases h
    refine ⟨.ofTy .real, ?_, rfl⟩
    rw [inferAt, ensureDepth_eq_ok.2 (by omega)]
    rfl
  | lambda body text _, _, depth, t, h, hdepth => by
    rw [height] at hdepth
    obtain ⟨u, hu, rfl⟩ := Option.map_eq_some_iff.1 h
    have hbody : depth + 1 + body.height ≤ ctx.maxDepth := by omega
    obtain ⟨b, hb, hbt⟩ := inferAt_of_typeOf body hu hbody
    refine ⟨⟨.fn [.real] b.ty, ctx.lambdas.get? text⟩, ?_, by rw [hbt]⟩
    simp only [inferAt, except_bind_eq_ok]
    exact ⟨(), ensureDepth_eq_ok.2 (by omega), b, hb, rfl⟩
  | call callee _ _ _, _, depth, t, h, hdepth => by
    obtain ⟨s, hs, rfl⟩ := Option.map_eq_some_iff.1 h
    refine ⟨.ofTy s.result, ?_, rfl⟩
    simp only [inferAt, except_bind_eq_ok, resolve_eq_ok]
    exact ⟨(), ensureDepth_eq_ok.2 (by omega), s, hs, rfl⟩

/-- The type that is inferred does not depend on what anonymous functions were compiled to. -/
theorem inferAt_of_lambdas {functions : FunctionTable} {scope₀ : Scope} {lambdas : LambdaTable}
    {maxDepth : Nat} (lambdas' : LambdaTable) : ∀ (e : Expr) {scope : Scope} {depth : Nat}
    {typing : Typing}, e.inferAt ⟨functions, scope₀, lambdas, maxDepth⟩ scope depth = .ok typing →
      ∃ typing', e.inferAt ⟨functions, scope₀, lambdas', maxDepth⟩ scope depth = .ok typing' ∧
        typing'.ty = typing.ty
  | literal _ _ _, _, _, typing, h | var _, _, _, typing, h | placeholder _, _, _, typing, h
  | call _ _ _ _, _, _, typing, h => ⟨typing, h, rfl⟩
  | pair first second _ _, _, _, typing, h => by
    simp only [inferAt, except_bind_eq_ok] at h ⊢
    obtain ⟨u, hdepth, a, ha, b, hb, ty, hty, h⟩ := h
    obtain ⟨a', ha', haty⟩ := inferAt_of_lambdas lambdas' first ha
    obtain ⟨b', hb', hbty⟩ := inferAt_of_lambdas lambdas' second hb
    rw [← haty, ← hbty] at hty
    exact ⟨typing, ⟨u, hdepth, a', ha', b', hb', ty, hty, h⟩, rfl⟩
  | lambda body text _, _, _, typing, h => by
    simp only [inferAt, except_bind_eq_ok] at h ⊢
    obtain ⟨u, hdepth, b, hb, h⟩ := h
    obtain ⟨b', hb', hbty⟩ := inferAt_of_lambdas lambdas' body hb
    cases h
    exact ⟨⟨.fn [.real] b'.ty, lambdas'.get? text⟩, ⟨u, hdepth, b', hb', rfl⟩, by rw [hbty]⟩

/-! ## Places and scopes -/

theorem typeOf_eraseSpans : ∀ (e : Expr) (scope : Scope),
    e.eraseSpans.typeOf functions scope = e.typeOf functions scope
  | literal _ _ _, _ | var _, _ | placeholder _, _ | call _ _ _ _, _ => rfl
  | pair first second _ _, scope => by
    rw [eraseSpans, typeOf, typeOf, typeOf_eraseSpans first, typeOf_eraseSpans second]
  | lambda body _ _, scope => by rw [eraseSpans, typeOf, typeOf, typeOf_eraseSpans body]

/-- The type of an expression does not depend on where it stands. -/
theorem typeOf_eq_of_eraseSpans_eq {e e' : Expr} (h : e.eraseSpans = e'.eraseSpans) :
    e.typeOf functions scope = e'.typeOf functions scope := by
  rw [← typeOf_eraseSpans e, h, typeOf_eraseSpans]

/-- An expression that is of the unit type without arguments is so with arguments. -/
theorem typeOf_eq_unit {e : Expr} {t : Ty} (h : e.typeOf functions .empty = some .unit)
    (h' : e.typeOf functions scope = some t) : t = .unit := by
  cases e with
  | literal value _ _ | call callee _ _ _ =>
    rw [typeOf] at h h'
    rw [h] at h'
    exact (Option.some.inj h').symm
  | pair first second text span =>
    obtain ⟨u, _, _, hu⟩ := typeOf_pair_eq_some.1 h
    exact absurd hu.symm u.paired_ne_unit
  | var name =>
    simp [typeOf, Signature.toTy] at h
  | placeholder span => cases h
  | lambda body text span =>
    simp [typeOf] at h

end Expr

end BlockCompiler
