import Mathlib.Order.Defs.Unbundled
import BlockCompiler.Hoisting
import BlockCompiler.Compile

/-!
# Running attempts

Code is generated by attempts, and proofs about it follow their runs.  There are three ways to do so.

* Forward, through a run that succeeds: `Attempt.bind_eq_ok` splits it into its steps.
* For every outcome: `Attempt.Keeps R x` says that the state before `x` and the state after it are
  related by `R`, whether `x` succeeds or fails.  A relation that is kept by the steps of a sequence is
  kept by the sequence.
* From one state: `Attempt.Ends E x s Q` says that `x` succeeds from `s` with what `Q` says, or fails
  with an error that `E` admits.

The attempts with many ways to end, such as `Session.compileWith` and `Gen.promote`, get one equation
each, which spells out all of them.  Where the ways are told apart often, as by `Gen.Promotion` and
`Hoist.Meeting`, there is a case for each.
-/

namespace BlockCompiler

namespace Attempt

variable {σ α β : Type}

theorem bind_eq_ok {x : Attempt σ α} {f : α → Attempt σ β} {s s'' : σ} {b : β} :
    (x >>= f) s = (.ok b, s'') ↔ ∃ a s', x s = (.ok a, s') ∧ f a s' = (.ok b, s'') := by
  rw [bind_run]
  constructor
  · intro h
    split at h
    next a s' hx => exact ⟨a, s', hx, h⟩
    next => cases h
  · rintro ⟨a, s', hx, hf⟩
    simp only [hx, hf]

theorem ofExcept_eq_ok {r : Except CompileError α} {s s' : σ} {a : α} :
    (ofExcept r : Attempt σ α) s = (.ok a, s') ↔ r = .ok a ∧ s' = s := by
  simp [ofExcept, eq_comm]

theorem fail_ne_ok {e : CompileError} {s s' : σ} {a : α} :
    ¬(fail e : Attempt σ α) s = (.ok a, s') := by
  simp [fail]

theorem discard_eq_ok {x : Attempt σ α} {s s' : σ} :
    (discard x) s = (.ok (), s') ↔ ∃ a, x s = (.ok a, s') := by
  have hrun : (discard x) s = (x >>= fun _ => pure ()) s := rfl
  rw [hrun, bind_eq_ok]
  simp

theorem ending_eq_ok {x : Attempt σ α} {f : σ → σ} {s s'' : σ} {a : α} :
    (ending x f) s = (.ok a, s'') ↔ ∃ s', x s = (.ok a, s') ∧ s'' = f s' := by
  unfold ending
  rcases x s with ⟨r, s'⟩
  simp only [Prod.mk.injEq]
  constructor
  · rintro ⟨rfl, rfl⟩
    exact ⟨s', ⟨rfl, rfl⟩, rfl⟩
  · rintro ⟨_, ⟨rfl, rfl⟩, rfl⟩
    exact ⟨rfl, rfl⟩

/-! ## Relations between the state before and the state after -/

/-- Whether an attempt relates the state before it to the state after it, however it ends. -/
def Keeps (R : σ → σ → Prop) (x : Attempt σ α) : Prop := ∀ s, R s (x s).2

theorem Keeps.of_run {R : σ → σ → Prop} {x : Attempt σ α} (h : Keeps R x) {s s' : σ}
    {r : Except CompileError α} (hrun : x s = (r, s')) : R s s' := by
  have hkeeps := h s
  rwa [hrun] at hkeeps

section Keeps

variable {R : σ → σ → Prop} [IsPreorder σ R]

/-- The second step may count on what the first one ended with. -/
theorem Keeps.bind_of_run {x : Attempt σ α} {f : α → Attempt σ β} (hx : Keeps R x)
    (hf : ∀ a s s', x s = (.ok a, s') → Keeps R (f a)) : Keeps R (x >>= f) := by
  intro s
  have h := hx s
  rw [bind_run]
  split
  next a s' hrun =>
    rw [hrun] at h
    exact trans_of R h (hf a s s' hrun s')
  next e s' hrun =>
    rw [hrun] at h
    exact h

theorem Keeps.bind {x : Attempt σ α} {f : α → Attempt σ β} (hx : Keeps R x)
    (hf : ∀ a, Keeps R (f a)) : Keeps R (x >>= f) :=
  hx.bind_of_run fun a _ _ _ => hf a

/-- A step that does not touch the state. -/
theorem keeps_of_snd_eq {x : Attempt σ α} (h : ∀ s, (x s).2 = s) : Keeps R x := by
  intro s
  rw [h]
  exact refl_of R s

theorem keeps_pure (a : α) : Keeps R (pure a : Attempt σ α) := keeps_of_snd_eq fun _ => rfl

theorem keeps_fail (e : CompileError) : Keeps R (fail e : Attempt σ α) :=
  keeps_of_snd_eq fun _ => rfl

theorem keeps_ofExcept (r : Except CompileError α) : Keeps R (ofExcept r : Attempt σ α) :=
  keeps_of_snd_eq fun _ => rfl

end Keeps

/-! ## Good ends -/

/-- Whether an attempt ends well from a state: it succeeds with what `Q` says, or it fails with an
error that `E` admits. -/
def Ends (E : CompileError → Prop) (x : Attempt σ α) (s : σ) (Q : α → σ → Prop) : Prop :=
  match x s with
  | (.ok a, s') => Q a s'
  | (.error e, _) => E e

section Ends

variable {E : CompileError → Prop} {P Q : α → σ → Prop} {x : Attempt σ α} {s s' : σ}

theorem Ends.bind {Q : β → σ → Prop} {f : α → Attempt σ β} (hx : Ends E x s P)
    (hf : ∀ a s', P a s' → Ends E (f a) s' Q) : Ends E (x >>= f) s Q := by
  unfold Ends at hx ⊢
  rw [bind_run]
  rcases hrun : x s with ⟨e | a, s'⟩ <;> rw [hrun] at hx
  · exact hx
  · exact hf a s' hx

theorem Ends.mono (h : Ends E x s P) (hPQ : ∀ a s', P a s' → Q a s') : Ends E x s Q := by
  unfold Ends at h ⊢
  rcases hrun : x s with ⟨e | a, s'⟩ <;> rw [hrun] at h
  · exact h
  · exact hPQ a s' h

theorem Ends.discard {Q : σ → Prop} (h : Ends E x s fun _ s' => Q s') :
    Ends E (discard x) s fun _ s' => Q s' :=
  Ends.bind h fun _ _ hQ => hQ

theorem Ends.ending {f : σ → σ} (h : Ends E x s fun a s' => Q a (f s')) :
    Ends E (ending x f) s Q := by
  unfold Ends Attempt.ending at *
  rcases hrun : x s with ⟨e | a, s'⟩ <;> rw [hrun] at h
  · exact h
  · exact h

theorem Ends.admits_of_run (h : Ends E x s Q) {e : CompileError} (hrun : x s = (.error e, s')) :
    E e := by
  unfold Ends at h
  rwa [hrun] at h

theorem ends_of_run (hok : ∀ {a s'}, x s = (.ok a, s') → Q a s')
    (herror : ∀ {e s'}, x s = (.error e, s') → E e) : Ends E x s Q := by
  unfold Ends
  rcases hrun : x s with ⟨e | a, s'⟩
  · exact herror hrun
  · exact hok hrun

theorem ends_ofExcept {r : Except CompileError α} (h : ∀ {e}, r = .error e → E e) :
    Ends E (ofExcept r) s fun a s' => r = .ok a ∧ s' = s := by
  unfold Ends ofExcept
  cases r with
  | error e => exact h rfl
  | ok a => exact ⟨rfl, rfl⟩

end Ends

end Attempt

/-! ## Whole functions and wrappers -/

/-- All ways to compile a function: its name may be taken, its body may fail, or it succeeds. -/
theorem Session.compileWith_eq (s : Signature) (flags : EntryFlags) (site : Span) (depth : Nat)
    (body : Gen Unit) (S : Session) :
    compileWith s flags site depth body S =
      match S.registry.declare s flags site with
      | .error e => (.error e, S)
      | .ok registry =>
        match body ⟨{ S with registry }.note (.declared s), .start s site depth⟩ with
        | (.error e, w) =>
          (.error e,
            { w.session.note (.abandoned s.name e) with
              registry := w.session.registry.abandon s.name })
        | (.ok (), w) =>
          let chunk := w.frame.emitter.finish w.frame.scope.maxLocals
          match w.session.registry.define s.name chunk site with
          | .error e => (.error e, w.session)
          | .ok registry =>
            (.ok (), { w.session with registry }.note (.defined s.name chunk.size)) := by
  unfold compileWith
  simp only [Attempt.bind_run, declare, Attempt.update]
  cases hdecl : S.registry.declare s flags site with
  | error e => rfl
  | ok registry =>
    simp only [bind, Except.bind]
    rcases hbody : body ⟨{ S with registry }.note (.declared s), .start s site depth⟩ with
      ⟨e | _, w⟩
    · simp only [hbody]
      rfl
    · simp only [hbody, define, Attempt.update]
      cases hdef : w.session.registry.define s.name
        (w.frame.emitter.finish w.frame.scope.maxLocals) site <;> rfl

namespace Gen

/-- All ways to promote a constant: its wrapper may be known, it may not be constant, its wrapper may
fail to compile, or a new wrapper is compiled and remembered. -/
theorem promote_eq (ctx : CodeContext) (e : Expr) (params : List Ty) (result : Ty) (value : Gen Ty)
    (w : Workbench) :
    promote ctx e params result value w =
      match w.session.wrapper? (wrapperKey (.fn params result) e.text) with
      | some s => bindFunction s ⟨w.session.note (.constantReused s.name e.text), w.frame⟩
      | none =>
        match e.ensureConstant ctx.functions ctx.options.maxDepth with
        | .error err => (.error err, w)
        | .ok () =>
          let s := wrapperSignature w.session.nextId params result ctx.options.owner
          match Session.compileWith s .synthetic e.span (w.frame.depth + 1)
              (returnBody ctx e.text e.span value)
              { w.session with nextId := w.session.nextId + 1 } with
          | (.error err, S) => (.error err, ⟨S, w.frame⟩)
          | (.ok (), S) =>
            bindFunction s
              ⟨(S.note (.constantPromoted e.text s)).rememberWrapper
                (wrapperKey (.fn params result) e.text) s, w.frame⟩ := by
  unfold promote
  simp only [Attempt.bind_run, Attempt.get]
  cases hkey : w.session.wrapper? (wrapperKey (.fn params result) e.text) with
  | some s => rfl
  | none =>
    simp only [Attempt.bind_run, Attempt.ofExcept]
    cases hconst : e.ensureConstant ctx.functions ctx.options.maxDepth with
    | error err => rfl
    | ok _ =>
      simp only [session, Session.freshId, frame]
      rcases hrun : Session.compileWith
          (wrapperSignature w.session.nextId params result ctx.options.owner) .synthetic e.span
          (w.frame.depth + 1) (returnBody ctx e.text e.span value)
          { w.session with nextId := w.session.nextId + 1 } with ⟨err | _, S⟩
      · rfl
      · rfl

/-- How the promotion of a constant ends: its wrapper is remembered, it is not constant, its wrapper
fails to compile, or it is wrapped. -/
inductive Promotion (ctx : CodeContext) (e : Expr) (params : List Ty) (result : Ty) (value : Gen Ty)
    (w : Workbench) : Except CompileError Unit → Workbench → Prop where
  | reused {s : Signature} {r : Except CompileError Unit} {w' : Workbench}
    (hs : w.session.wrapper? (wrapperKey (.fn params result) e.text) = some s)
    (hbind : bindFunction s ⟨w.session.note (.constantReused s.name e.text), w.frame⟩ = (r, w')) :
    Promotion ctx e params result value w r w'
  | refused {err : CompileError}
    (hnone : w.session.wrapper? (wrapperKey (.fn params result) e.text) = none)
    (hconst : e.ensureConstant ctx.functions ctx.options.maxDepth = .error err) :
    Promotion ctx e params result value w (.error err) w
  | failed {err : CompileError} {s : Signature} {S : Session}
    (hnone : w.session.wrapper? (wrapperKey (.fn params result) e.text) = none)
    (hconst : e.ensureConstant ctx.functions ctx.options.maxDepth = .ok ())
    (hs : wrapperSignature w.session.nextId params result ctx.options.owner = s)
    (hrun : Session.compileWith s .synthetic e.span (w.frame.depth + 1)
      (returnBody ctx e.text e.span value) { w.session with nextId := w.session.nextId + 1 } =
        (.error err, S)) :
    Promotion ctx e params result value w (.error err) ⟨S, w.frame⟩
  | wrapped {s : Signature} {S : Session} {r : Except CompileError Unit} {w' : Workbench}
    (hnone : w.session.wrapper? (wrapperKey (.fn params result) e.text) = none)
    (hconst : e.ensureConstant ctx.functions ctx.options.maxDepth = .ok ())
    (hs : wrapperSignature w.session.nextId params result ctx.options.owner = s)
    (hrun : Session.compileWith s .synthetic e.span (w.frame.depth + 1)
      (returnBody ctx e.text e.span value) { w.session with nextId := w.session.nextId + 1 } =
        (.ok (), S))
    (hbind : bindFunction s ⟨(S.note (.constantPromoted e.text s)).rememberWrapper
      (wrapperKey (.fn params result) e.text) s, w.frame⟩ = (r, w')) :
    Promotion ctx e params result value w r w'

theorem promotion {ctx : CodeContext} {e : Expr} {params : List Ty} {result : Ty} {value : Gen Ty}
    {w w' : Workbench} {r : Except CompileError Unit}
    (h : promote ctx e params result value w = (r, w')) :
    Promotion ctx e params result value w r w' := by
  rw [promote_eq] at h
  split at h
  next s hs => exact .reused hs h
  next hnone =>
    split at h
    next err hconst =>
      cases h
      exact .refused hnone hconst
    next hconst =>
      dsimp only at h
      split at h
      next err S hrun =>
        cases h
        exact .failed hnone hconst rfl hrun
      next S hrun => exact .wrapped hnone hconst rfl hrun h

end Gen

namespace Hoist

/-- The signature of the function made for an anonymous function. -/
def lambdaSignature (id : Nat) (body : Expr) (result : Ty) (owner : String) : Signature :=
  ⟨if body.isPlaceholder then identityName else lambdaName id, [lambdaParam], result, owner, false⟩

/-- All ways to compile an anonymous function: its body may have no type, its function may fail to
compile, or it is compiled and recorded. -/
theorem compileLambda_eq (functions : FunctionTable) (options : Options) (body : Expr)
    (text : String) (span : Span) (w : Walk) :
    compileLambda functions options body text span w =
      match body.infer ⟨functions, .empty, w.table, options.maxDepth⟩ with
      | .error e => (.error e, { w with session.nextId := w.session.nextId + 1 })
      | .ok typing =>
        let s := lambdaSignature w.session.nextId body typing.ty options.owner
        let ctx : CodeContext := ⟨functions, options, w.table⟩
        match Session.compileWith s .synthetic span 0
            (Gen.returnBody ctx body.text span (Gen.value ctx body))
            { w.session with nextId := w.session.nextId + 1 } with
        | (.error e, S) => (.error e, { w with session := S })
        | (.ok (), S) =>
          (.ok (), ⟨S.note (.lambdaHoisted text s), w.table.insert text s,
            if body.isPlaceholder then some s else w.identity?⟩) := by
  unfold compileLambda
  simp only [Attempt.bind_run, session, Session.freshId, Attempt.get, Attempt.ofExcept]
  cases htype : body.infer ⟨functions, .empty, w.table, options.maxDepth⟩ with
  | error e => rfl
  | ok typing =>
    simp only [lambdaSignature]
    rcases hrun : Session.compileWith
        ⟨if body.isPlaceholder then identityName else lambdaName w.session.nextId, [lambdaParam],
          typing.ty, options.owner, false⟩ .synthetic span 0
        (Gen.returnBody ⟨functions, options, w.table⟩ body.text span
          (Gen.value ⟨functions, options, w.table⟩ body))
        { w.session with nextId := w.session.nextId + 1 } with ⟨e | _, S⟩
    · rfl
    · cases hbody : body.isPlaceholder <;> rfl

/-- All ways to meet an anonymous function: its text may be known, it may be the bare placeholder
again, or it is new. -/
theorem lambda_eq (functions : FunctionTable) (options : Options) (body : Expr) (text : String)
    (span : Span) (w : Walk) :
    lambda functions options body text span w =
      match w.table.get? text with
      | some s => (.ok (), { w with session := w.session.note (.lambdaReused s.name text) })
      | none =>
        match if body.isPlaceholder then w.identity? else none with
        | some s =>
          (.ok (), ⟨w.session.note (.lambdaReused s.name text), w.table.insert text s, w.identity?⟩)
        | none => compileLambda functions options body text span w := by
  unfold lambda
  simp only [Attempt.bind_run, Attempt.get]
  cases htable : w.table.get? text with
  | some s => rfl
  | none =>
    simp only
    cases hidentity : (if body.isPlaceholder then w.identity? else none) <;> rfl

/-- How meeting an anonymous function ends: its text is recorded, it is the bare placeholder again,
its body has no type, its function fails to compile, or it is compiled. -/
inductive Meeting (functions : FunctionTable) (options : Options) (body : Expr) (text : String)
    (span : Span) (w : Walk) : Except CompileError Unit → Walk → Prop where
  | recorded {s : Signature} (hs : w.table.get? text = some s) :
    Meeting functions options body text span w (.ok ())
      { w with session := w.session.note (.lambdaReused s.name text) }
  | identity {s : Signature} (hfresh : w.table.get? text = none)
    (hplaceholder : body.isPlaceholder = true) (hs : w.identity? = some s) :
    Meeting functions options body text span w (.ok ())
      ⟨w.session.note (.lambdaReused s.name text), w.table.insert text s, w.identity?⟩
  | untyped {e : CompileError} (hfresh : w.table.get? text = none)
    (htype : body.infer ⟨functions, .empty, w.table, options.maxDepth⟩ = .error e) :
    Meeting functions options body text span w (.error e)
      { w with session.nextId := w.session.nextId + 1 }
  | failed {s : Signature} {e : CompileError} {S : Session} {typing : Typing}
    (hfresh : w.table.get? text = none)
    (htype : body.infer ⟨functions, .empty, w.table, options.maxDepth⟩ = .ok typing)
    (hs : lambdaSignature w.session.nextId body typing.ty options.owner = s)
    (hrun : Session.compileWith s .synthetic span 0
      (Gen.returnBody ⟨functions, options, w.table⟩ body.text span
        (Gen.value ⟨functions, options, w.table⟩ body))
      { w.session with nextId := w.session.nextId + 1 } = (.error e, S)) :
    Meeting functions options body text span w (.error e) { w with session := S }
  | compiled {s : Signature} {S : Session} {typing : Typing}
    (hfresh : w.table.get? text = none)
    (htype : body.infer ⟨functions, .empty, w.table, options.maxDepth⟩ = .ok typing)
    (hs : lambdaSignature w.session.nextId body typing.ty options.owner = s)
    (hrun : Session.compileWith s .synthetic span 0
      (Gen.returnBody ⟨functions, options, w.table⟩ body.text span
        (Gen.value ⟨functions, options, w.table⟩ body))
      { w.session with nextId := w.session.nextId + 1 } = (.ok (), S)) :
    Meeting functions options body text span w (.ok ())
      ⟨S.note (.lambdaHoisted text s), w.table.insert text s,
        if body.isPlaceholder then some s else w.identity?⟩

theorem meeting {functions : FunctionTable} {options : Options} {body : Expr} {text : String}
    {span : Span} {w w' : Walk} {r : Except CompileError Unit}
    (h : lambda functions options body text span w = (r, w')) :
    Meeting functions options body text span w r w' := by
  rw [lambda_eq] at h
  split at h
  next s hs =>
    cases h
    exact .recorded hs
  next hfresh =>
    split at h
    next s hs =>
      cases h
      split at hs
      next hplaceholder => exact .identity hfresh hplaceholder hs
      next => cases hs
    next =>
      rw [compileLambda_eq] at h
      split at h
      next e htype =>
        cases h
        exact .untyped hfresh htype
      next typing htype =>
        dsimp only at h
        split at h
        next e S hrun =>
          cases h
          exact .failed hfresh htype rfl hrun
        next S hrun =>
          cases h
          exact .compiled hfresh htype rfl hrun

end Hoist

end BlockCompiler
