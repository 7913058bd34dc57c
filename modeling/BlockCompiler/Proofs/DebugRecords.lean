import Mathlib.Data.List.Forall2
import BlockCompiler.Proofs.Growth

/-!
# Compiling without debug records

Chunks describe lines, parameters and ranges if that is wanted.  Whether it is makes no other
difference: the same functions compile, the same errors are reported, and code, labels, frame sizes and
constants are the same.

The proof compares two runs.  The records of a state are cleared by `Session.bare`, `Workbench.bare` and
their kin, and two attempts are `Attempt.Alike` if from states that are equal without their records they
have the same result and end in such states again.  `Gen.alike_expr` is the induction on expressions:
the code generated with records is alike the code generated by the silent context.  `Session.compileWith`
and the walk over anonymous functions keep this, and `compileBlock_silent` is what follows for blocks.
-/

namespace BlockCompiler

/-! ## Clearing the records -/

/-- A chunk without its records. -/
def Chunk.bare (c : Chunk) : Chunk := { c with lines := #[], params := #[], ranges := #[] }

/-- An emitter whose chunk has no records and that knows no line. -/
def Emitter.bare (e : Emitter) : Emitter := { e with chunk := e.chunk.bare, line := 0 }

/-- A frame without records. -/
def Frame.bare (fr : Frame) : Frame := { fr with emitter := fr.emitter.bare }

/-- An entry whose code has no records. -/
def Entry.bare (e : Entry) : Entry := { e with code? := e.code?.map Chunk.bare }

/-- A registry without records. -/
def Registry.bare (r : Registry) : Registry := ⟨r.entries.map Entry.bare⟩

/-- A session without records. -/
def Session.bare (S : Session) : Session := { S with registry := S.registry.bare }

/-- A workbench without records. -/
def Workbench.bare (w : Workbench) : Workbench := ⟨w.session.bare, w.frame.bare⟩

/-- The state of the walk without records. -/
def Walk.bare (w : Walk) : Walk := { w with session := w.session.bare }

/-- The same choices, but no records. -/
def Options.silent (o : Options) : Options := { o with debugInfo := false }

/-- The same context, but no records are wanted. -/
def CodeContext.silent (ctx : CodeContext) : CodeContext := { ctx with options := ctx.options.silent }

namespace Emitter

theorem bare_bool (e : Emitter) (value : Bool) : (e.bool value).bare = (e.bare.bool value).bare := rfl

theorem bare_constantAt (e : Emitter) (index : Nat) :
    (e.constantAt index).bare = (e.bare.constantAt index).bare := by
  unfold constantAt
  split <;> rfl

theorem bare_ranges (vs : List LocalVar) (range : LocalVar → LocalRange) (e : Emitter) :
    (vs.foldl (fun e v => e.range (range v)) e).bare = e.bare := by
  induction vs generalizing e with
  | nil => rfl
  | cons v vs ih => exact ih _

theorem bare_finish (e : Emitter) (maxLocals : UInt16) :
    (e.finish maxLocals).bare = e.bare.finish maxLocals := rfl

end Emitter

namespace Registry

@[simp] theorem bare_name (e : Entry) : e.bare.name = e.name := rfl

@[simp] theorem bare_ofSignature (s : Signature) (flags : EntryFlags) :
    (Entry.ofSignature s flags).bare = .ofSignature s flags := rfl

@[simp] theorem bare_isDefined (e : Entry) : e.bare.isDefined = e.isDefined := by
  simp [Entry.bare, Entry.isDefined]

theorem get?_bare (r : Registry) (name : String) :
    r.bare.get? name = (r.get? name).map Entry.bare := by
  simp only [get?, bare, List.find?_map]
  rfl

theorem bare_declare (r : Registry) (s : Signature) (flags : EntryFlags) (span : Span) :
    (r.declare s flags span).map bare = r.bare.declare s flags span := by
  unfold declare
  rw [show r.bare.contains s.name = r.contains s.name by simp [contains, get?_bare]]
  split
  · rfl
  · simp [Except.map, bare]

theorem bare_attach (name : String) (code : Chunk) (e : Entry) :
    (attach name code e).bare = attach name code.bare e.bare := by
  unfold attach
  rw [bare_name]
  split <;> rfl

theorem bare_define (r : Registry) (name : String) (code : Chunk) (span : Span) :
    (r.define name code span).map bare = r.bare.define name code.bare span := by
  unfold define
  rw [get?_bare]
  cases hget : r.get? name with
  | none => rfl
  | some e =>
    simp only [Option.map_some, bare_isDefined]
    split
    · rfl
    · simp [Except.map, bare, bare_attach, Function.comp_def]

theorem bare_abandon (r : Registry) (name : String) : (r.abandon name).bare = r.bare.abandon name := by
  unfold abandon
  rw [get?_bare]
  cases hget : r.get? name with
  | none => rfl
  | some e =>
    simp only [Option.map_some, bare_isDefined]
    split
    · rfl
    · simp only [bare, List.filter_map]
      rfl

end Registry

/-! ## Two runs -/

namespace Attempt

variable {σ τ α β : Type} {view : σ → τ}

/-- Whether two attempts have the same result and the same view of the state after them, wherever the
views of the states before them are the same. -/
def Alike (view : σ → τ) (x y : Attempt σ α) : Prop :=
  ∀ s t, view s = view t → (x s).1 = (y t).1 ∧ view (x s).2 = view (y t).2

theorem alike_pure (a : α) : Alike view (pure a) (pure a) := fun _ _ h => ⟨rfl, h⟩

theorem alike_fail (e : CompileError) : Alike view (fail e : Attempt σ α) (fail e) :=
  fun _ _ h => ⟨rfl, h⟩

theorem alike_ofExcept (r : Except CompileError α) : Alike view (ofExcept r) (ofExcept r) :=
  fun _ _ h => ⟨rfl, h⟩

theorem alike_modify {f g : σ → σ} (h : ∀ s t, view s = view t → view (f s) = view (g t)) :
    Alike view (modify f) (modify g) :=
  fun s t hst => ⟨rfl, h s t hst⟩

/-- The second steps may differ as far as the values that the first steps return differ. -/
theorem Alike.bind_of {x y : Attempt σ α} {f g : α → Attempt σ β} {P : α → α → Prop}
    (hx : ∀ s t, view s = view t →
      (∃ a b s' t', x s = (.ok a, s') ∧ y t = (.ok b, t') ∧ P a b ∧ view s' = view t') ∨
      ∃ e s' t', x s = (.error e, s') ∧ y t = (.error e, t') ∧ view s' = view t')
    (hf : ∀ a b, P a b → Alike view (f a) (g b)) : Alike view (x >>= f) (y >>= g) := by
  intro s t hst
  simp only [bind_run]
  rcases hx s t hst with ⟨a, b, s', t', hxs, hyt, hab, h'⟩ | ⟨e, s', t', hxs, hyt, h'⟩
  · rw [hxs, hyt]
    exact hf a b hab s' t' h'
  · rw [hxs, hyt]
    exact ⟨rfl, h'⟩

theorem Alike.bind {x y : Attempt σ α} {f g : α → Attempt σ β} (hx : Alike view x y)
    (hf : ∀ a, Alike view (f a) (g a)) : Alike view (x >>= f) (y >>= g) := by
  refine .bind_of (P := Eq) (fun s t hst => ?_) fun a b hab => hab ▸ hf a
  obtain ⟨hresult, hview⟩ := hx s t hst
  rcases hxs : x s with ⟨e | a, s'⟩ <;> rcases hyt : y t with ⟨e' | b, t'⟩ <;>
    simp only [hxs, hyt] at hresult hview
  · exact .inr ⟨e, s', t', rfl, by rw [Except.error.inj hresult], hview⟩
  · cases hresult
  · cases hresult
  · exact .inl ⟨a, b, s', t', rfl, rfl, Except.ok.inj hresult, hview⟩

theorem Alike.discard {x y : Attempt σ α} (h : Alike view x y) :
    Alike view (discard x) (discard y) :=
  h.bind fun _ => alike_pure _

/-- Reading the state: what follows may depend on what cannot be told apart. -/
theorem alike_get {f g : σ → Attempt σ β}
    (h : ∀ s t, view s = view t → Alike view (f s) (g t)) : Alike view (get >>= f) (get >>= g) :=
  .bind_of (P := fun s t => view s = view t)
    (fun s t hst => .inl ⟨s, t, s, t, rfl, rfl, hst, hst⟩) h

theorem Alike.ite {c : Prop} [Decidable c] {x x' y y' : Attempt σ α} (h : Alike view x y)
    (h' : Alike view x' y') : Alike view (if c then x else x') (if c then y else y') := by
  split
  · exact h
  · exact h'

end Attempt

open Attempt (Alike alike_pure alike_fail alike_ofExcept alike_modify)

/-! ## Steps of a session -/

namespace Session

theorem bare_eq {S T : Session} :
    S.bare = T.bare ↔ S.registry.bare = T.registry.bare ∧ S.pool = T.pool ∧ S.nextId = T.nextId ∧
      S.wrappers = T.wrappers ∧ S.journal = T.journal := by
  simp [bare]

theorem alike_freshId : Alike bare freshId freshId := by
  intro S T h
  obtain ⟨hregistry, hpool, hid, hwrappers, hjournal⟩ := bare_eq.1 h
  refine ⟨congrArg Except.ok hid, bare_eq.2 ⟨hregistry, hpool, ?_, hwrappers, hjournal⟩⟩
  exact congrArg (· + 1) hid

theorem alike_record (event : Event) : Alike bare (record event) (record event) :=
  alike_modify fun _ _ h => by rw [bare_eq] at h ⊢; simp [note, h]

theorem alike_remember (key : String) (s : Signature) :
    Alike bare (remember key s) (remember key s) :=
  alike_modify fun _ _ h => by rw [bare_eq] at h ⊢; simp [rememberWrapper, h]

theorem alike_abandon (name : String) : Alike bare (abandon name) (abandon name) :=
  alike_modify fun _ _ h => by rw [bare_eq] at h ⊢; simp [Registry.bare_abandon, h]

/-- A change of the registry that does not see records, followed by a note. -/
theorem alike_update {f g : Registry → Except CompileError Registry} (event : Event)
    (h : ∀ r r', r.bare = r'.bare → (f r).map Registry.bare = (g r').map Registry.bare) :
    Alike bare
      (.update fun S => do
        let registry ← f S.registry
        .ok ({ S with registry }.note event))
      (.update fun S => do
        let registry ← g S.registry
        .ok ({ S with registry }.note event)) := by
  intro S T hST
  obtain ⟨hregistry, hpool, hid, hwrappers, hjournal⟩ := bare_eq.1 hST
  have hfg := h _ _ hregistry
  simp only [Attempt.update]
  rcases hf : f S.registry with e | r <;> rcases hg : g T.registry with e' | r' <;>
    rw [hf, hg] at hfg
  · exact ⟨congrArg Except.error (Except.error.inj hfg), hST⟩
  · cases hfg
  · cases hfg
  · refine ⟨rfl, bare_eq.2 ⟨Except.ok.inj hfg, hpool, hid, hwrappers, ?_⟩⟩
    exact congrArg (·.push event) hjournal

theorem alike_declare (s : Signature) (flags : EntryFlags) (site : Span) :
    Alike bare (declare s flags site) (declare s flags site) :=
  alike_update (f := (·.declare s flags site)) (g := (·.declare s flags site)) _ fun r r' h => by
    simp only [Registry.bare_declare, h]

theorem alike_define (name : String) {code code' : Chunk} (hcode : code.bare = code'.bare)
    (site : Span) : Alike bare (define name code site) (define name code' site) := by
  have hsize : code'.size = code.size := by
    have := congrArg (·.code.size) hcode
    exact this.symm
  unfold define
  rw [hsize]
  refine alike_update (f := (·.define name code site)) (g := (·.define name code' site)) _
    fun r r' h => ?_
  simp only [Registry.bare_define, h, hcode]

end Session

/-! ## Steps of a workbench -/

namespace Gen

/-- Whether two steps make no difference but records. -/
abbrev Same {α : Type} (x y : Gen α) : Prop := Alike Workbench.bare x y

theorem bare_eq {fr fr' : Frame} :
    fr.bare = fr'.bare ↔ fr.signature = fr'.signature ∧ fr.site = fr'.site ∧
      fr.emitter.bare = fr'.emitter.bare ∧ fr.scope = fr'.scope ∧ fr.operands = fr'.operands ∧
      fr.depth = fr'.depth := by
  simp [Frame.bare]

theorem same_session {α : Type} {x y : Attempt Session α} (h : Alike Session.bare x y) :
    Same (session x) (session y) := by
  intro w w' hw
  obtain ⟨hsession, hframe⟩ := Workbench.mk.inj hw
  obtain ⟨hresult, hview⟩ := h _ _ hsession
  exact ⟨hresult, Workbench.mk.injEq .. ▸ ⟨hview, hframe⟩⟩

theorem same_scope {α : Type} (x : Attempt Scope α) : Same (scope x) (scope x) := by
  intro w w' hw
  obtain ⟨hsession, hframe⟩ := Workbench.mk.inj hw
  obtain ⟨hsignature, hsite, hemitter, hscope, hoperands, hdepth⟩ := bare_eq.1 hframe
  refine ⟨congrArg (fun s => (x s).1) hscope, Workbench.mk.injEq .. ▸ ⟨hsession, ?_⟩⟩
  exact bare_eq.2
    ⟨hsignature, hsite, hemitter, congrArg (fun s => (x s).2) hscope, hoperands, hdepth⟩

/-- Reading the frame: what follows may depend on all of it but its records. -/
theorem same_frame {α : Type} {f g : Frame → Gen α}
    (h : ∀ fr fr', fr.bare = fr'.bare → Same (f fr) (g fr')) : Same (frame >>= f) (frame >>= g) :=
  .bind_of (P := fun fr fr' => fr.bare = fr'.bare)
    (fun w w' hw => .inl ⟨_, _, w, w', rfl, rfl, (Workbench.mk.inj hw).2, hw⟩) h

theorem same_modifyFrame {f g : Frame → Frame}
    (h : ∀ fr fr', fr.bare = fr'.bare → (f fr).bare = (g fr').bare) :
    Same (modifyFrame f) (modifyFrame g) :=
  alike_modify fun w w' hw => by
    obtain ⟨hsession, hframe⟩ := Workbench.mk.inj hw
    exact Workbench.mk.injEq .. ▸ ⟨hsession, h _ _ hframe⟩

/-! ### Writing code -/

theorem same_emit {f : Emitter → Emitter} (hf : ∀ e, (f e).bare = (f e.bare).bare) :
    Same (emit f) (emit f) :=
  same_modifyFrame fun fr fr' h => by
    rw [bare_eq] at h ⊢
    obtain ⟨hsignature, hsite, hemitter, hrest⟩ := h
    exact ⟨hsignature, hsite, by rw [hf, hemitter, ← hf], hrest⟩

theorem same_emitPooled {f : Emitter → Pool → Emitter × Pool}
    (hcode : ∀ e p, (f e p).1.bare = (f e.bare p).1.bare)
    (hpool : ∀ e p, (f e p).2 = (f e.bare p).2) : Same (emitPooled f) (emitPooled f) :=
  alike_modify fun w w' hw => by
    obtain ⟨hsession, hframe⟩ := Workbench.mk.inj hw
    obtain ⟨hregistry, hp, hid, hwrappers, hjournal⟩ := Session.bare_eq.1 hsession
    obtain ⟨hsignature, hsite, hemitter, hrest⟩ := bare_eq.1 hframe
    refine Workbench.mk.injEq .. ▸ ⟨Session.bare_eq.2 ⟨hregistry, ?_, hid, hwrappers, hjournal⟩,
      bare_eq.2 ⟨hsignature, hsite, ?_, hrest⟩⟩
    · show (f w.frame.emitter w.session.pool).2 = (f w'.frame.emitter w'.session.pool).2
      rw [hpool, hemitter, hp, ← hpool]
    · show (f w.frame.emitter w.session.pool).1.bare = (f w'.frame.emitter w'.session.pool).1.bare
      rw [hcode, hemitter, hp, ← hcode]

theorem same_constant (c : Constant) : Same (emitPooled (·.constant c)) (emitPooled (·.constant c)) :=
  same_emitPooled (fun e p => e.bare_constantAt (p.add c).2) fun _ _ => rfl

theorem same_label : Same label label := by
  intro w w' hw
  obtain ⟨hsession, hframe⟩ := Workbench.mk.inj hw
  obtain ⟨hsignature, hsite, hemitter, hrest⟩ := bare_eq.1 hframe
  have hoffset : w.frame.emitter.offset = w'.frame.emitter.offset :=
    congrArg (·.chunk.code.size) hemitter
  refine ⟨congrArg Except.ok hoffset, Workbench.mk.injEq .. ▸ ⟨hsession, ?_⟩⟩
  refine bare_eq.2 ⟨hsignature, hsite, ?_, hrest⟩
  exact congrArg (·.label.1) hemitter

/-- A step that leaves nothing but records is alike the step that does nothing. -/
theorem same_pure_of_bare {f : Frame → Frame} (h : ∀ fr, (f fr).bare = fr.bare) :
    Same (modifyFrame f) (pure ()) := by
  intro w w' hw
  obtain ⟨hsession, hframe⟩ := Workbench.mk.inj hw
  exact ⟨rfl, Workbench.mk.injEq .. ▸ ⟨hsession, (h w.frame).trans hframe⟩⟩

theorem same_setLine (ctx : CodeContext) (line : Nat) :
    Same (setLine ctx line) (setLine ctx.silent line) := by
  show Same (if ctx.options.debugInfo then _ else pure ()) (pure ())
  split
  · exact same_pure_of_bare fun _ => rfl
  · exact alike_pure _

/-! ### Operand types and depth -/

theorem same_pushTy (t : Ty) : Same (pushTy t) (pushTy t) :=
  same_modifyFrame fun fr fr' h => by
    rw [bare_eq] at h ⊢
    simp [h]

theorem same_popTy (context : String) (span : Span) :
    Same (popTy context span) (popTy context span) := by
  intro w w' hw
  obtain ⟨hsession, hframe⟩ := Workbench.mk.inj hw
  obtain ⟨hsignature, hsite, hemitter, hscope, hoperands, hdepth⟩ := bare_eq.1 hframe
  unfold popTy
  rw [hoperands]
  split
  · refine ⟨rfl, Workbench.mk.injEq .. ▸ ⟨hsession, ?_⟩⟩
    exact bare_eq.2 ⟨hsignature, hsite, hemitter, hscope, rfl, hdepth⟩
  · exact ⟨rfl, hw⟩

theorem same_ensureNoOperands (context : String) (span : Span) :
    Same (ensureNoOperands context span) (ensureNoOperands context span) := by
  intro w w' hw
  obtain ⟨-, -, -, -, hoperands, -⟩ := bare_eq.1 (Workbench.mk.inj hw).2
  exact ⟨congrArg (·.ensureEmpty context span) hoperands, hw⟩

theorem same_dropOperands : Same dropOperands dropOperands := by
  refine same_modifyFrame fun fr fr' h => ?_
  rw [bare_eq] at h ⊢
  obtain ⟨hsignature, hsite, hemitter, hscope, hoperands, hdepth⟩ := h
  have hpops : ∀ (ts : List Ty) (e e' : Emitter), e.bare = e'.bare →
      (ts.foldl (fun e _ => e.pop) e).bare = (ts.foldl (fun e _ => e.pop) e').bare := by
    intro ts
    induction ts with
    | nil => exact fun _ _ h => h
    | cons t ts ih => exact fun e e' h => ih _ _ (congrArg (·.pop.bare) h)
  refine ⟨hsignature, hsite, ?_, hscope, rfl, hdepth⟩
  rw [hoperands]
  exact hpops _ _ _ hemitter

variable {ctx : CodeContext}

theorem Same.nested {α : Type} {span : Span} {x y : Gen α} (h : Same x y) :
    Same (nested ctx span x) (nested ctx.silent span y) := by
  refine same_frame fun fr fr' hfr => ?_
  obtain ⟨-, -, -, -, -, hdepth⟩ := bare_eq.1 hfr
  rw [hdepth]
  refine .bind (alike_ofExcept _) fun _ => .bind (same_modifyFrame fun fr fr' h => ?_) fun _ => ?_
  · rw [bare_eq] at h ⊢
    simp [h]
  · intro w w' hw
    obtain ⟨hresult, hview⟩ := h w w' hw
    obtain ⟨hsession, hframe⟩ := Workbench.mk.inj hview
    refine ⟨hresult, Workbench.mk.injEq .. ▸ ⟨hsession, ?_⟩⟩
    obtain ⟨hsignature, hsite, hemitter, hscope, hoperands, hdepth⟩ := bare_eq.1 hframe
    exact bare_eq.2 ⟨hsignature, hsite, hemitter, hscope, hoperands, congrArg (· - 1) hdepth⟩

/-! ### Values and returns -/

theorem same_infer (e : Expr) : Same (infer ctx e) (infer ctx.silent e) := by
  refine same_frame fun fr fr' hfr => ?_
  obtain ⟨-, -, -, hscope, -, -⟩ := bare_eq.1 hfr
  rw [hscope]
  exact .bind (alike_ofExcept _) fun _ => alike_pure _

theorem same_bindFunction (s : Signature) : Same (bindFunction s) (bindFunction s) :=
  .bind (same_emitPooled (fun _ _ => rfl) fun _ _ => rfl) fun _ => same_pushTy _

theorem same_emitUnit : Same (emit (·.unit)) (emit (·.unit)) := same_emit fun _ => rfl

theorem Same.operand {e : Expr} {x y : Gen Unit} (h : Same x y) :
    Same (operand e x) (operand e y) := by
  refine same_frame fun fr fr' hfr => .bind h fun _ => same_frame fun fr₂ fr₂' hfr₂ => ?_
  obtain ⟨-, -, -, -, hbefore, -⟩ := bare_eq.1 hfr
  obtain ⟨-, -, -, -, hafter, -⟩ := bare_eq.1 hfr₂
  dsimp only
  rw [hbefore, hafter]
  refine .ite ?_ (same_popTy _ _)
  exact .bind same_emitUnit fun _ => .bind (same_pushTy _) fun _ => same_popTy _ _

theorem same_returnTop (t : Ty) : Same (returnTop t) (returnTop t) := same_emit fun _ => rfl

theorem same_returnUnit : Same returnUnit returnUnit :=
  .bind (same_emit fun _ => rfl) fun _ => .bind same_emitUnit fun _ => same_returnTop _

theorem Same.returnValue {text : String} {span : Span} {x y : Gen Ty} (h : Same x y) :
    Same (returnValue text span x) (returnValue text span y) := by
  refine .bind h fun actual => same_frame fun fr fr' hfr => ?_
  obtain ⟨hsignature, -⟩ := bare_eq.1 hfr
  dsimp only
  rw [hsignature]
  refine .ite (.ite ?_ ?_) (alike_fail _)
  · exact .bind same_returnUnit fun _ => same_ensureNoOperands _ _
  · exact .bind (same_returnTop _) fun _ => same_ensureNoOperands _ _

theorem same_returnLeft (span : Span) : Same (returnLeft span) (returnLeft span) := by
  refine same_frame fun fr fr' hfr => ?_
  obtain ⟨hsignature, -, -, -, hoperands, -⟩ := bare_eq.1 hfr
  dsimp only
  rw [hsignature, hoperands]
  split
  · exact .ite (.bind same_emitUnit fun _ => same_returnTop _) (alike_fail _)
  · refine .bind (same_popTy _ _) fun actual => .ite (same_returnTop _) ?_
    exact .ite same_returnUnit (alike_fail _)
  · exact same_ensureNoOperands _ _

/-! ### Bodies -/

theorem same_declareParams (ps : List Param) :
    Same (declareParams ctx ps) (declareParams ctx.silent ps) := by
  induction ps with
  | nil => exact alike_pure _
  | cons p ps ih =>
    refine .bind (same_frame fun fr fr' hfr => ?_) fun _ => ih
    obtain ⟨hsignature, hsite, -⟩ := bare_eq.1 hfr
    rw [hsignature, hsite]
    refine .bind (same_scope _).discard fun _ => ?_
    show Same (if ctx.options.debugInfo then _ else pure ()) (pure ())
    split
    · exact same_pure_of_bare fun _ => rfl
    · exact alike_pure _

theorem Same.framed {x y : Gen Unit} (h : Same x y) : Same (framed ctx x) (framed ctx.silent y) := by
  refine same_frame fun fr fr' hfr => ?_
  obtain ⟨hsignature, -⟩ := bare_eq.1 hfr
  rw [hsignature]
  refine .bind (same_declareParams _) fun _ => .bind same_label fun start => .bind h fun _ => ?_
  refine .bind same_label fun stop => ?_
  show Same (if ctx.options.debugInfo then _ else pure ()) (pure ())
  split
  · refine same_pure_of_bare fun fr => bare_eq.2 ⟨rfl, rfl, ?_, rfl, rfl, rfl⟩
    exact Emitter.bare_ranges _ _ _
  · exact alike_pure _

theorem Same.returnBody {text : String} {span : Span} {x y : Gen Ty} (h : Same x y) :
    Same (returnBody ctx text span x) (returnBody ctx.silent text span y) :=
  .framed <| .bind (same_setLine ctx _) fun _ => h.returnValue

end Gen

/-- Compiling a function leaves the same code, if its body does. -/
theorem Session.alike_compileWith (s : Signature) (flags : EntryFlags) (site : Span) (depth : Nat)
    {x y : Gen Unit} (h : Gen.Same x y) :
    Alike bare (compileWith s flags site depth x) (compileWith s flags site depth y) := by
  refine .bind (alike_declare s flags site) fun _ => ?_
  -- The frame is the outcome of the body, so the frames of the two runs are equal without records.
  refine .bind_of (P := fun a b => a.1 = b.1 ∧ a.2.bare = b.2.bare) (fun S T hST => ?_) ?_
  · have hstart : Workbench.bare ⟨S, .start s site depth⟩ = Workbench.bare ⟨T, .start s site depth⟩ :=
      Workbench.mk.injEq .. ▸ ⟨hST, rfl⟩
    obtain ⟨hresult, hview⟩ := h _ _ hstart
    obtain ⟨hsession, hframe⟩ := Workbench.mk.inj hview
    exact .inl ⟨_, _, _, _, rfl, rfl, ⟨hresult, hframe⟩, hsession⟩
  · rintro ⟨r, fr⟩ ⟨r', fr'⟩ ⟨rfl, hfr⟩
    obtain ⟨-, -, hemitter, hscope, -, -⟩ := Gen.bare_eq.1 hfr
    cases r with
    | ok _ =>
      refine alike_define _ ?_ site
      rw [Emitter.bare_finish, Emitter.bare_finish, hemitter, hscope]
    | error e =>
      exact .bind (alike_record _) fun _ => .bind (alike_abandon _) fun _ => alike_fail _

/-! ## Code of expressions -/

namespace Gen

variable {ctx : CodeContext}

theorem same_literal (value : Literal) : Same (literal value) (literal value) := by
  unfold literal
  cases value with
  | int v => exact .bind (same_constant _) fun _ => same_pushTy _
  | real v => exact .bind (same_constant _) fun _ => same_pushTy _
  | bool v => exact .bind (same_emit fun e => e.bare_bool v) fun _ => same_pushTy _
  | string v => exact .bind (same_constant _) fun _ => same_pushTy _
  | unit => exact .bind same_emitUnit fun _ => same_pushTy _

theorem same_loadVar (v : LocalVar) : Same (loadVar v) (loadVar v) :=
  .bind (same_emit fun _ => rfl) fun _ => same_pushTy _

theorem same_reference (ident : Ident) : Same (reference ctx ident) (reference ctx.silent ident) := by
  refine same_frame fun fr fr' hfr => ?_
  obtain ⟨-, -, -, hscope, -, -⟩ := bare_eq.1 hfr
  rw [hscope]
  split
  · exact same_loadVar _
  · rw [show ctx.silent.functions = ctx.functions from rfl]
    split
    · exact same_bindFunction _
    · exact alike_fail _

theorem same_placeholder (span : Span) : Same (placeholder span) (placeholder span) := by
  refine same_frame fun fr fr' hfr => ?_
  obtain ⟨-, -, -, hscope, -, -⟩ := bare_eq.1 hfr
  rw [hscope]
  split
  · exact .ite (same_loadVar _) (alike_fail _)
  · exact alike_fail _

theorem same_lambda (text : String) (span : Span) :
    Same (lambda ctx text span) (lambda ctx.silent text span) := by
  show Same (lambda ctx text span) (lambda ctx text span)
  unfold lambda
  split
  · exact same_bindFunction _
  · exact alike_fail _

theorem Same.promote (e : Expr) (params : List Ty) (result : Ty) {x y : Gen Ty} (h : Same x y) :
    Same (promote ctx e params result x) (promote ctx.silent e params result y) := by
  refine Attempt.alike_get fun w w' hw => ?_
  obtain ⟨hsession, -⟩ := Workbench.mk.inj hw
  obtain ⟨-, -, -, hwrappers, -⟩ := Session.bare_eq.1 hsession
  have hknown (key : String) : w.session.wrapper? key = w'.session.wrapper? key := by
    simp only [Session.wrapper?, hwrappers]
  rw [hknown]
  split
  · exact .bind (same_session (Session.alike_record _)) fun _ => same_bindFunction _
  · refine .bind (alike_ofExcept _) fun _ => .bind (same_session Session.alike_freshId) fun id => ?_
    refine same_frame fun fr fr' hfr => ?_
    obtain ⟨-, -, -, -, -, hdepth⟩ := bare_eq.1 hfr
    rw [hdepth]
    refine .bind (same_session (Session.alike_compileWith _ _ _ _ h.returnBody)) fun _ => ?_
    refine .bind (same_session (Session.alike_record _)) fun _ => ?_
    exact .bind (same_session (Session.alike_remember _ _)) fun _ => same_bindFunction _

theorem Same.argument (s : Signature) (position : Nat) (formal : Param) (e : Expr) {x y : Gen Ty}
    (h : Same x y) :
    Same (argument ctx s position formal e x) (argument ctx.silent s position formal e y) := by
  refine .bind (same_infer e) fun actual => ?_
  refine .ite h.discard ?_
  dsimp only
  split
  · refine .ite ?_ (alike_fail _)
    exact .bind (h.promote e _ _) fun _ => (same_popTy _ _).discard
  · exact alike_fail _

theorem Same.pair (first second : Expr) (span : Span) {x y x' y' : Gen Ty} (h : Same x y)
    (h' : Same x' y') :
    Same (pair ctx first second span x x') (pair ctx.silent first second span y y') := by
  refine .bind (same_infer first) fun a => .bind (same_infer second) fun b => ?_
  refine .bind (alike_ofExcept _) fun ty => .bind (same_emit fun _ => rfl) fun _ => ?_
  refine .bind (same_emit fun _ => rfl) fun _ => .bind h.discard fun _ => ?_
  refine .bind h'.discard fun _ => .bind (same_emit fun _ => rfl) fun _ => ?_
  exact same_pushTy _

theorem same_callee (ident : Ident) (argCount : Nat) (span : Span) :
    Same (callee ctx ident argCount span) (callee ctx.silent ident argCount span) :=
  .bind (alike_ofExcept _) fun _ => .ite (alike_pure _) (alike_fail _)

theorem same_finishCall (s : Signature) (argCount : Nat) (text : String) (span : Span) :
    Same (finishCall s argCount text span) (finishCall s argCount text span) := by
  refine .ite ?_ (alike_fail _)
  refine .bind (same_emitPooled (fun _ _ => rfl) fun _ _ => rfl) fun _ => ?_
  exact .ite (alike_pure _) (same_pushTy _)

mutual

/-- An expression has the same code with and without records. -/
theorem alike_expr : ∀ e : Expr, Same (expr ctx e) (expr ctx.silent e)
  | .literal value _ _ => (same_literal value).nested
  | .pair first second _ _ =>
    (Same.pair first second _ (alike_expr first).operand (alike_expr second).operand).nested
  | .var ident => (same_reference ident).nested
  | .placeholder span => (same_placeholder span).nested
  | .lambda _ text span => (same_lambda text span).nested
  | .call ident args text span =>
    .nested <| .bind (same_callee ident args.length span) fun s =>
      .bind (alike_arguments args s 0 s.params) fun _ => same_finishCall s args.length text span

/-- The arguments of a call have the same code with and without records. -/
theorem alike_arguments : ∀ (es : List Expr) (s : Signature) (position : Nat) (formals : List Param),
    Same (arguments ctx s position formals es) (arguments ctx.silent s position formals es)
  | [], _, _, _ => alike_pure _
  | _ :: _, _, _, [] => alike_pure _
  | e :: es, s, position, formal :: formals =>
    .bind (Same.argument s position formal e (alike_expr e).operand) fun _ =>
      alike_arguments es s (position + 1) formals

end

theorem same_value (e : Expr) : Same (value ctx e) (value ctx.silent e) := (alike_expr e).operand

theorem same_stmt (s : Stmt) : Same (stmt ctx s) (stmt ctx.silent s) := by
  cases s with
  | expr e => exact alike_expr e
  | ret e span => exact (same_value e).returnValue
  | decl ident body span => exact alike_fail _

/-- The statements of a body have the same code with and without records. -/
theorem same_stmts (ss : List Stmt) : Same (stmts ctx ss) (stmts ctx.silent ss) := by
  induction ss with
  | nil =>
    refine same_frame fun fr fr' hfr => ?_
    obtain ⟨-, hsite, -⟩ := bare_eq.1 hfr
    rw [hsite]
    exact same_returnLeft _
  | cons s rest ih =>
    refine .bind (same_setLine ctx _) fun _ => .bind (same_stmt s) fun _ => ?_
    cases rest with
    | nil => exact .ite (alike_pure _) (same_returnLeft _)
    | cons s' rest => exact .bind same_dropOperands fun _ => ih

theorem same_body (ss : List Stmt) : Same (body ctx ss) (body ctx.silent ss) := (same_stmts ss).framed

end Gen

/-! ## Anonymous functions -/

namespace Hoist

variable {functions : FunctionTable} {options : Options}

/-- Whether two steps of the walk make no difference but records. -/
abbrev Same {α : Type} (x y : Hoist α) : Prop := Alike Walk.bare x y

theorem bare_eq {w w' : Walk} :
    w.bare = w'.bare ↔ w.session.bare = w'.session.bare ∧ w.table = w'.table ∧
      w.identity? = w'.identity? := by
  simp [Walk.bare]

theorem same_session {α : Type} {x y : Attempt Session α} (h : Alike Session.bare x y) :
    Same (session x) (session y) := by
  intro w w' hw
  obtain ⟨hsession, hrest⟩ := bare_eq.1 hw
  obtain ⟨hresult, hview⟩ := h _ _ hsession
  exact ⟨hresult, bare_eq.2 ⟨hview, hrest⟩⟩

theorem same_insert (text : String) (s : Signature) : Same (insert text s) (insert text s) :=
  alike_modify fun _ _ h => by rw [bare_eq] at h ⊢; simp [h]

theorem same_setIdentity (s : Signature) : Same (setIdentity s) (setIdentity s) :=
  alike_modify fun _ _ h => by rw [bare_eq] at h ⊢; simp [h]

theorem same_compileLambda (body : Expr) (text : String) (span : Span) :
    Same (compileLambda functions options body text span)
      (compileLambda functions options.silent body text span) := by
  refine .bind (same_session Session.alike_freshId) fun id => Attempt.alike_get fun w w' hw => ?_
  obtain ⟨-, htable, -⟩ := bare_eq.1 hw
  rw [htable]
  refine .bind (alike_ofExcept _) fun typing => ?_
  have hvalue : Gen.Same (Gen.value ⟨functions, options, w'.table⟩ body)
      (Gen.value ⟨functions, options.silent, w'.table⟩ body) := Gen.same_value body
  refine .bind (same_session (Session.alike_compileWith _ _ _ _ hvalue.returnBody)) fun _ => ?_
  refine .bind (same_session (Session.alike_record _)) fun _ => ?_
  dsimp only
  split
  · exact .bind (same_setIdentity _) fun _ => same_insert _ _
  · exact same_insert _ _

theorem same_lambda (body : Expr) (text : String) (span : Span) :
    Same (lambda functions options body text span)
      (lambda functions options.silent body text span) := by
  refine Attempt.alike_get fun w w' hw => ?_
  obtain ⟨-, htable, hidentity⟩ := bare_eq.1 hw
  rw [htable, hidentity]
  split
  · exact same_session (Session.alike_record _)
  · split
    · exact .bind (same_session (Session.alike_record _)) fun _ => same_insert _ _
    · exact same_compileLambda body text span

mutual

theorem alike_expr : ∀ (e : Expr) (depth : Nat),
    Same (expr functions options depth e) (expr functions options.silent depth e)
  | .literal .., _ => alike_ofExcept _
  | .pair first second _ _, depth =>
    .bind (alike_ofExcept _) fun _ => .bind (alike_expr first (depth + 1)) fun _ =>
      alike_expr second (depth + 1)
  | .var _, _ => alike_ofExcept _
  | .placeholder _, _ => alike_ofExcept _
  | .lambda body text span, depth =>
    .bind (alike_ofExcept _) fun _ => .bind (alike_expr body (depth + 1)) fun _ =>
      same_lambda body text span
  | .call _ args _ _, depth => .bind (alike_ofExcept _) fun _ => alike_exprs args (depth + 1)

theorem alike_exprs : ∀ (es : List Expr) (depth : Nat),
    Same (exprs functions options depth es) (exprs functions options.silent depth es)
  | [], _ => alike_pure _
  | e :: es, depth => .bind (alike_expr e depth) fun _ => alike_exprs es depth

end

mutual

theorem alike_stmt : ∀ (s : Stmt) (depth : Nat),
    Same (stmt functions options depth s) (stmt functions options.silent depth s)
  | .expr e, depth => .bind (alike_ofExcept _) fun _ => alike_expr e depth
  | .ret e _, depth => .bind (alike_ofExcept _) fun _ => alike_expr e depth
  | .decl _ body _, depth => .bind (alike_ofExcept _) fun _ => alike_stmts body (depth + 1)

theorem alike_stmts : ∀ (ss : List Stmt) (depth : Nat),
    Same (stmts functions options depth ss) (stmts functions options.silent depth ss)
  | [], _ => alike_pure _
  | s :: ss, depth => .bind (alike_stmt s depth) fun _ => alike_stmts ss depth

end

theorem same_topLevel (ss : List Stmt) :
    Same (topLevel functions options ss) (topLevel functions options.silent ss) := by
  induction ss with
  | nil => exact alike_pure _
  | cons s ss ih =>
    cases s with
    | expr e => exact .bind (alike_stmt _ 0) fun _ => ih
    | ret e span => exact .bind (alike_stmt _ 0) fun _ => ih
    | decl ident body span => exact .bind (alike_stmts body 0) fun _ => ih

end Hoist

/-! ## Blocks -/

namespace Session

theorem alike_hoist (functions : FunctionTable) (options : Options) (block : Block) :
    Alike bare (hoist functions options block) (hoist functions options.silent block) := by
  refine .bind (fun S T hST => ?_) fun table => .bind (alike_record _) fun _ => alike_pure _
  have hstart : Walk.bare { session := S } = Walk.bare { session := T } :=
    Hoist.bare_eq.2 ⟨hST, rfl, rfl⟩
  have hwalk : Hoist.Same (Hoist.topLevel functions options block.stmts)
      (Hoist.topLevel functions options.silent block.stmts) := Hoist.same_topLevel block.stmts
  obtain ⟨hresult, hview⟩ := hwalk _ _ hstart
  obtain ⟨hsession, htable, -⟩ := Hoist.bare_eq.1 hview
  rcases hrun : Hoist.topLevel functions options block.stmts { session := S } with ⟨e | _, w⟩ <;>
    rcases hrun' : Hoist.topLevel functions options.silent block.stmts { session := T } with
      ⟨e' | _, w'⟩ <;>
    simp only [hrun, hrun'] at hresult hsession htable ⊢
  · exact ⟨by rw [Except.error.inj hresult], hsession⟩
  · cases hresult
  · cases hresult
  · exact ⟨by rw [htable], hsession⟩

theorem alike_compileDecl (ctx : CodeContext) (d : Decl) :
    Alike bare (compileDecl ctx d) (compileDecl ctx.silent d) :=
  .bind (alike_ofExcept _) fun s => alike_compileWith s _ _ _ (Gen.same_body d.body)

/-- The same declared functions fail, with the same errors. -/
theorem compileDecls_silent (ctx : CodeContext) (ds : List Decl) {S T : Session}
    (h : S.bare = T.bare) :
    (S.compileDecls ctx ds).2 = (T.compileDecls ctx.silent ds).2 ∧
      (S.compileDecls ctx ds).1.bare = (T.compileDecls ctx.silent ds).1.bare := by
  induction ds generalizing S T with
  | nil => exact ⟨rfl, h⟩
  | cons d ds ih =>
    obtain ⟨hresult, hview⟩ := alike_compileDecl ctx d S T h
    unfold compileDecls
    rcases hrun : compileDecl ctx d S with ⟨e | _, S'⟩ <;>
      rcases hrun' : compileDecl ctx.silent d T with ⟨e' | _, T'⟩ <;>
      simp only [hrun, hrun'] at hresult hview ⊢
    · cases hresult
      obtain ⟨herrors, hrest⟩ := ih (alike_record (.functionFailed d.name.name e) S' T' hview).2
      exact ⟨congrArg (e :: ·) herrors, hrest⟩
    · cases hresult
    · cases hresult
    · exact ih hview

end Session

/-- Whether two chunks differ at most in their records. -/
structure Chunk.SameCode (c c' : Chunk) : Prop where
  code : c.code = c'.code
  labels : c.labels = c'.labels
  maxStack : c.maxStack = c'.maxStack
  maxLocals : c.maxLocals = c'.maxLocals

/-- Whether two entries differ at most in the records of their code. -/
structure Entry.SameCode (e e' : Entry) : Prop where
  signature : e.signature = e'.signature
  descriptor : e.descriptor = e'.descriptor
  hash : e.hash = e'.hash
  flags : e.flags = e'.flags
  code : Option.Rel Chunk.SameCode e.code? e'.code?

theorem Chunk.sameCode_of_bare_eq {c c' : Chunk} (h : c.bare = c'.bare) : c.SameCode c' :=
  ⟨congrArg (·.code) h, congrArg (·.labels) h, congrArg (·.maxStack) h, congrArg (·.maxLocals) h⟩

theorem Entry.sameCode_of_bare_eq {e e' : Entry} (h : e.bare = e'.bare) : e.SameCode e' := by
  have hcode : e.code?.map Chunk.bare = e'.code?.map Chunk.bare := congrArg Entry.code? h
  refine ⟨congrArg (·.signature) h, congrArg (·.descriptor) h, congrArg (·.hash) h,
    congrArg (·.flags) h, ?_⟩
  rcases hc : e.code? with _ | c <;> rcases hc' : e'.code? with _ | c' <;>
    simp only [hc, hc', Option.map_none, Option.map_some, Option.some.injEq, reduceCtorEq] at hcode
  · exact .none
  · exact .some (Chunk.sameCode_of_bare_eq hcode)

theorem Registry.sameCode_of_bare_eq {r r' : Registry} (h : r.bare = r'.bare) :
    List.Forall₂ Entry.SameCode r.entries r'.entries := by
  have hentries : r.entries.map Entry.bare = r'.entries.map Entry.bare := congrArg Registry.entries h
  rw [← List.forall₂_eq_eq_eq, List.forall₂_map_left_iff, List.forall₂_map_right_iff] at hentries
  exact hentries.imp fun _ _ => Entry.sameCode_of_bare_eq

/-- A compilation without the records of its module. -/
def Compilation.bare (c : Compilation) : Compilation :=
  { c with module := { c.module with registry := c.module.registry.bare } }

/-- Without records a block compiles to the same, but for the records. -/
theorem compileBlock_silent (functions : FunctionTable) (options : Options) (block : Block) :
    (compileBlock functions options block).bare =
      (compileBlock functions options.silent block).bare := by
  obtain ⟨hresult, hview⟩ := Session.alike_hoist functions options block .start .start rfl
  unfold compileBlock
  generalize Session.hoist functions options block .start = x at hresult hview ⊢
  generalize Session.hoist functions options.silent block .start = y at hresult hview ⊢
  rcases x with ⟨e | lambdas, S⟩ <;> rcases y with ⟨e' | lambdas', T⟩ <;> dsimp only at hresult hview ⊢
  · cases hresult
    obtain ⟨hregistry, hpool, -, -, hjournal⟩ := Session.bare_eq.1 hview
    simp only [Compilation.bare, Session.toModule, Session.note]
    rw [hregistry, hpool, hjournal]
    rfl
  · cases hresult
  · cases hresult
  · cases hresult
    obtain ⟨herrors, hsession⟩ :=
      Session.compileDecls_silent ⟨functions, options, lambdas⟩ block.decls hview
    obtain ⟨hregistry, hpool, -, -, hjournal⟩ := Session.bare_eq.1 hsession
    simp only [Compilation.bare, Session.toModule]
    rw [hregistry, hpool, hjournal, herrors]
    rfl

/-- Debug records never change the program.  With and without them the same errors are reported in the
same order, and the modules have the same name, the same constants and, one by one, the same functions:
their signatures, descriptors, identities, flags, code, labels and frame sizes are equal.  So are the
journals. -/
theorem debug_records_change_nothing (functions : FunctionTable) (options : Options) (block : Block) :
    let verbose := compileBlock functions { options with debugInfo := true } block
    let silent := compileBlock functions { options with debugInfo := false } block
    verbose.errors = silent.errors ∧ verbose.journal = silent.journal ∧
      verbose.module.name = silent.module.name ∧ verbose.module.pool = silent.module.pool ∧
      List.Forall₂ Entry.SameCode verbose.module.functions silent.module.functions := by
  have h := compileBlock_silent functions { options with debugInfo := true } block
  refine ⟨congrArg (·.errors) h, congrArg (·.journal) h, congrArg (·.module.name) h,
    congrArg (·.module.pool) h, ?_⟩
  exact Registry.sameCode_of_bare_eq (congrArg (·.module.registry) h)

end BlockCompiler
