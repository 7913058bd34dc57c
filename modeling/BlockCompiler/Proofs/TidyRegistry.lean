import BlockCompiler.Proofs.DeclarationOrder

/-!
# Tidy registries

The names of made-up functions are tied to the counter of the session.  Synthetic entries have numbers
that were drawn, and the later entry has the higher one, so that the numbers to come are free.  Names
without a number are set apart: those of declared functions and that of the bare placeholder.

* `Drawn` says which names are made up while the counter goes from one value to another: one for each
  number.
* `Registry.Tidy` is the invariant of the registry, with a lemma for each change of it.
* `Gen.Quiet` are the steps in the generation of code that have nothing to do with names: they leave
  registry and counter alone, and no error of theirs says that a name is taken.
-/

namespace BlockCompiler

/-! ## Names with numbers -/

/-- Whether a name is that of the made-up function with a number. -/
def HasNumber (id : Nat) (name : String) : Prop := name = lambdaName id ∨ name = Gen.wrapperName id

theorem HasNumber.inj {m n : Nat} {name : String} (hm : HasNumber m name) (hn : HasNumber n name) :
    m = n := by
  rcases hm with rfl | rfl <;> rcases hn with hname | hname
  · exact lambdaName_inj hname
  · exact absurd hname.symm (Gen.wrapperName_ne_lambdaName n m)
  · exact absurd hname (Gen.wrapperName_ne_lambdaName m n)
  · exact Gen.wrapperName_inj hname

theorem not_hasNumber_identityName (id : Nat) : ¬HasNumber id identityName := by
  rintro (hname | hname)
  · exact lambdaName_ne_identityName id hname.symm
  · exact identityName_ne_wrapperName id hname

/-- Whether a name may be made up with a number. -/
def MayName (id : Nat) (name : String) : Prop := name = identityName ∨ HasNumber id name

/-- The names that are made up, one with each number, while the counter goes from one value to another. -/
inductive Drawn (P : Nat → String → Prop) : Nat → Nat → List String → Prop where
  | nil (n : Nat) : Drawn P n n []
  | cons {lo hi : Nat} {name : String} {names : List String} (hname : P lo name)
    (hrest : Drawn P (lo + 1) hi names) : Drawn P lo hi (name :: names)

namespace Drawn

variable {P Q : Nat → String → Prop} {lo mid hi : Nat} {names names' : List String}

theorem append (h : Drawn P lo mid names) (h' : Drawn P mid hi names') :
    Drawn P lo hi (names ++ names') := by
  induction h with
  | nil => exact h'
  | cons hname _ ih => exact .cons hname (ih h')

theorem mono (h : Drawn P lo hi names) (hPQ : ∀ id name, P id name → Q id name) :
    Drawn Q lo hi names := by
  induction h with
  | nil => exact .nil _
  | cons hname _ ih => exact .cons (hPQ _ _ hname) ih

/-- A number is drawn for each name. -/
theorem add_length (h : Drawn P lo hi names) : lo + names.length = hi := by
  induction h with
  | nil => rfl
  | cons _ _ ih =>
    rw [List.length_cons]
    omega

theorem exists_of_mem (h : Drawn P lo hi names) {name : String} (hmem : name ∈ names) :
    ∃ id, lo ≤ id ∧ P id name := by
  induction h with
  | nil => cases hmem
  | cons hname _ ih =>
    rcases List.mem_cons.1 hmem with rfl | hmem
    · exact ⟨_, Nat.le_refl _, hname⟩
    · obtain ⟨id, hid, hP⟩ := ih hmem
      exact ⟨id, by omega, hP⟩

/-- Wrappers have numbers. -/
theorem count_identityName (h : Drawn (fun id name => name = Gen.wrapperName id) lo hi names) :
    names.count identityName = 0 := by
  refine List.count_eq_zero_of_not_mem fun hmem => ?_
  obtain ⟨id, -, hid⟩ := h.exists_of_mem hmem
  exact identityName_ne_wrapperName id hid

/-- Names with different numbers are different, so that only the name without a number could repeat. -/
theorem nodup (h : Drawn MayName lo hi names) (honce : names.count identityName ≤ 1) :
    names.Nodup := by
  induction h with
  | nil => exact .nil
  | @cons lo _ name names hname hrest ih =>
    rw [List.count_cons] at honce
    refine List.nodup_cons.2 ⟨fun hmem => ?_, ih (by omega)⟩
    rcases hname with rfl | hname
    · have := List.count_pos_iff.2 hmem
      rw [if_pos (by simp)] at honce
      omega
    · obtain ⟨id, hid, rfl | hid'⟩ := hrest.exists_of_mem hmem
      · exact not_hasNumber_identityName _ hname
      · have := hname.inj hid'
        omega

end Drawn

/-! ## Tidy registries -/

/-- Whether the number of one entry is below that of another, where both have one. -/
def Entry.Precedes (a b : Entry) : Prop :=
  ∀ m n, HasNumber m a.name → HasNumber n b.name → m < n

/-- A registry in which synthetic entries have names that were made up and numbers below `next`, in order.
Entries may also have one of the plain names: declared functions may have all, and a synthetic entry may
have that of the bare placeholder. -/
structure Registry.Tidy (r : Registry) (plain made : List String) (next : Nat) : Prop where
  declared : ∀ e ∈ r.entries, e.isSynthetic = false → e.name ∈ plain
  madeUp : ∀ e ∈ r.entries, e.isSynthetic = true → e.name ∈ made ∧
    (e.name = identityName ∧ identityName ∈ plain ∨ ∃ id < next, HasNumber id e.name)
  ordered : (r.entries.filter Entry.isSynthetic).Pairwise Entry.Precedes

namespace Registry.Tidy

variable {r r' : Registry} {plain plain' made made' : List String} {next next' : Nat} {s : Signature}
  {span : Span} {name : String}

theorem empty : Registry.empty.Tidy [] [] 0 := by
  refine ⟨fun e he => ?_, fun e he => ?_, .nil⟩ <;> cases he

theorem mono (h : r.Tidy plain made next) (hplain : plain ⊆ plain') (hmade : made ⊆ made')
    (hle : next ≤ next') : r.Tidy plain' made' next' := by
  refine ⟨fun e he hflag => hplain (h.declared e he hflag), fun e he hflag => ?_, h.ordered⟩
  obtain ⟨hname, hnumber⟩ := h.madeUp e he hflag
  refine ⟨hmade hname, hnumber.imp (fun ⟨heq, hmem⟩ => ⟨heq, hplain hmem⟩) ?_⟩
  rintro ⟨id, hid, hname⟩
  exact ⟨id, by omega, hname⟩

/-- A name that is taken is plain or has a number that was drawn. -/
theorem of_mem_names (h : r.Tidy plain made next) (hmem : name ∈ r.names) :
    name ∈ plain ∨ ∃ id < next, HasNumber id name := by
  obtain ⟨e, he, rfl⟩ := List.mem_map.1 hmem
  cases hflag : e.isSynthetic with
  | false => exact .inl (h.declared e he hflag)
  | true =>
    refine (h.madeUp e he hflag).2.imp_left fun ⟨hname, hplain⟩ => ?_
    rw [hname]
    exact hplain

/-- A name with a number to come is taken only if it is plain. -/
theorem mem_plain (h : r.Tidy plain made next) {id : Nat} (hid : next ≤ id) (hname : HasNumber id name)
    (hmem : name ∈ r.names) : name ∈ plain := by
  refine (h.of_mem_names hmem).resolve_right ?_
  rintro ⟨id', hid', hname'⟩
  have := hname.inj hname'
  omega

/-- A declared function is registered. -/
theorem declareUser (h : r.Tidy plain made next) (hdecl : r.declare s .user span = .ok r')
    (hname : s.name ∈ plain) : r'.Tidy plain made next := by
  obtain ⟨-, rfl⟩ := declare_eq_ok hdecl
  refine ⟨fun e he hflag => ?_, fun e he hflag => ?_, ?_⟩
  · rcases List.mem_append.1 he with he | he
    · exact h.declared e he hflag
    · obtain rfl := List.mem_singleton.1 he
      exact hname
  · rcases List.mem_append.1 he with he | he
    · exact h.madeUp e he hflag
    · obtain rfl := List.mem_singleton.1 he
      cases hflag
  · rw [List.filter_append]
    simpa [Entry.isSynthetic, EntryFlags.user] using h.ordered

/-- A made-up function is registered under the number that was drawn last, or as the bare placeholder. -/
theorem declareMadeUp (h : r.Tidy plain made next) (hdecl : r.declare s .synthetic span = .ok r')
    (hmade : s.name ∈ made)
    (hname : s.name = identityName ∧ identityName ∈ plain ∨ HasNumber next s.name) :
    r'.Tidy plain made (next + 1) := by
  obtain ⟨-, rfl⟩ := declare_eq_ok hdecl
  have hold := h.mono (List.Subset.refl _) (List.Subset.refl _) (Nat.le_succ next)
  refine ⟨fun e he hflag => ?_, fun e he hflag => ?_, ?_⟩
  · rcases List.mem_append.1 he with he | he
    · exact h.declared e he hflag
    · obtain rfl := List.mem_singleton.1 he
      cases hflag
  · rcases List.mem_append.1 he with he | he
    · exact hold.madeUp e he hflag
    · obtain rfl := List.mem_singleton.1 he
      exact ⟨hmade, hname.imp_right fun hnumber => ⟨next, by omega, hnumber⟩⟩
  · rw [List.filter_append, List.pairwise_append]
    refine ⟨h.ordered, List.pairwise_singleton _ _, ?_⟩
    intro e he e' he' m n hm hn
    obtain ⟨he, hflag⟩ := List.mem_filter.1 he
    obtain rfl := List.mem_singleton.1 (List.mem_filter.1 he').1
    have hn' : HasNumber n s.name := hn
    obtain ⟨-, ⟨heq, -⟩ | ⟨id, hid, hid'⟩⟩ := h.madeUp e he hflag
    · rw [heq] at hm
      exact absurd hm (not_hasNumber_identityName m)
    · rcases hname with ⟨heq, -⟩ | hnumber
      · rw [heq] at hn'
        exact absurd hn' (not_hasNumber_identityName n)
      · have := hm.inj hid'
        have := hnumber.inj hn'
        omega

theorem define (h : r.Tidy plain made next) {code : Chunk} (hdef : r.define name code span = .ok r') :
    r'.Tidy plain made next := by
  have hflags : Entry.isSynthetic ∘ attach name code = Entry.isSynthetic := by
    funext e
    exact isSynthetic_attach name code e
  rw [define_eq_ok hdef]
  refine ⟨fun e he hflag => ?_, fun e he hflag => ?_, ?_⟩
  · obtain ⟨e, hmem, rfl⟩ := List.mem_map.1 he
    rw [isSynthetic_attach] at hflag
    rw [attach_name]
    exact h.declared e hmem hflag
  · obtain ⟨e, hmem, rfl⟩ := List.mem_map.1 he
    rw [isSynthetic_attach] at hflag
    rw [attach_name]
    exact h.madeUp e hmem hflag
  · rw [List.filter_map, hflags, List.pairwise_map]
    refine h.ordered.imp fun hbefore m n => ?_
    rw [attach_name, attach_name]
    exact hbefore m n

theorem abandon (h : r.Tidy plain made next) (name : String) :
    (r.abandon name).Tidy plain made next := by
  have hsub : (r.abandon name).entries.Sublist r.entries := by
    unfold Registry.abandon
    split
    · exact .refl _
    · split
      · exact .refl _
      · exact List.filter_sublist
  exact ⟨fun e he => h.declared e (hsub.subset he), fun e he => h.madeUp e (hsub.subset he),
    h.ordered.sublist (hsub.filter _)⟩

end Registry.Tidy

/-- Whether the registry of a session is tidy, where the counter stands at the next number. -/
abbrev Session.Tidy (S : Session) (plain made : List String) : Prop :=
  S.registry.Tidy plain made S.nextId

/-! ## Errors -/

/-- Whether an error blames a name for being taken. -/
def CompileError.BlamesName (err : CompileError) (name : String) : Prop :=
  err.cause = .duplicateFunction name

/-- Whether an error blames no names but those of wrappers which these declared functions have. -/
def CompileError.Blames (err : CompileError) (plain : List String) : Prop :=
  ∀ name, err.BlamesName name → name ∈ plain ∧ ∃ id, name = Gen.wrapperName id

theorem CompileError.blames_of_isStatic {err : CompileError} (h : err.isStatic = true)
    (plain : List String) : err.Blames plain := by
  intro name hname
  rw [isStatic, hname] at h
  cases h

/-- From `S` to `S'` no entry was touched and no number drawn. -/
def Session.SameNames (S S' : Session) : Prop :=
  S'.registry = S.registry ∧ S'.nextId = S.nextId

instance : IsPreorder Session Session.SameNames where
  refl _ := ⟨rfl, rfl⟩
  trans _ _ _ h h' := ⟨h'.1.trans h.1, h'.2.trans h.2⟩

/-! ## Steps that make up no names -/

namespace Gen

/-- Whether a step touches no entry, draws no number, and blames no name. -/
structure Quiet {α : Type} (x : Gen α) : Prop where
  same : KeepsSession Session.SameNames x
  errors : ∀ w, Attempt.FailsWithin (fun err _ => ∀ name, ¬err.BlamesName name) x w

section Quiet

variable {α β : Type} {ctx : CodeContext}

theorem Quiet.bind {x : Gen α} {f : α → Gen β} (hx : Quiet x) (hf : ∀ a, Quiet (f a)) :
    Quiet (x >>= f) :=
  ⟨hx.same.bind fun a => (hf a).same, fun w => .bind (hx.errors w) fun a w' _ => (hf a).errors w'⟩

theorem quiet_pure (a : α) : Quiet (pure a : Gen α) :=
  ⟨keepsSession_pure a, fun _ => Attempt.failsWithin_of_ok rfl⟩

theorem Quiet.discard {x : Gen α} (hx : Quiet x) : Quiet (discard x) := hx.bind fun _ => quiet_pure _

theorem quiet_fail {err : CompileError} (h : ∀ name, ¬err.BlamesName name) :
    Quiet (.fail err : Gen α) := by
  refine ⟨keepsSession_fail err, fun w err' w' hrun => ?_⟩
  cases hrun
  exact h

theorem quiet_ofExcept {r : Except CompileError α} (h : ∀ err, r = .error err → err.isStatic = true) :
    Quiet (.ofExcept r : Gen α) := by
  refine ⟨keepsSession_ofExcept r, fun w => Attempt.failsWithin_ofExcept fun err herr name hname => ?_⟩
  have := h err herr
  rw [CompileError.isStatic, hname] at this
  cases this

theorem quiet_frame : Quiet frame := ⟨keepsSession_frame, fun _ => Attempt.failsWithin_of_ok rfl⟩

theorem quiet_modifyFrame (f : Frame → Frame) : Quiet (modifyFrame f) :=
  ⟨keepsSession_modifyFrame f, fun _ => Attempt.failsWithin_of_ok rfl⟩

theorem quiet_emit (f : Emitter → Emitter) : Quiet (emit f) := quiet_modifyFrame _

theorem quiet_pushTy (t : Ty) : Quiet (pushTy t) := quiet_modifyFrame _

theorem quiet_emitPooled (f : Emitter → Pool → Emitter × Pool) : Quiet (emitPooled f) :=
  ⟨fun _ => ⟨rfl, rfl⟩, fun _ => Attempt.failsWithin_of_ok rfl⟩

theorem quiet_label : Quiet label := ⟨keepsSession_label, fun _ => Attempt.failsWithin_of_ok rfl⟩

theorem quiet_record (event : Event) : Quiet (session (Session.record event)) :=
  ⟨fun _ => ⟨rfl, rfl⟩, fun _ => Attempt.failsWithin_of_ok rfl⟩

theorem quiet_remember (key : String) (s : Signature) : Quiet (session (Session.remember key s)) :=
  ⟨fun _ => ⟨rfl, rfl⟩, fun _ => Attempt.failsWithin_of_ok rfl⟩

theorem quiet_popTy (context : String) (span : Span) : Quiet (popTy context span) := by
  refine ⟨keepsSession_popTy context span, fun w err w' hrun name hname => ?_⟩
  unfold popTy TypeStack.pop at hrun
  cases htypes : w.frame.operands.types with
  | nil =>
    simp only [htypes] at hrun
    cases hrun
    cases hname
  | cons t ts =>
    simp only [htypes] at hrun
    cases hrun

theorem quiet_ensureNoOperands (context : String) (span : Span) :
    Quiet (ensureNoOperands context span) := by
  refine ⟨keepsSession_ensureNoOperands context span, fun w err w' hrun name hname => ?_⟩
  unfold ensureNoOperands TypeStack.ensureEmpty at hrun
  split at hrun
  · cases hrun
  · cases hrun
    cases hname

theorem quiet_setLine (line : Nat) : Quiet (setLine ctx line) := by
  unfold setLine
  split
  · exact quiet_emit _
  · exact quiet_pure _

theorem quiet_infer (e : Expr) : Quiet (infer ctx e) :=
  quiet_frame.bind fun _ =>
    (quiet_ofExcept fun _ herr => Expr.inferAt_isStatic e herr).bind fun _ => quiet_pure _

theorem quiet_bindFunction (s : Signature) : Quiet (bindFunction s) :=
  (quiet_emitPooled _).bind fun _ => quiet_pushTy _

theorem quiet_loadVar (v : LocalVar) : Quiet (loadVar v) := (quiet_emit _).bind fun _ => quiet_pushTy _

theorem Quiet.nested {span : Span} {x : Gen α} (hx : Quiet x) : Quiet (nested ctx span x) := by
  refine ⟨hx.same.nested, fun w => ?_⟩
  refine .bind (quiet_frame.errors w) fun fr w₁ _ => ?_
  refine .bind ((quiet_ofExcept fun _ herr => ensureDepth_isStatic herr).errors w₁) fun _ w₂ _ => ?_
  exact .bind ((quiet_modifyFrame _).errors w₂) fun _ w₃ _ => .ending (hx.errors w₃)

theorem quiet_literal (value : Literal) : Quiet (literal value) := by
  cases value with
  | int | real | string => exact (quiet_emitPooled _).bind fun _ => quiet_pushTy _
  | bool | unit => exact (quiet_emit _).bind fun _ => quiet_pushTy _

theorem quiet_reference (ident : Ident) : Quiet (reference ctx ident) := by
  refine quiet_frame.bind fun fr => ?_
  split
  · exact quiet_loadVar _
  · split
    · exact quiet_bindFunction _
    · exact quiet_fail fun _ hname => nomatch hname

theorem quiet_placeholder (span : Span) : Quiet (placeholder span) := by
  refine quiet_frame.bind fun fr => ?_
  split
  · split
    · exact quiet_loadVar _
    · exact quiet_fail fun _ hname => nomatch hname
  · exact quiet_fail fun _ hname => nomatch hname

theorem quiet_lambda (text : String) (span : Span) : Quiet (lambda ctx text span) := by
  unfold lambda
  split
  · exact quiet_bindFunction _
  · exact quiet_fail fun _ hname => nomatch hname

theorem quiet_callee (ident : Ident) (argCount : Nat) (span : Span) :
    Quiet (callee ctx ident argCount span) := by
  refine (quiet_ofExcept fun _ herr => resolve_isStatic herr).bind fun s => ?_
  split
  · exact quiet_pure _
  · exact quiet_fail fun _ hname => nomatch hname

theorem quiet_finishCall (s : Signature) (argCount : Nat) (text : String) (span : Span) :
    Quiet (finishCall s argCount text span) := by
  unfold finishCall
  split
  · refine (quiet_emitPooled _).bind fun _ => ?_
    split
    · exact quiet_pure _
    · exact quiet_pushTy _
  · exact quiet_fail fun _ hname => nomatch hname

theorem quiet_returnTop (t : Ty) : Quiet (returnTop t) := quiet_emit _

theorem quiet_returnUnit : Quiet returnUnit :=
  (quiet_emit _).bind fun _ => (quiet_emit _).bind fun _ => quiet_emit _

theorem quiet_returnValue (text : String) (span : Span) (actual : Ty) :
    Quiet (returnValue text span (pure actual)) := by
  refine (quiet_pure _).bind fun actual => quiet_frame.bind fun fr => ?_
  dsimp only
  split
  · split
    · exact quiet_returnUnit.bind fun _ => quiet_ensureNoOperands _ _
    · exact (quiet_returnTop _).bind fun _ => quiet_ensureNoOperands _ _
  · exact quiet_fail fun _ hname => nomatch hname

theorem quiet_returnLeft (span : Span) : Quiet (returnLeft span) := by
  refine quiet_frame.bind fun fr => ?_
  dsimp only
  split
  · split
    · exact (quiet_emit _).bind fun _ => quiet_returnTop _
    · exact quiet_fail fun _ hname => nomatch hname
  · refine (quiet_popTy _ _).bind fun actual => ?_
    split
    · exact quiet_returnTop _
    · split
      · exact quiet_returnUnit
      · exact quiet_fail fun _ hname => nomatch hname
  · exact quiet_ensureNoOperands _ _

theorem quiet_declare (name : String) (t : Ty) (function : String) (span : Span) :
    Quiet (scope (Scope.declare name t function span)) := by
  refine ⟨keepsSession_scope _, fun w err w' hrun name' hname => ?_⟩
  obtain ⟨S, fr⟩ := w
  unfold scope Scope.declare at hrun
  dsimp only at hrun
  split_ifs at hrun <;> cases hrun <;> cases hname

theorem quiet_declareParams (ps : List Param) : Quiet (declareParams ctx ps) := by
  induction ps with
  | nil => exact quiet_pure _
  | cons p ps ih =>
    refine .bind (quiet_frame.bind fun fr => (quiet_declare _ _ _ _).discard.bind fun _ => ?_) fun _ => ih
    split
    · exact quiet_emit _
    · exact quiet_pure _

end Quiet

end Gen

end BlockCompiler
