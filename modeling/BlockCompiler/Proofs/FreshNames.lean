import BlockCompiler.Proofs.MadeUpNames
import BlockCompiler.Proofs.TidyRegistry

/-!
# Made-up names are fresh

The names that a compilation makes up are different from one another, those included whose functions
come to nothing.  With a function that the block declares, a made-up name can collide, but only with one
that is declared under a name of that form.

* `Naming.Draws` is what a run does from a tidy session, however it ends.  It is closed under sequences.
* `Naming.Wraps` is that for code, which makes up names for wrappers only.  `Naming.wraps_expr` is the
  induction on expressions, and `Naming.draws_compileWith` the step to whole functions.
* `Naming.Wanders` is that for the walk, where the name without a number is made up at most once.
* `Block.draws_session` puts the walk and the declared functions together.
-/

namespace BlockCompiler

/-! ## Runs from tidy sessions -/

namespace Naming

variable {σ α β : Type}

theorem bind_of_ok {x : Naming σ α} {f : α → Naming σ β} {s s' : σ} {a : α}
    (h : x.run s = (.ok a, s')) :
    (x >>= f).run s = (f a).run s' ∧ (x >>= f).names s = x.names s ++ (f a).names s' := by
  simp [bind, h]

theorem bind_of_error {x : Naming σ α} {f : α → Naming σ β} {s s' : σ} {err : CompileError}
    (h : x.run s = (.error err, s')) :
    (x >>= f).run s = (.error err, s') ∧ (x >>= f).names s = x.names s := by
  simp [bind, h]

theorem names_bind_silent (x : Naming σ α) (f : α → Attempt σ β) (s : σ) :
    (x >>= fun a => silent (f a)).names s = x.names s := by
  rcases hrun : x.run s with ⟨err | a, s'⟩
  · exact (bind_of_error hrun).2
  · rw [(bind_of_ok hrun).2]
    exact List.append_nil _

/-- What a run does to the session in its state: it leaves the session tidy, makes up one name for each
number that it draws, and fails only with errors that `E` admits.  The names in `made` were made up before. -/
structure Draws (P : Nat → String → Prop) (plain made : List String) (E : CompileError → Prop)
    (session : σ → Session) (x : Naming σ α) (s : σ) : Prop where
  tidy : (session (x.run s).2).Tidy plain (made ++ x.names s)
  drawn : Drawn P (session s).nextId (session (x.run s).2).nextId (x.names s)
  errors : ∀ err, (x.run s).1 = .error err → E err

section Draws

variable {P Q : Nat → String → Prop} {plain made : List String} {E E' : CompileError → Prop}
  {session : σ → Session} {x : Naming σ α} {s : σ}

theorem Draws.mono (h : Draws P plain made E session x s) (hPQ : ∀ id name, P id name → Q id name)
    (hE : ∀ err, E err → E' err) : Draws Q plain made E' session x s :=
  ⟨h.tidy, h.drawn.mono hPQ, fun err herr => hE err (h.errors err herr)⟩

theorem Draws.bind {f : α → Naming σ β} (hx : Draws P plain made E session x s)
    (hf : ∀ a s', x.run s = (.ok a, s') → (session s').Tidy plain (made ++ x.names s) →
      Draws P plain (made ++ x.names s) E session (f a) s') :
    Draws P plain made E session (x >>= f) s := by
  rcases hrun : x.run s with ⟨err | a, s'⟩
  · obtain ⟨hbind, hnames⟩ := bind_of_error (f := f) hrun
    obtain ⟨htidy, hdrawn, herrors⟩ := hx
    rw [hrun] at htidy hdrawn herrors
    refine ⟨by rw [hbind, hnames]; exact htidy, by rw [hbind, hnames]; exact hdrawn, fun err' herr => ?_⟩
    rw [hbind] at herr
    cases herr
    exact herrors err rfl
  · obtain ⟨hbind, hnames⟩ := bind_of_ok (f := f) hrun
    have htidy := hx.tidy
    have hdrawn := hx.drawn
    rw [hrun] at htidy hdrawn
    have hrest := hf a s' hrun htidy
    have htidy' := hrest.tidy
    rw [List.append_assoc] at htidy'
    refine ⟨by rw [hbind, hnames]; exact htidy', ?_, by rw [hbind]; exact hrest.errors⟩
    rw [hbind, hnames]
    exact hdrawn.append hrest.drawn

/-- After a step that makes up no names. -/
theorem Draws.silent_bind {x : Attempt σ α} {f : α → Naming σ β}
    (hx : Draws P plain made E session (silent x) s)
    (hf : ∀ a s', x s = (.ok a, s') → (session s').Tidy plain made →
      Draws P plain made E session (f a) s') :
    Draws P plain made E session (silent x >>= f) s := by
  refine hx.bind fun a s' hrun hs' => ?_
  have hmade : made ++ (silent x).names s = made := List.append_nil made
  rw [hmade] at hs' ⊢
  exact hf a s' hrun hs'

end Draws

/-- A name is made up with each number that is drawn. -/
theorem draws_freshId {P : Nat → String → Prop} {plain made : List String} {E : CompileError → Prop}
    {name : Nat → String} {S : Session} (hS : S.Tidy plain made)
    (hname : P S.nextId (name S.nextId)) : Draws P plain made E id (freshId name) S := by
  refine ⟨?_, .cons hname (.nil _), fun err herr => nomatch herr⟩
  exact hS.mono (List.Subset.refl _) (List.subset_append_left _ _) (Nat.le_succ _)

theorem Draws.session {P : Nat → String → Prop} {plain made : List String} {E : CompileError → Prop}
    {x : Naming Session α} {w : Workbench} (h : Draws P plain made E id x w.session) :
    Draws P plain made E Workbench.session (session x) w :=
  ⟨h.tidy, h.drawn, h.errors⟩

/-- Whether code makes up names for wrappers and nothing else, wherever it is generated, and blames no
others. -/
def Wraps (plain : List String) (x : Naming Workbench α) : Prop :=
  ∀ (w : Workbench) (made : List String), w.session.Tidy plain made →
    Draws (fun id name => name = Gen.wrapperName id) plain made (·.Blames plain) Workbench.session x w

section Wraps

variable {plain made : List String} {ctx : CodeContext}

theorem Wraps.bind {x : Naming Workbench α} {f : α → Naming Workbench β} (hx : Wraps plain x)
    (hf : ∀ a, Wraps plain (f a)) : Wraps plain (x >>= f) :=
  fun w made hw => (hx w made hw).bind fun a w' _ hw' => hf a w' _ hw'

theorem wraps_silent {x : Gen α} (h : x.Quiet) : Wraps plain (silent x) := by
  intro w made hw
  obtain ⟨hregistry, hnext⟩ : w.session.SameNames (x w).2.session := h.same w
  refine ⟨?_, ?_, fun err herr name hname => ?_⟩
  · show (x w).2.session.registry.Tidy plain (made ++ []) (x w).2.session.nextId
    rw [hregistry, hnext, List.append_nil]
    exact hw
  · show Drawn _ w.session.nextId (x w).2.session.nextId []
    rw [hnext]
    exact .nil _
  · exact absurd hname (h.errors w err _ (Prod.ext herr rfl) name)

theorem wraps_pure (a : α) : Wraps plain (pure a : Naming Workbench α) :=
  wraps_silent (Gen.quiet_pure a)

theorem Wraps.discard {x : Naming Workbench α} (hx : Wraps plain x) : Wraps plain (discard x) :=
  hx.bind fun _ => wraps_pure _

theorem Wraps.nested {span : Span} {x : Naming Workbench α} (hx : Wraps plain x) :
    Wraps plain (nested ctx span x) := by
  refine (wraps_silent Gen.quiet_frame).bind fun fr => ?_
  refine (wraps_silent (Gen.quiet_ofExcept fun _ herr => ensureDepth_isStatic herr)).bind fun _ => ?_
  refine (wraps_silent (Gen.quiet_modifyFrame _)).bind fun _ w made hw => ?_
  obtain ⟨htidy, hdrawn, herrors⟩ := hx w made hw
  exact ⟨htidy, hdrawn, herrors⟩

theorem Wraps.operand {e : Expr} {code : Naming Workbench Unit} (hcode : Wraps plain code) :
    Wraps plain (operand e code) := by
  refine (wraps_silent Gen.quiet_frame).bind fun before => hcode.bind fun _ => wraps_silent ?_
  refine Gen.quiet_frame.bind fun fr => ?_
  split
  · refine (Gen.quiet_emit _).bind fun _ => (Gen.quiet_pushTy _).bind fun _ => ?_
    exact Gen.quiet_popTy _ _
  · exact Gen.quiet_popTy _ _

theorem Wraps.returnValue {text : String} {span : Span} {value : Naming Workbench Ty}
    (hvalue : Wraps plain value) : Wraps plain (returnValue text span value) :=
  hvalue.bind fun actual => wraps_silent (Gen.quiet_returnValue text span actual)

theorem Wraps.framed {code : Naming Workbench Unit} (hcode : Wraps plain code) :
    Wraps plain (framed ctx code) := by
  refine (wraps_silent Gen.quiet_frame).bind fun fr => ?_
  refine (wraps_silent (Gen.quiet_declareParams _)).bind fun _ => ?_
  refine (wraps_silent Gen.quiet_label).bind fun start => hcode.bind fun _ => wraps_silent ?_
  refine Gen.quiet_label.bind fun stop => ?_
  split
  · exact Gen.quiet_modifyFrame _
  · exact Gen.quiet_pure _

theorem Wraps.returnBody {text : String} {span : Span} {value : Naming Workbench Ty}
    (hvalue : Wraps plain value) : Wraps plain (returnBody ctx text span value) :=
  .framed <| (wraps_silent (Gen.quiet_setLine _)).bind fun _ => hvalue.returnValue

end Wraps

/-- A change of the session that draws no number. -/
theorem draws_update {P : Nat → String → Prop} {plain made : List String} {E : CompileError → Prop}
    {f : Session → Except CompileError Session} {S : Session} (hS : S.Tidy plain made)
    (hok : ∀ S', f S = .ok S' → S'.Tidy plain made ∧ S'.nextId = S.nextId)
    (herror : ∀ err, f S = .error err → E err) : Draws P plain made E id (silent (.update f)) S := by
  cases hf : f S with
  | error err =>
    have hrun : Attempt.update f S = (.error err, S) := by simp [Attempt.update, hf]
    refine ⟨by simpa [silent, hrun] using hS, by simpa [silent, hrun] using .nil _, fun err' herr => ?_⟩
    simp only [silent, hrun] at herr
    cases herr
    exact herror err hf
  | ok S' =>
    have hrun : Attempt.update f S = (.ok (), S') := by simp [Attempt.update, hf]
    obtain ⟨htidy, hnext⟩ := hok S' hf
    refine ⟨by simpa [silent, hrun] using htidy, ?_, fun err' herr => ?_⟩
    · simpa [silent, hrun, hnext] using .nil _
    · simp only [silent, hrun] at herr
      cases herr

/-- The errors of a function: they blame the names of wrappers, or its own name, which is taken. -/
def FunctionError (plain : List String) (S : Session) (name : String) (err : CompileError) : Prop :=
  err.Blames plain ∨ err.BlamesName name ∧ name ∈ S.registry.names

/-- A function makes up the names that its body does, if its own name leaves the registry tidy. -/
theorem draws_compileWith {plain made : List String} {s : Signature} {flags : EntryFlags} {site : Span}
    {depth : Nat} {body : Naming Workbench Unit} (hbody : Wraps plain body) {S : Session}
    (hS : S.Tidy plain made)
    (hdeclare : ∀ r, S.registry.declare s flags site = .ok r → r.Tidy plain made S.nextId) :
    Draws (fun id name => name = Gen.wrapperName id) plain made (FunctionError plain S s.name) id
      (compileWith s flags site depth body) S := by
  refine Draws.silent_bind (draws_update hS (fun S' hS' => ?_) fun err herr => .inr ?_)
    fun _ S₁ _ hS₁ => ?_
  · obtain ⟨r, hr, hS'⟩ := Expr.except_bind_eq_ok.1 hS'
    cases hS'
    exact ⟨hdeclare r hr, rfl⟩
  · obtain hr | ⟨_, _, hr⟩ := except_bind_eq_error.1 herr
    · refine ⟨?_, Registry.mem_names_of_declare hr⟩
      unfold Registry.declare at hr
      split at hr <;> cases hr
      rfl
    · cases hr
  have hinside : Draws (fun id name => name = Gen.wrapperName id) plain made (FunctionError plain S s.name)
      id (inside s site depth body) S₁ := by
    obtain ⟨htidy, hdrawn, -⟩ := hbody ⟨S₁, .start s site depth⟩ _ hS₁
    exact ⟨htidy, hdrawn, fun _ herr => nomatch herr⟩
  refine hinside.bind fun outcome S₂ houtcome hS₂ => ?_
  obtain ⟨err | _, fr⟩ := outcome
  · refine ⟨?_, .nil _, fun err' herr => .inl ?_⟩
    · have htidy := hS₂.abandon s.name
      rw [← List.append_nil (made ++ _)] at htidy
      exact htidy
    cases herr
    refine (hbody ⟨S₁, .start s site depth⟩ _ hS₁).errors _ ?_
    simp only [inside, Prod.mk.injEq, Except.ok.injEq] at houtcome
    exact houtcome.1.1
  · refine draws_update hS₂ (fun S' hS' => ?_) fun err herr => .inl fun name hname => ?_
    · obtain ⟨r, hr, hS'⟩ := Expr.except_bind_eq_ok.1 hS'
      cases hS'
      exact ⟨hS₂.define hr, rfl⟩
    · obtain hr | ⟨_, _, hr⟩ := except_bind_eq_error.1 herr
      · unfold Registry.define at hr
        split at hr
        · cases hr
          cases hname
        · split at hr <;> cases hr
          cases hname
      · cases hr

/-- A made-up function is compiled with the number that was drawn for it. -/
theorem draws_compileMadeUp {plain made : List String} {s : Signature} {site : Span} {depth : Nat}
    {body : Naming Workbench Unit} (hbody : Wraps plain body) {S : Session}
    (hS : S.Tidy plain made) (hmade : s.name ∈ made)
    (hname : s.name = identityName ∧ identityName ∈ plain ∨ HasNumber S.nextId s.name) :
    Draws (fun id name => name = Gen.wrapperName id) plain made
      (FunctionError plain { S with nextId := S.nextId + 1 } s.name) id
      (compileWith s .synthetic site depth body) { S with nextId := S.nextId + 1 } :=
  draws_compileWith hbody (hS.mono (List.Subset.refl _) (List.Subset.refl _) (Nat.le_succ _))
    fun _ hr => hS.declareMadeUp hr hmade hname

/-! ## Code -/

section Code

variable {plain made : List String} {ctx : CodeContext}

/-- A constant is wrapped under the number that is drawn for it.  That name is taken only if a declared
function has it. -/
theorem Wraps.promote {e : Expr} {value : Naming Workbench Ty} (hvalue : Wraps plain value)
    (params : List Ty) (result : Ty) : Wraps plain (promote ctx e params result value) := by
  intro w made hw
  have hget : Gen.Quiet (Attempt.get : Gen Workbench) :=
    ⟨fun _ => ⟨rfl, rfl⟩, fun _ => Attempt.failsWithin_of_ok rfl⟩
  refine (wraps_silent hget w made hw).silent_bind fun w' w₁ hrun hw₁ => ?_
  cases hrun
  dsimp only
  split
  · refine wraps_silent ?_ w made hw
    exact (Gen.quiet_record _).bind fun _ => Gen.quiet_bindFunction _
  · have hconst : Gen.Quiet (.ofExcept (e.ensureConstant ctx.functions ctx.options.maxDepth)) :=
      Gen.quiet_ofExcept fun _ herr => Expr.ensureConstant_isStatic herr
    refine (wraps_silent hconst w made hw).silent_bind fun _ w₂ _ hw₂ => ?_
    refine (draws_freshId hw₂ rfl).session.bind fun id w₃ hid hw₃ => ?_
    cases hid
    refine (wraps_silent Gen.quiet_frame _ _ hw₃).silent_bind fun fr w₄ hframe hw₄ => ?_
    cases hframe
    have hname : HasNumber w₂.session.nextId
        (Gen.wrapperSignature w₂.session.nextId params result ctx.options.owner).name := .inr rfl
    have hw₂' : w₂.session.Tidy plain (made ++ [Gen.wrapperName w₂.session.nextId]) :=
      hw₂.mono (List.Subset.refl _) (List.subset_append_left _ _) (Nat.le_refl _)
    refine ((draws_compileMadeUp hvalue.returnBody hw₂' (List.mem_append_right _ (List.mem_singleton.2 rfl))
      (.inr hname)).mono (fun _ _ => id) fun err herr => ?_).session.bind fun _ w₅ _ hw₅ => ?_
    · refine herr.elim id fun ⟨hblames, htaken⟩ name hname => ?_
      obtain rfl : name = Gen.wrapperName w₂.session.nextId := by
        rw [CompileError.BlamesName, hname] at hblames
        exact Cause.duplicateFunction.inj hblames
      exact ⟨hw₂.mem_plain (Nat.le_refl _) (.inr rfl) htaken, _, rfl⟩
    · refine wraps_silent ?_ w₅ _ hw₅
      refine (Gen.quiet_record _).bind fun _ => (Gen.quiet_remember _ _).bind fun _ => ?_
      exact Gen.quiet_bindFunction _

theorem Wraps.argument {e : Expr} {value : Naming Workbench Ty} (hvalue : Wraps plain value)
    (callee : Signature) (position : Nat) (formal : Param) :
    Wraps plain (argument ctx callee position formal e value) := by
  refine (wraps_silent (Gen.quiet_infer e)).bind fun actual => ?_
  dsimp only
  split
  · exact hvalue.discard
  · split
    · split
      · refine (hvalue.promote _ _).bind fun _ => wraps_silent ?_
        exact (Gen.quiet_popTy _ _).discard
      · exact wraps_silent (Gen.quiet_fail fun _ hname => nomatch hname)
    · exact wraps_silent (Gen.quiet_fail fun _ hname => nomatch hname)

theorem Wraps.pair {first second : Expr} {span : Span} {firstValue secondValue : Naming Workbench Ty}
    (hfirst : Wraps plain firstValue) (hsecond : Wraps plain secondValue) :
    Wraps plain (pair ctx first second span firstValue secondValue) := by
  refine (wraps_silent (Gen.quiet_infer first)).bind fun a => ?_
  refine (wraps_silent (Gen.quiet_infer second)).bind fun b => ?_
  refine (wraps_silent (Gen.quiet_ofExcept fun _ herr => Ty.pairOf_isStatic herr)).bind fun ty => ?_
  refine (wraps_silent (Gen.quiet_emit _)).bind fun _ => ?_
  refine (wraps_silent (Gen.quiet_emit _)).bind fun _ => ?_
  refine hfirst.discard.bind fun _ => hsecond.discard.bind fun _ => wraps_silent ?_
  exact (Gen.quiet_emit _).bind fun _ => Gen.quiet_pushTy _

mutual

/-- An expression makes up names for wrappers. -/
theorem wraps_expr : ∀ e : Expr, Wraps plain (expr ctx e)
  | .literal value _ _ => wraps_silent (Gen.quiet_literal value).nested
  | .var ident => wraps_silent (Gen.quiet_reference ident).nested
  | .placeholder span => wraps_silent (Gen.quiet_placeholder span).nested
  | .lambda _ text span => wraps_silent (Gen.quiet_lambda text span).nested
  | .pair first second _ _ =>
    .nested (.pair (.operand (wraps_expr first)) (.operand (wraps_expr second)))
  | .call ident args text span => by
    refine .nested ((wraps_silent (Gen.quiet_callee ident _ span)).bind fun s => ?_)
    refine (wraps_arguments args s 0 s.params).bind fun _ => ?_
    exact wraps_silent (Gen.quiet_finishCall s _ text span)

theorem wraps_arguments : ∀ (es : List Expr) (s : Signature) (position : Nat) (formals : List Param),
    Wraps plain (arguments ctx s position formals es)
  | [], _, _, _ | _ :: _, _, _, [] => wraps_pure _
  | e :: es, s, position, formal :: formals =>
    (Wraps.argument (.operand (wraps_expr e)) s position formal).bind fun _ =>
      wraps_arguments es s (position + 1) formals

end

theorem wraps_value (e : Expr) : Wraps plain (value ctx e) := .operand (wraps_expr e)

theorem wraps_stmt (s : Stmt) : Wraps plain (stmt ctx s) := by
  cases s with
  | expr e => exact wraps_expr e
  | ret e span => exact (wraps_value e).returnValue
  | decl ident body span => exact wraps_silent (Gen.quiet_fail fun _ hname => nomatch hname)

theorem wraps_stmts (ss : List Stmt) : Wraps plain (stmts ctx ss) := by
  induction ss with
  | nil => exact wraps_silent (Gen.quiet_frame.bind fun fr => Gen.quiet_returnLeft _)
  | cons s rest ih =>
    refine (wraps_silent (Gen.quiet_setLine _)).bind fun _ => (wraps_stmt s).bind fun _ => ?_
    cases rest with
    | nil =>
      refine wraps_silent ?_
      split
      · exact Gen.quiet_pure _
      · exact Gen.quiet_returnLeft _
    | cons s' rest =>
      exact (wraps_silent (Gen.quiet_modifyFrame _)).bind fun _ => ih

/-- A body makes up names for wrappers. -/
theorem wraps_body (ss : List Stmt) : Wraps plain (body ctx ss) := (wraps_stmts ss).framed

end Code

end Naming

/-! ## The walk -/

/-- The names without a number that are taken in a walk: that of the bare placeholder, once it is met. -/
def Walk.plain (w : Walk) : List String := if w.identity?.isSome then [identityName] else []

theorem Walk.plain_subset (w : Walk) : w.plain ⊆ [identityName] := by
  unfold plain
  split <;> simp

theorem Walk.length_plain_le (w : Walk) : w.plain.length ≤ 1 := by
  unfold plain
  split <;> simp

/-- What a part of the walk does.  It blames no names, it makes up the name without a number at most once,
and if it succeeds, it has done so only if the bare placeholder is recorded. -/
structure Naming.Wanders (x : Naming Walk Unit) (made : List String) (w : Walk) : Prop where
  draws : Draws MayName [identityName] made (fun err => ∀ name, ¬err.BlamesName name) Walk.session x w
  once : (x.names w).count identityName + w.plain.length ≤ 1
  plain : ∀ w', x.run w = (.ok (), w') → w'.session.Tidy w'.plain (made ++ x.names w) ∧
    (x.names w).count identityName + w.plain.length ≤ w'.plain.length

namespace Naming

variable {made : List String}

theorem Wanders.bind {x y : Naming Walk Unit} {w : Walk} (hx : Wanders x made w)
    (hy : ∀ w', w'.session.Tidy w'.plain (made ++ x.names w) → Wanders y (made ++ x.names w) w') :
    Wanders (x >>= fun _ => y) made w := by
  refine ⟨hx.draws.bind fun _ w' hrun _ => (hy w' (hx.plain w' hrun).1).draws, ?_, fun w'' hrun => ?_⟩
  · rcases hrun : x.run w with ⟨err | _, w'⟩
    · rw [(bind_of_error hrun).2]
      exact hx.once
    · obtain ⟨htidy, hcount⟩ := hx.plain w' hrun
      have := (hy w' htidy).once
      rw [(bind_of_ok hrun).2, List.count_append]
      omega
  · rcases hx' : x.run w with ⟨err | _, w'⟩
    · rw [(bind_of_error hx').1] at hrun
      cases hrun
    · obtain ⟨htidy, hcount⟩ := hx.plain w' hx'
      rw [(bind_of_ok hx').1] at hrun
      obtain ⟨htidy', hcount'⟩ := (hy w' htidy).plain w'' hrun
      rw [(bind_of_ok hx').2, ← List.append_assoc, List.count_append]
      exact ⟨htidy', by omega⟩

/-- Reading the state is nothing that a walk notices. -/
theorem wanders_get {f : Walk → Naming Walk Unit} {w : Walk} (h : Wanders (f w) made w) :
    Wanders (silent Attempt.get >>= f) made w := by
  have hget : (silent Attempt.get).run w = (.ok w, w) := rfl
  have hrun : (silent Attempt.get >>= f).run w = (f w).run w := (bind_of_ok hget).1
  have hnames : (silent Attempt.get >>= f).names w = (f w).names w := (bind_of_ok hget).2
  obtain ⟨⟨htidy, hdrawn, herrors⟩, honce, hplain⟩ := h
  rw [← hrun] at htidy hdrawn herrors hplain
  rw [← hnames] at htidy hdrawn honce hplain
  exact ⟨⟨htidy, hdrawn, herrors⟩, honce, hplain⟩

/-- A step that leaves registry and counter alone, and fails with a static error if it fails. -/
theorem wanders_silent {x : Hoist Unit} {w w' : Walk} {r : Except CompileError Unit}
    (hw : w.session.Tidy w.plain made) (hrun : x w = (r, w'))
    (hsame : w.session.SameNames w'.session) (hplain : w'.plain = w.plain)
    (herror : ∀ err, r = .error err → err.isStatic = true) : Wanders (silent x) made w := by
  obtain ⟨hregistry, hnext⟩ := hsame
  have hrun' : (silent x).run w = (r, w') := hrun
  have hnames : made ++ (silent x).names w = made := List.append_nil made
  have htidy : w'.session.Tidy w'.plain made := by
    rw [Session.Tidy, hregistry, hnext, hplain]
    exact hw
  refine ⟨⟨?_, ?_, fun err herr name hname => ?_⟩, ?_, fun w'' hok => ?_⟩
  · rw [hrun', hnames]
    exact htidy.mono w'.plain_subset (List.Subset.refl _) (Nat.le_refl _)
  · rw [hrun', hnext]
    exact .nil _
  · rw [hrun'] at herr
    have := herror err herr
    rw [CompileError.isStatic, hname] at this
    cases this
  · simpa [silent] using w.length_plain_le
  · rw [hrun'] at hok
    cases hok
    rw [hnames]
    exact ⟨htidy, by simp [silent, hplain]⟩

section Lambdas

variable {functions : FunctionTable} {options : Options}

/-- An anonymous function makes up its own name and then those of wrappers in its body. -/
theorem names_compileLambda (functions : FunctionTable) (options : Options) (body : Expr)
    (text : String) (span : Span) (w : Walk) :
    (compileLambda functions options body text span).names w =
      (if body.isPlaceholder then identityName else lambdaName w.session.nextId) ::
        match body.infer ⟨functions, .empty, w.table, options.maxDepth⟩ with
        | .error _ => []
        | .ok typing =>
          (compileWith (Hoist.lambdaSignature w.session.nextId body typing.ty options.owner) .synthetic
            span 0 (returnBody ⟨functions, options, w.table⟩ body.text span
              (value ⟨functions, options, w.table⟩ body))).names
            { w.session with nextId := w.session.nextId + 1 } := by
  let w₁ : Walk := { w with session.nextId := w.session.nextId + 1 }
  have hinfer (r : Except CompileError Typing)
      (hr : body.infer ⟨functions, .empty, w.table, options.maxDepth⟩ = r) :
      (silent (.ofExcept (body.infer ⟨functions, .empty, w.table, options.maxDepth⟩))).run w₁ = (r, w₁) := by
    rw [hr]
    rfl
  unfold compileLambda
  refine (bind_of_ok rfl).2.trans (congrArg (_ :: ·) ((bind_of_ok rfl).2.trans ?_))
  cases htype : body.infer ⟨functions, .empty, w.table, options.maxDepth⟩ with
  | error err => exact (bind_of_error (hinfer _ htype)).2
  | ok typing => exact (bind_of_ok (hinfer _ htype)).2.trans (names_bind_silent _ _ w₁)

/-- The names without a number that are taken after an anonymous function was compiled. -/
def plainAfter (body : Expr) (w : Walk) : List String :=
  if body.isPlaceholder then [identityName] else w.plain

theorem plainAfter_subset (body : Expr) (w : Walk) : plainAfter body w ⊆ [identityName] := by
  unfold plainAfter
  split
  · exact List.Subset.refl _
  · exact w.plain_subset

theorem plain_subset_plainAfter (body : Expr) (w : Walk) : w.plain ⊆ plainAfter body w := by
  unfold plainAfter
  split
  · exact w.plain_subset
  · exact List.Subset.refl _

/-- An anonymous function is named for the number that was drawn for it, or it is the identity. -/
private theorem name_lambdaSignature (body : Expr) (w : Walk) (result : Ty) (owner : String) :
    (Hoist.lambdaSignature w.session.nextId body result owner).name = identityName ∧
        identityName ∈ plainAfter body w ∨
      HasNumber w.session.nextId (Hoist.lambdaSignature w.session.nextId body result owner).name := by
  cases hbody : body.isPlaceholder with
  | true => exact .inl (by simp [Hoist.lambdaSignature, plainAfter, hbody])
  | false => exact .inr (.inl (by simp [Hoist.lambdaSignature, hbody]))

section NewLambda

variable {body : Expr} {w : Walk} (hnone : body.isPlaceholder = true → w.identity? = none)

include hnone

/-- What is to be shown of an anonymous function that was not met before, whose own name is the first one
that is made up. -/
private theorem wanders_of_names {x : Naming Walk Unit} {w' : Walk} {r : Except CompileError Unit}
    {names : List String} (hrun : x.run w = (r, w'))
    (hnames : x.names w =
      (if body.isPlaceholder then identityName else lambdaName w.session.nextId) :: names)
    (hdrawn : Drawn (fun id name => name = Gen.wrapperName id) (w.session.nextId + 1) w'.session.nextId
      names)
    (htidy : w'.session.Tidy (plainAfter body w) (made ++ x.names w))
    (herrors : ∀ err, r = .error err → ∀ name, ¬err.BlamesName name)
    (hplain : r = .ok () → w'.plain = plainAfter body w) : Wanders x made w := by
  have hname : MayName w.session.nextId
      (if body.isPlaceholder then identityName else lambdaName w.session.nextId) := by
    split
    · exact .inl rfl
    · exact .inr (.inl rfl)
  have hcount : (x.names w).count identityName + w.plain.length = (plainAfter body w).length := by
    rw [hnames, List.count_cons, hdrawn.count_identityName]
    cases hbody : body.isPlaceholder with
    | true => simp [plainAfter, hbody, Walk.plain, hnone hbody]
    | false => simp [plainAfter, hbody, lambdaName_ne_identityName]
  refine ⟨⟨?_, ?_, ?_⟩, ?_, fun w'' hok => ?_⟩
  · rw [hrun]
    exact htidy.mono (plainAfter_subset body w) (List.Subset.refl _) (Nat.le_refl _)
  · rw [hrun, hnames]
    exact .cons hname (hdrawn.mono fun _ _ hid => .inr (.inr hid))
  · rw [hrun]
    exact herrors
  · have hlength : (plainAfter body w).length ≤ 1 := by
      unfold plainAfter
      split
      · exact Nat.le_refl _
      · exact w.length_plain_le
    omega
  · rw [hrun] at hok
    obtain ⟨rfl, rfl⟩ := Prod.mk.inj hok
    rw [hplain rfl]
    exact ⟨htidy, hcount.le⟩

variable (hw : w.session.Tidy w.plain made)

include hw

/-- The function made for it is the first one with its name. -/
private theorem name_not_mem_of_tidy (result : Ty) (owner : String) :
    (Hoist.lambdaSignature w.session.nextId body result owner).name ∉ w.session.registry.names := by
  intro hmem
  cases hbody : body.isPlaceholder with
  | true =>
    rw [Hoist.lambdaSignature, if_pos hbody] at hmem
    rcases hw.of_mem_names hmem with hplain | ⟨id, -, hid⟩
    · simp [Walk.plain, hnone hbody] at hplain
    · exact not_hasNumber_identityName id hid
  | false =>
    rw [Hoist.lambdaSignature, if_neg (by simp [hbody])] at hmem
    have hplain := w.plain_subset (hw.mem_plain (Nat.le_refl _) (.inl rfl) hmem)
    exact lambdaName_ne_identityName _ (List.mem_singleton.1 hplain)

/-- An anonymous function that was not met before.  If it is the bare placeholder, that was not met in
another text either. -/
theorem wanders_compileLambda (text : String) (span : Span) :
    Wanders (compileLambda functions options body text span) made w := by
  have hnames := names_compileLambda functions options body text span w
  have hrun : (compileLambda functions options body text span).run w =
      Hoist.compileLambda functions options body text span w := by rw [run_compileLambda]
  rw [Hoist.compileLambda_eq] at hrun
  -- The name is made up before it is known whether the function has a type.
  let name := if body.isPlaceholder then identityName else lambdaName w.session.nextId
  have hw' : w.session.Tidy (plainAfter body w) (made ++ [name]) :=
    hw.mono (plain_subset_plainAfter body w) (List.subset_append_left _ _) (Nat.le_refl _)
  cases htype : body.infer ⟨functions, .empty, w.table, options.maxDepth⟩ with
  | error err =>
    simp only [htype] at hrun hnames
    refine wanders_of_names hnone hrun hnames (.nil _) ?_ (fun err' herr name hname => ?_)
      fun hok => by cases hok
    · rw [hnames]
      exact hw'.mono (List.Subset.refl _) (List.Subset.refl _) (Nat.le_succ _)
    · cases herr
      have := Expr.inferAt_isStatic body htype
      rw [CompileError.isStatic, hname] at this
      cases this
  | ok typing =>
    simp only [htype] at hrun hnames
    have hmade : (Hoist.lambdaSignature w.session.nextId body typing.ty options.owner).name ∈
        made ++ [name] := List.mem_append_right _ (List.mem_singleton.2 rfl)
    have hvalue : Wraps (plainAfter body w) (value ⟨functions, options, w.table⟩ body) :=
      wraps_value body
    obtain ⟨htidy, hdrawn, herrors⟩ :
        Draws (fun id name => name = Gen.wrapperName id) (plainAfter body w) (made ++ [name]) _ id
          (compileWith (Hoist.lambdaSignature w.session.nextId body typing.ty options.owner) .synthetic
            span 0 (returnBody ⟨functions, options, w.table⟩ body.text span
              (value ⟨functions, options, w.table⟩ body)))
          { w.session with nextId := w.session.nextId + 1 } :=
      draws_compileMadeUp hvalue.returnBody hw' hmade (name_lambdaSignature body w typing.ty options.owner)
    rw [List.append_assoc, List.singleton_append, ← hnames] at htidy
    rw [run_compileWith, run_returnBody, run_value] at htidy hdrawn herrors
    split at hrun
    next err S hfailed =>
      rw [hfailed] at htidy hdrawn herrors
      refine wanders_of_names hnone hrun hnames hdrawn htidy (fun err' herr name hname => ?_)
        fun hok => by cases hok
      cases herr
      rcases herrors err rfl with hblames | ⟨-, htaken⟩
      · obtain ⟨hmem, id, rfl⟩ := hblames name hname
        exact identityName_ne_wrapperName id (List.mem_singleton.1 (plainAfter_subset body w hmem)).symm
      · exact name_not_mem_of_tidy hnone hw typing.ty options.owner htaken
    next S hok =>
      rw [hok] at htidy hdrawn
      refine wanders_of_names hnone hrun hnames hdrawn htidy (fun _ herr => by cases herr) fun _ => ?_
      cases hbody : body.isPlaceholder <;> simp [plainAfter, Walk.plain, hbody]

end NewLambda

/-- A step of the walk makes up names with the numbers that it draws, and blames none. -/
theorem wanders_take (t : WalkStep) {w : Walk} (hw : w.session.Tidy w.plain made) :
    Wanders (take functions options t) made w := by
  cases t with
  | enter depth span =>
    exact wanders_silent hw rfl (refl_of Session.SameNames _) rfl fun _ herr => ensureDepth_isStatic herr
  | meet l =>
    obtain ⟨body, text, span⟩ := l
    refine wanders_get ?_
    dsimp only
    split
    · exact wanders_silent hw rfl ⟨rfl, rfl⟩ rfl fun _ herr => nomatch herr
    · split
      · exact wanders_silent hw rfl ⟨rfl, rfl⟩ rfl fun _ herr => nomatch herr
      next hnone => exact wanders_compileLambda (fun hbody => by simpa [hbody] using hnone) hw text span

/-- The whole walk. -/
theorem wanders_takeAll (ts : List WalkStep) {w : Walk} (hw : w.session.Tidy w.plain made) :
    Wanders (takeAll functions options ts) made w := by
  induction ts generalizing made w with
  | nil => exact wanders_silent hw rfl ⟨rfl, rfl⟩ rfl fun _ herr => nomatch herr
  | cons t ts ih => exact (wanders_take t hw).bind fun w' hw' => ih hw'

end Lambdas

/-! ## Declared functions -/

/-- A declared function makes up names for wrappers.  It blames those, or its own name. -/
theorem draws_compileDecl (ctx : CodeContext) (d : Decl) {plain made : List String} {S : Session}
    (hS : S.Tidy plain made) (hname : d.name.name ∈ plain) :
    Draws (fun id name => name = Gen.wrapperName id) plain made (FunctionError plain S d.name.name) id
      (compileDecl ctx d) S := by
  have hresolve : Draws (fun id name => name = Gen.wrapperName id) plain made
      (FunctionError plain S d.name.name) id (silent (.ofExcept (resolve ctx.functions d.name))) S := by
    refine ⟨by simpa [silent, Attempt.ofExcept] using hS, .nil _, fun err herr => .inl ?_⟩
    exact CompileError.blames_of_isStatic (resolve_isStatic herr) _
  refine hresolve.silent_bind fun s S₁ hrun _ => ?_
  obtain ⟨hs, rfl⟩ := Attempt.ofExcept_eq_ok.1 hrun
  rw [← ctx.functions.name_of_get? (Expr.resolve_eq_ok.1 hs)] at hname ⊢
  exact draws_compileWith (wraps_body d.body) hS fun r hr => hS.declareUser hr hname

end Naming

/-- The names of declared functions. -/
def declNames (ds : List Decl) : List String := ds.map fun d => d.name.name

/-- Whether a name may be made up. -/
def HasMadeUpForm (name : String) : Prop := name = identityName ∨ ∃ id, HasNumber id name

/-- Whether an error blames only names from a list that are there twice or might have been made up. -/
def CompileError.Accuses (err : CompileError) (names : List String) : Prop :=
  ∀ name, err.BlamesName name → name ∈ names ∧ (2 ≤ names.count name ∨ HasMadeUpForm name)

/-- An error of a declared function blames a name that is declared before, or might have been made up. -/
theorem accuses_of_functionError {earlier later made : List String} {name : String} {S : Session}
    {err : CompileError} (hS : S.Tidy (identityName :: earlier) made)
    (h : Naming.FunctionError (identityName :: (earlier ++ [name])) S name err) :
    err.Accuses (earlier ++ name :: later) := by
  intro name' hblames
  rcases h with hwrapper | ⟨hname, htaken⟩
  · obtain ⟨hmem, id, rfl⟩ := hwrapper name' hblames
    refine ⟨?_, .inr (.inr ⟨id, .inr rfl⟩)⟩
    rcases List.mem_cons.1 hmem with heq | hmem
    · exact absurd heq.symm (identityName_ne_wrapperName id)
    · rw [List.append_cons]
      exact List.mem_append_left _ hmem
  · obtain rfl : name' = name := by
      rw [CompileError.BlamesName, hblames] at hname
      exact Cause.duplicateFunction.inj hname
    refine ⟨by simp, ?_⟩
    rcases hS.of_mem_names htaken with hplain | ⟨id, -, hid⟩
    · rcases List.mem_cons.1 hplain with heq | hearlier
      · exact .inr (.inl heq)
      · have := List.count_pos_iff.2 hearlier
        rw [List.count_append, List.count_cons_self]
        exact .inl (by omega)
    · exact .inr (.inr ⟨id, hid⟩)

/-- Declared functions make up names for wrappers, and accuse only one another. -/
theorem Session.draws_compileDecls (ctx : CodeContext) (ds : List Decl) {S : Session}
    {earlier made : List String} (hS : S.Tidy (identityName :: earlier) made) :
    (S.compileDecls ctx ds).1.Tidy (identityName :: (earlier ++ declNames ds))
        (made ++ Naming.compileDecls ctx S ds) ∧
      Drawn (fun id name => name = Gen.wrapperName id) S.nextId (S.compileDecls ctx ds).1.nextId
        (Naming.compileDecls ctx S ds) ∧
      ∀ err ∈ (S.compileDecls ctx ds).2, err.Accuses (earlier ++ declNames ds) := by
  induction ds generalizing S earlier made with
  | nil =>
    refine ⟨?_, .nil _, fun _ herr => nomatch herr⟩
    simpa [declNames, compileDecls, Naming.compileDecls] using hS
  | cons d ds ih =>
    have hplain : identityName :: earlier ⊆ identityName :: (earlier ++ [d.name.name]) :=
      List.cons_subset_cons _ (List.subset_append_left _ _)
    obtain ⟨htidy, hdrawn, herrors⟩ := Naming.draws_compileDecl ctx d
      (hS.mono hplain (List.Subset.refl _) (Nat.le_refl _)) (by simp)
    have hnames : earlier ++ declNames (d :: ds) = (earlier ++ [d.name.name]) ++ declNames ds := by
      simp [declNames]
    rw [hnames]
    rw [Naming.run_compileDecl] at htidy hdrawn herrors
    rcases hrun : compileDecl ctx d S with ⟨err | _, S'⟩ <;> rw [hrun] at htidy hdrawn herrors <;>
      simp only [compileDecls, Naming.compileDecls, hrun]
    · obtain ⟨htidy', hdrawn', herrors'⟩ := ih (S := S'.note (.functionFailed d.name.name err)) htidy
      rw [← List.append_assoc]
      refine ⟨htidy', hdrawn.append hdrawn', fun err' herr' => ?_⟩
      rcases List.mem_cons.1 herr' with rfl | herr'
      · rw [List.append_assoc]
        exact accuses_of_functionError hS (herrors _ rfl)
      · exact herrors' err' herr'
    · obtain ⟨htidy', hdrawn', herrors'⟩ := ih htidy
      rw [← List.append_assoc]
      exact ⟨htidy', hdrawn.append hdrawn', herrors'⟩

/-! ## Whole blocks -/

namespace Block

variable (block : Block) (functions : FunctionTable) (options : Options)

/-- What the walk comes to. -/
theorem wanders_walk :
    Naming.Wanders (Naming.takeAll functions options block.steps) [] { session := .start } :=
  Naming.wanders_takeAll block.steps Registry.Tidy.empty

/-- If the walk fails, its error blames no name. -/
theorem not_blamesName_of_walk {err : CompileError}
    (h : (Hoist.topLevel functions options block.stmts { session := .start }).1 = .error err)
    (name : String) : ¬err.BlamesName name := by
  refine (block.wanders_walk functions options).draws.errors err ?_ name
  rw [Naming.run_steps, h]

/-- What a compilation comes to. -/
theorem draws_session :
    (block.session functions options).Tidy (identityName :: declNames block.decls)
        (block.madeUpNames functions options) ∧
      Drawn MayName 0 (block.session functions options).nextId (block.madeUpNames functions options) ∧
      (block.madeUpNames functions options).count identityName ≤ 1 ∧
      ∀ err ∈ (compileBlock functions options block).errors, err.Accuses (declNames block.decls) := by
  obtain ⟨⟨htidy, hdrawn, herrors⟩, honce, hplain⟩ := block.wanders_walk functions options
  rw [Naming.run_steps] at htidy hdrawn herrors hplain
  have hhoist := block.hoist_eq functions options
  have hwalk : (Hoist.topLevel functions options block.stmts { session := .start }).2 =
    block.walk functions options := rfl
  rw [hwalk] at htidy hdrawn
  have hsub : [identityName] ⊆ identityName :: declNames block.decls := by simp
  unfold madeUpNames
  rw [hhoist]
  cases hrun : (Hoist.topLevel functions options block.stmts { session := .start }).1 with
  | error err =>
    obtain ⟨hsession, herrs⟩ := session_of_error hrun
    dsimp only
    rw [hsession, herrs, List.append_nil]
    refine ⟨htidy.mono hsub (List.Subset.refl _) (Nat.le_refl _), hdrawn, by omega, fun err' herr => ?_⟩
    obtain rfl := List.mem_singleton.1 herr
    exact fun name hname => absurd hname (herrors _ hrun name)
  | ok _ =>
    obtain ⟨hsession, herrs⟩ := session_of_ok hrun
    have hhoisted : Session.Tidy ((block.walk functions options).session.note
        (.hoisted (block.walk functions options).table.size)) [identityName] _ := htidy
    obtain ⟨htidy', hdrawn', herrors'⟩ := Session.draws_compileDecls
      ⟨functions, options, (block.walk functions options).table⟩ block.decls hhoisted
    dsimp only
    rw [hsession, herrs]
    refine ⟨htidy', hdrawn.append (hdrawn'.mono fun _ _ hid => .inr (.inr hid)), ?_, herrors'⟩
    rw [List.count_append, hdrawn'.count_identityName]
    omega

end Block

/-- Made-up names are fresh.

* The names that a compilation makes up are different, one for each number that is drawn.
* Synthetic entries of the module have such names, and those with numbers stand in the order of their
  numbers.
* No anonymous function fails because its name or that of a wrapper is taken.
* Where a name is said to be taken, it is that of a declared function, and either it is declared again or
  it has the form of a made-up name. -/
theorem made_up_names_fresh (functions : FunctionTable) (options : Options) (block : Block) :
    ((block.madeUpNames functions options).Nodup ∧
      (block.madeUpNames functions options).length = (block.session functions options).nextId) ∧
    ((∀ e ∈ (compileBlock functions options block).module.syntheticFunctions,
        e.name ∈ block.madeUpNames functions options ∧ HasMadeUpForm e.name) ∧
      (compileBlock functions options block).module.syntheticFunctions.Pairwise Entry.Precedes) ∧
    (∀ err S, Session.hoist functions options block .start = (.error err, S) →
      ∀ name, err.cause ≠ .duplicateFunction name) ∧
    ∀ err ∈ (compileBlock functions options block).errors, ∀ name, err.cause = .duplicateFunction name →
      name ∈ declNames block.decls ∧
        (2 ≤ (declNames block.decls).count name ∨ HasMadeUpForm name) := by
  obtain ⟨htidy, hdrawn, honce, herrors⟩ := block.draws_session functions options
  have hlength := hdrawn.add_length
  rw [Block.module_compileBlock]
  refine ⟨⟨hdrawn.nodup honce, by omega⟩, ⟨fun e he => ?_, htidy.ordered⟩, fun err S hhoist name => ?_,
    herrors⟩
  · obtain ⟨hmem, hflag⟩ := List.mem_filter.1 he
    obtain ⟨hmade, hform⟩ := htidy.madeUp e hmem hflag
    exact ⟨hmade, hform.imp And.left fun ⟨id, _, hid⟩ => ⟨id, hid⟩⟩
  · rw [block.hoist_eq] at hhoist
    cases hrun : (Hoist.topLevel functions options block.stmts { session := .start }).1 with
    | error err' =>
      rw [hrun] at hhoist
      cases hhoist
      exact block.not_blamesName_of_walk functions options hrun name
    | ok _ =>
      rw [hrun] at hhoist
      cases hhoist

/-- A wrapper that is abandoned keeps its name to itself: the next one gets a new number. -/
example : Block.madeUpNames ⟨[deepDecl, shallowDecl]⟩ wrappingFunctions { maxDepth := 2 } =
    ["_lambda_0$constant", "_lambda_1$constant"] := by
  decide +kernel

end BlockCompiler
