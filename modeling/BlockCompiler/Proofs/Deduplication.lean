import BlockCompiler.Proofs.HoistedFunctions
import BlockCompiler.Proofs.UniqueText

/-!
# What shares a function is the same expression

Anonymous functions are compiled once for each text, and so are wrappers for each text and type.  In a
block that was built from plain expressions a text determines the expression, so nothing shares a
function but expressions that are alike.

* `Block.hoisted_walk` says what the walk through a block leaves, also one that failed: different
  texts have different functions, except for the spellings of the bare placeholder.
* `Session.Promotions` says the same of wrappers, as the journal reports them.  `Session.Promotes`
  carries it through a compilation.
* `deduplication_merges_equal` puts both together with `UniqueText`.

What is said of names here holds for all blocks.
-/

namespace BlockCompiler

/-! ## Built blocks -/

/-- A statement that was built, from identifiers. -/
inductive Stmt.Built : Stmt → Prop where
  | expr (b : Builder) {value : Expr} (hvalue : value.Built) : Built (b.expr value)
  | ret (b : Builder) {value : Expr} (hvalue : value.Built) : Built (b.ret value)
  | function (b : Builder) {name : String} {body : List Stmt} (hname : IsIdentifier name)
    (hbody : ∀ s ∈ body, Built s) : Built (b.function name body)

/-- A block of statements that were built. -/
def Block.Built (block : Block) : Prop := ∀ s ∈ block.stmts, s.Built

/-- No expression in the block is ambiguous. -/
def Block.Plain (block : Block) : Prop := ∀ e ∈ block.exprs, e.HasOwnText

instance (block : Block) : Decidable block.Plain :=
  inferInstanceAs (Decidable (∀ e ∈ block.exprs, e.HasOwnText))

/-- The parts of a built expression were built. -/
theorem Expr.Built.of_mem {e e' : Expr} (h : e.Built) (he : e' ∈ e.subexprs) : e'.Built := by
  induction h with
  | literal b value =>
    obtain rfl := List.mem_singleton.1 he
    exact .literal b value
  | var b hname =>
    obtain rfl := List.mem_singleton.1 he
    exact .var b hname
  | placeholder b =>
    obtain rfl := List.mem_singleton.1 he
    exact .placeholder b
  | pair b hfirst hsecond ihfirst ihsecond =>
    rcases List.mem_cons.1 he with rfl | he
    · exact .pair b hfirst hsecond
    · rcases List.mem_append.1 he with he | he
      exacts [ihfirst he, ihsecond he]
  | lambda b hbody ih =>
    rcases List.mem_cons.1 he with rfl | he
    exacts [.lambda b hbody, ih he]
  | call b hname hargs ih =>
    rcases List.mem_cons.1 he with rfl | he
    · exact .call b hname hargs
    · obtain ⟨arg, harg, he⟩ := mem_subexprsAll.1 he
      exact ih arg harg he

theorem Stmt.Built.of_mem {s : Stmt} {e : Expr} (h : s.Built) (he : e ∈ s.exprs) : e.Built := by
  induction h with
  | expr _ hvalue | ret _ hvalue => exact hvalue.of_mem he
  | function b hname hbody ih =>
    obtain ⟨s, hs, he⟩ := mem_exprsAll.1 he
    exact ih s hs he

namespace Block

variable {block : Block}

theorem Built.of_mem (h : block.Built) {e : Expr} (he : e ∈ block.exprs) : e.Built := by
  obtain ⟨s, hs, he⟩ := Stmt.mem_exprsAll.1 he
  exact (h s hs).of_mem he

theorem Plain.of_mem (h : block.Plain) {e : Expr} (he : e ∈ block.exprs) : e.Plain :=
  fun _ he' => h _ (mem_exprs_of_mem_subexprs he' he)

/-- In a built block a text determines the expression. -/
theorem alike_of_text_eq (hbuilt : block.Built) (hplain : block.Plain) {e e' : Expr}
    (he : e ∈ block.exprs) (he' : e' ∈ block.exprs) (h : e.text = e'.text) : e.Alike e' :=
  (hbuilt.of_mem he).alike_of_text_eq (hplain.of_mem he) (hbuilt.of_mem he') (hplain.of_mem he') h

end Block

/-! ## Anonymous functions -/

namespace Walk

/-- Whatever the walk through a block met has brought about what it should. -/
def HoistedIn (block : Block) (functions : FunctionTable) (options : Options) (w : Walk) : Prop :=
  ∃ met, (∀ l ∈ met, l.expr ∈ block.exprs) ∧ w.Hoisted functions options met

/-- From `w` on this was kept. -/
def KeepsHoisted (block : Block) (functions : FunctionTable) (options : Options) (w w' : Walk) : Prop :=
  w.HoistedIn block functions options → w'.HoistedIn block functions options

instance (block : Block) (functions : FunctionTable) (options : Options) :
    IsPreorder Walk (KeepsHoisted block functions options) where
  refl _ h := h
  trans _ _ _ h h' hw := h' (h hw)

variable {block : Block} {functions : FunctionTable} {options : Options} {met : List LambdaLiteral}
  {w w' : Walk} {l : LambdaLiteral}

/-- An anonymous function that fails leaves what was there, and perhaps wrappers. -/
theorem Hoisted.fail (h : w.Hoisted functions options met) (hl : l.expr ∈ block.exprs)
    {e : CompileError}
    (hrun : Hoist.lambda functions options l.body l.text l.span w = (.error e, w')) :
    w'.Hoisted functions options met := by
  have hclosed := ((Hoist.lambda_secures hl).of_run hrun).2 h.closed
  have hnodup := ((Hoist.makesUp_lambda hl).of_run hrun).nodup h.nodup
  cases Hoist.meeting hrun with
  | untyped => exact ⟨hclosed, hnodup, h.covers, h.first, h.identity, h.apart, h.made⟩
  | failed _ _ _ hcompiled =>
    refine ⟨hclosed, hnodup, h.covers, h.first, h.identity, h.apart, fun name hname => ?_⟩
    have hvalue := (Gen.stable_numbers ⟨functions, options, w.table⟩ block).value
      (Block.body_mem_exprs hl)
    obtain ⟨ids, -, ⟨_, -, hnames⟩ | ⟨hok, -⟩⟩ :=
      Session.compileWith_numbers hvalue.returnBody hcompiled h.nodup
    · rw [hnames, List.mem_append] at hname
      rcases hname with hold | hnew
      · exact h.made name hold
      · obtain ⟨id, -, rfl⟩ := List.mem_map.1 hnew
        exact .inl ⟨id, rfl⟩
    · cases hok

end Walk

theorem Hoist.lambda_keepsHoisted {block : Block} {functions : FunctionTable} {options : Options} :
    LambdasKeep block functions options (Walk.KeepsHoisted block functions options) := by
  rintro body text span he w ⟨met, hmet, h⟩
  rcases hrun : lambda functions options body text span w with ⟨e | _, w'⟩
  · exact ⟨met, hmet, h.fail (l := ⟨body, text, span⟩) he hrun⟩
  · refine ⟨met ++ [⟨body, text, span⟩], fun l hl => ?_, h.meet (l := ⟨body, text, span⟩) he hrun⟩
    rcases List.mem_append.1 hl with hl | hl
    · exact hmet l hl
    · rw [List.mem_singleton.1 hl]
      exact he

/-- The walk through a block keeps functions of different texts apart, however it ends. -/
theorem Block.hoisted_walk (block : Block) (functions : FunctionTable) (options : Options) :
    (block.walk functions options).HoistedIn block functions options := by
  have hkeeps : Walk.KeepsHoisted block functions options { session := .start }
      (block.walk functions options) :=
    Hoist.topLevel_keeps Hoist.lambda_keepsHoisted block.stmts (fun _ he => he) _
  exact hkeeps ⟨[], fun _ hl => (nomatch hl), .start functions options⟩

/-! ## Promoted constants -/

/-- The name of the wrapper and the text of the constant that an event says was promoted to it.  No
promotion is completed without such an event: see `Gen.promoted_pushed`. -/
def Event.promotion? : Event → Option (String × String)
  | constantReused name text => some (name, text)
  | constantPromoted text s => some (s.name, text)
  | _ => none

namespace Session

variable {S S' : Session} {name text : String}

/-- Whether the journal says that a constant of this text was promoted to the wrapper of this name. -/
def Promoted (S : Session) (name text : String) : Prop :=
  ∃ event ∈ S.journal, event.promotion? = some (name, text)

theorem promoted_note_iff {event : Event} : (S.note event).Promoted name text ↔
    S.Promoted name text ∨ event.promotion? = some (name, text) := by
  constructor
  · rintro ⟨event', hmem, hevent⟩
    rcases Array.mem_push.1 hmem with hold | rfl
    exacts [.inl ⟨event', hold, hevent⟩, .inr hevent]
  · rintro (⟨event', hmem, hevent⟩ | hevent)
    exacts [⟨event', Array.mem_push_of_mem _ hmem, hevent⟩, ⟨event, Array.mem_push_self, hevent⟩]

/-- Every remembered wrapper is in the journal, wrappers have numbers that were handed out, and constants
of different texts have different wrappers. -/
structure Promotions (S : Session) : Prop where
  recorded : ∀ {key s}, S.wrapper? key = some s →
    ∃ t text, key = Gen.wrapperKey t text ∧ S.Promoted s.name text
  numbered : ∀ {name text}, S.Promoted name text → ∃ id < S.nextId, name = Gen.wrapperName id
  apart : ∀ {name text text'}, S.Promoted name text → S.Promoted name text' → text = text'

/-- From `S` to `S'` constants were promoted.  Wrappers with numbers that were handed out before are old. -/
structure Promotes (S S' : Session) : Prop where
  le : S.nextId ≤ S'.nextId
  keeps : S.Promotions → S'.Promotions
  old : S.Promotions → ∀ {id text}, id < S.nextId → S'.Promoted (Gen.wrapperName id) text →
    ∃ text', S.Promoted (Gen.wrapperName id) text'

instance : IsPreorder Session Promotes where
  refl _ := ⟨Nat.le_refl _, id, fun _ _ text _ h => ⟨text, h⟩⟩
  trans _ _ _ h h' := by
    refine ⟨h.le.trans h'.le, h'.keeps ∘ h.keeps, fun hS _ _ hid hpromoted => ?_⟩
    obtain ⟨text', hpromoted'⟩ := h'.old (h.keeps hS) (hid.trans_le h.le) hpromoted
    exact h.old hS hid hpromoted'

/-- Sessions with the same wrappers and the same promotions in the journal. -/
theorem promotes_of_same (hnext : S.nextId ≤ S'.nextId) (hwrappers : S'.wrappers = S.wrappers)
    (hpromoted : ∀ {name text}, S'.Promoted name text ↔ S.Promoted name text) : S.Promotes S' := by
  refine ⟨hnext, fun h => ⟨fun {key s} hs => ?_, fun hpromotion => ?_, fun hpromotion hpromotion' => ?_⟩,
    fun _ _ text _ hpromotion => ⟨text, hpromoted.1 hpromotion⟩⟩
  · have hold : S.wrapper? key = some s := by
      rw [wrapper?, ← hwrappers]
      exact hs
    obtain ⟨t, text, hkey, hpromotion⟩ := h.recorded hold
    exact ⟨t, text, hkey, hpromoted.2 hpromotion⟩
  · obtain ⟨id, hid, rfl⟩ := h.numbered (hpromoted.1 hpromotion)
    exact ⟨id, hid.trans_le hnext, rfl⟩
  · exact h.apart (hpromoted.1 hpromotion) (hpromoted.1 hpromotion')

theorem promotes_note {event : Event} (hevent : event.promotion? = none) (S : Session) :
    S.Promotes (S.note event) := by
  refine promotes_of_same (Nat.le_refl _) rfl ?_
  simp [promoted_note_iff, hevent]

/-- Neither the registry nor the pool matters, and a number may be handed out. -/
theorem promotes_of_eq (hnext : S.nextId ≤ S'.nextId) (hwrappers : S'.wrappers = S.wrappers)
    (hjournal : S'.journal = S.journal) : S.Promotes S' := by
  refine promotes_of_same hnext hwrappers ?_
  simp [Promoted, hjournal]

theorem promotes_compileWith {s : Signature} {flags : EntryFlags} {site : Span} {depth : Nat}
    {body : Gen Unit} (hbody : Gen.KeepsSession Promotes body) :
    Attempt.Keeps Promotes (compileWith s flags site depth body) := by
  intro S
  rw [compileWith_eq]
  split
  · exact refl_of Promotes S
  next registry _ =>
    have hrun := hbody ⟨{ S with registry }.note (.declared s), .start s site depth⟩
    have hentered : S.Promotes { S with registry } := promotes_of_eq (Nat.le_refl _) rfl rfl
    have hdeclared : S.Promotes ({ S with registry }.note (.declared s)) :=
      trans_of Promotes hentered (promotes_note rfl _)
    have hcompiled := trans_of Promotes hdeclared hrun
    split
    next e w heq =>
      rw [heq] at hcompiled
      have hnoted : w.session.Promotes (w.session.note (.abandoned s.name e)) := promotes_note rfl _
      refine trans_of Promotes hcompiled (trans_of Promotes hnoted ?_)
      exact promotes_of_eq (Nat.le_refl _) rfl rfl
    next w heq =>
      rw [heq] at hcompiled
      dsimp only
      split
      · exact hcompiled
      next registry' _ =>
        refine trans_of Promotes hcompiled (trans_of Promotes ?_ (promotes_note rfl _))
        exact promotes_of_eq (Nat.le_refl _) rfl rfl

/-- A remembered wrapper is reused for the text that it was made for. -/
theorem promotes_reused {t : Ty} {s : Signature} (hs : S.wrapper? (Gen.wrapperKey t text) = some s) :
    S.Promotes (S.note (.constantReused s.name text)) := by
  refine ⟨Nat.le_refl _, fun h => ?_, fun h id text₁ hid hpromoted => ?_⟩ <;>
    obtain ⟨t', text', hkey, hpromotion⟩ := h.recorded hs <;>
    obtain rfl := (Gen.wrapperKey_inj hkey).2
  -- The event is not new, except for its place.
  · have hsame {name text₁ : String} :
        (S.note (.constantReused s.name text)).Promoted name text₁ ↔ S.Promoted name text₁ := by
      rw [promoted_note_iff, or_iff_left_iff_imp]
      intro hevent
      cases hevent
      exact hpromotion
    have hpromotes : S.Promotes (S.note (.constantReused s.name text)) :=
      promotes_of_same (Nat.le_refl _) rfl hsame
    exact hpromotes.keeps h
  · rcases promoted_note_iff.1 hpromoted with hold | hevent
    · exact ⟨_, hold⟩
    · have hname : s.name = Gen.wrapperName id := congrArg Prod.fst (Option.some.inj hevent)
      exact ⟨_, hname ▸ hpromotion⟩

theorem promoted_wrapped_iff {key : String} {s : Signature} {text' : String} :
    ((S.note (.constantPromoted text s)).rememberWrapper key s).Promoted name text' ↔
      S.Promoted name text' ∨ some (s.name, text) = some (name, text') :=
  promoted_note_iff

/-- A constant is wrapped in a function that no constant was promoted to. -/
theorem Promotions.wrap (h : S.Promotions) {t : Ty} {s : Signature} {id : Nat}
    (hname : s.name = Gen.wrapperName id) (hid : id < S.nextId)
    (hfresh : ∀ text', ¬S.Promoted s.name text') :
    ((S.note (.constantPromoted text s)).rememberWrapper (Gen.wrapperKey t text) s).Promotions := by
  refine ⟨fun {key s'} hs' => ?_, fun hpromoted => ?_, fun {name text₁ text₂} h₁ h₂ => ?_⟩
  · rw [wrapper?_rememberWrapper] at hs'
    split at hs'
    next hkey =>
      obtain rfl := Option.some.inj hs'
      exact ⟨t, text, hkey.symm, promoted_wrapped_iff.2 (.inr rfl)⟩
    next =>
      obtain ⟨t', text', hkey, hpromoted⟩ := h.recorded hs'
      exact ⟨t', text', hkey, promoted_wrapped_iff.2 (.inl hpromoted)⟩
  · rcases promoted_wrapped_iff.1 hpromoted with hold | hevent
    · exact h.numbered hold
    · cases hevent
      exact ⟨id, hid, hname⟩
  · rcases promoted_wrapped_iff.1 h₁ with h₁ | h₁ <;> rcases promoted_wrapped_iff.1 h₂ with h₂ | h₂
    · exact h.apart h₁ h₂
    · cases h₂
      exact absurd h₁ (hfresh _)
    · cases h₁
      exact absurd h₂ (hfresh _)
    · cases h₁
      cases h₂
      rfl

/-- A new wrapper has a number of its own. -/
theorem promotes_wrapped {t : Ty} {s : Signature} (hname : s.name = Gen.wrapperName S.nextId)
    (h : Promotes { S with nextId := S.nextId + 1 } S') :
    S.Promotes ((S'.note (.constantPromoted text s)).rememberWrapper (Gen.wrapperKey t text) s) := by
  have hcount : S.Promotes { S with nextId := S.nextId + 1 } :=
    promotes_of_eq (Nat.le_succ _) rfl rfl
  have hlt : S.nextId < S'.nextId := h.le
  have hfresh (hS : S.Promotions) (text' : String) : ¬S'.Promoted s.name text' := by
    intro hpromoted
    rw [hname] at hpromoted
    obtain ⟨text'', hold⟩ := h.old (hcount.keeps hS) (Nat.lt_succ_self _) hpromoted
    obtain ⟨id, hid, hsame⟩ := hS.numbered hold
    rw [Gen.wrapperName_inj hsame] at hid
    exact Nat.lt_irrefl _ hid
  refine ⟨hlt.le, fun hS => (h.keeps (hcount.keeps hS)).wrap hname hlt (hfresh hS),
    fun hS id text' hid hpromoted => ?_⟩
  rcases promoted_wrapped_iff.1 hpromoted with hold | hevent
  · exact (trans_of Promotes hcount h).old hS hid hold
  · have hsame : s.name = Gen.wrapperName id := congrArg Prod.fst (Option.some.inj hevent)
    rw [hname] at hsame
    rw [Gen.wrapperName_inj hsame] at hid
    exact absurd hid (Nat.lt_irrefl _)

end Session

/-- A promoted constant is noted with the wrapper that is pushed in its place. -/
theorem Gen.promoted_pushed {ctx : CodeContext} {e : Expr} {params : List Ty} {result : Ty}
    {value : Gen Ty} {w w' : Workbench} (h : promote ctx e params result value w = (.ok (), w')) :
    ∃ s w₁, w₁.session.Promoted s.name e.text ∧ bindFunction s w₁ = (.ok (), w') := by
  cases promotion h with
  | @reused s _ _ _ hbind => exact ⟨s, _, ⟨_, Array.mem_push_self, rfl⟩, hbind⟩
  | @wrapped s _ _ _ _ _ _ _ hbind => exact ⟨s, _, ⟨_, Array.mem_push_self, rfl⟩, hbind⟩

/-- Code for expressions promotes constants. -/
theorem Gen.stable_promotes (ctx : CodeContext) (block : Block) :
    Stable ctx block fun _ => Session.Promotes where
  preorder _ := inferInstance
  mono _ h := h
  intern _ _ _ := Session.promotes_of_eq (Nat.le_refl _) rfl rfl
  promote e _ hvalue _ params result _ w := by
    have hcount : w.session.Promotes { w.session with nextId := w.session.nextId + 1 } :=
      Session.promotes_of_eq (Nat.le_succ _) rfl rfl
    rcases hrun : promote ctx e params result (value ctx e) w with ⟨r, w'⟩
    cases promotion hrun with
    | reused hs hbind =>
      cases hbind
      refine trans_of Session.Promotes (Session.promotes_reused hs) ?_
      exact Session.promotes_of_eq (Nat.le_refl _) rfl rfl
    | refused => exact refl_of Session.Promotes w.session
    | failed _ _ _ hcompiled =>
      exact trans_of Session.Promotes hcount
        ((Session.promotes_compileWith hvalue.returnBody).of_run hcompiled)
    | @wrapped s S _ _ _ _ hs hcompiled hbind =>
      cases hbind
      have hname : s.name = wrapperName w.session.nextId := by
        rw [← hs]
        rfl
      have hcompiled := (Session.promotes_compileWith hvalue.returnBody).of_run hcompiled
      have hwrapped : w.session.Promotes ((S.note (.constantPromoted e.text s)).rememberWrapper
          (wrapperKey (.fn params result) e.text) s) := Session.promotes_wrapped hname hcompiled
      refine trans_of Session.Promotes hwrapped ?_
      exact Session.promotes_of_eq (Nat.le_refl _) rfl rfl

/-- So do declared functions. -/
theorem Session.promotes_compileDecls (ctx : CodeContext) {block : Block} (ds : List Decl)
    (hds : ∀ d ∈ ds, ∀ e ∈ Stmt.exprsAll d.body, e ∈ block.exprs) (S : Session) :
    S.Promotes (S.compileDecls ctx ds).1 := by
  refine compileDecls_keeps ctx (fun S name e => promotes_note rfl S) ds (fun d hd => ?_) S
  refine .bind (Attempt.keeps_ofExcept _) fun s => promotes_compileWith fun w => ?_
  exact ((Gen.stable_promotes ctx block).body (hds d hd) w).choose_spec

/-- So do anonymous functions. -/
theorem Hoist.promotes_lambda {block : Block} {functions : FunctionTable} {options : Options} :
    LambdasKeep block functions options (InvImage Session.Promotes Walk.session) := by
  intro body text span he w
  have hvalue := (Gen.stable_promotes ⟨functions, options, w.table⟩ block).value
    (Block.body_mem_exprs he)
  have hcount : w.session.Promotes { w.session with nextId := w.session.nextId + 1 } :=
    Session.promotes_of_eq (Nat.le_succ _) rfl rfl
  rcases hrun : lambda functions options body text span w with ⟨r, w'⟩
  cases meeting hrun with
  | recorded | identity => exact Session.promotes_note rfl _
  | untyped => exact hcount
  | failed _ _ _ hcompiled =>
    have hcompiled := (Session.promotes_compileWith hvalue.returnBody).of_run hcompiled
    exact trans_of Session.Promotes hcount hcompiled
  | compiled _ _ _ hcompiled =>
    have hcompiled := (Session.promotes_compileWith hvalue.returnBody).of_run hcompiled
    exact trans_of Session.Promotes (trans_of Session.Promotes hcount hcompiled)
      (Session.promotes_note rfl _)

namespace Block

variable (block : Block) (functions : FunctionTable) (options : Options)

/-- In any compilation constants of different texts have different wrappers. -/
theorem promotions_session : (block.session functions options).Promotions := by
  have hstart : Session.start.Promotions := by
    have hnone {name text : String} : ¬Session.start.Promoted name text := fun ⟨_, h, _⟩ => by
      simp [Session.start] at h
    refine ⟨fun hs => ?_, fun h => absurd h hnone, fun h => absurd h hnone⟩
    simp [Session.wrapper?, Session.start] at hs
  have hwalk : Session.start.Promotes (block.walk functions options).session :=
    Hoist.topLevel_keeps Hoist.promotes_lambda block.stmts (fun _ he => he) { session := .start }
  refine Session.Promotes.keeps ?_ hstart
  refine trans_of Session.Promotes hwalk ?_
  cases hrun : (Hoist.topLevel functions options block.stmts { session := .start }).1 with
  | error e =>
    rw [(session_of_error hrun).1]
    exact Session.promotes_note rfl _
  | ok _ =>
    rw [(session_of_ok hrun).1]
    have hnoted : (block.walk functions options).session.Promotes
        ((block.walk functions options).session.note
          (.hoisted (block.walk functions options).table.size)) := Session.promotes_note rfl _
    refine trans_of Session.Promotes hnoted ?_
    exact Session.promotes_compileDecls _ block.decls (fun d hd => mem_exprs_of_mem_decls hd) _

variable {block functions options}

/-- Anonymous functions of a built block that share a function have one text. -/
theorem text_eq_of_hoisted (hbuilt : block.Built) {text text' : String} {s s' : Signature}
    (hs : (block.walk functions options).table.get? text = some s)
    (hs' : (block.walk functions options).table.get? text' = some s') (hname : s.name = s'.name) :
    text = text' := by
  obtain ⟨met, hmet, hhoisted⟩ := block.hoisted_walk functions options
  rcases hhoisted.apart hs hs' hname with htext | hidentity
  · exact htext
  -- The bare placeholder in braces has one text only, as it was built.
  · have hbraces {text : String} {s : Signature}
        (hs : (block.walk functions options).table.get? text = some s) (hidentity : s.name = identityName) :
        text = Expr.lambdaText Expr.placeholderText := by
      obtain ⟨l, hl, hbecomes⟩ := hhoisted.first hs
      have htext : l.text = text := by simpa using List.find?_some hl
      have hplaceholder := hbecomes.isPlaceholder_of_name hidentity
      obtain ⟨body, ltext, span⟩ := l
      have hexpr : (Expr.lambda body ltext span).Built :=
        hbuilt.of_mem (hmet _ (List.mem_of_find?_eq_some hl))
      rw [← htext]
      cases hexpr with
      | lambda =>
        cases body with
        | placeholder => rfl
        | _ => cases hplaceholder
    rw [hbraces hs hidentity, hbraces hs' (hname ▸ hidentity)]

end Block

/-! ## What is shared -/

/-- Whether a compilation promoted a constant of this text to the wrapper of this name. -/
def Compilation.Promoted (c : Compilation) (name text : String) : Prop :=
  ∃ event ∈ c.journal, event.promotion? = some (name, text)

/-- Texts determine built expressions that are plain.  So anonymous functions that share a function are
alike, and so are constants that share a wrapper.  Which wrapper is pushed for a constant is in the
journal before it is pushed. -/
theorem deduplication_merges_equal :
    (∀ e e' : Expr, e.Built → e'.Built → e.Plain → e'.Plain → e.text = e'.text → e.Alike e') ∧
      (∀ (ctx : CodeContext) (e : Expr) (params : List Ty) (result : Ty) (value : Gen Ty)
          (w w' : Workbench), Gen.promote ctx e params result value w = (.ok (), w') →
        ∃ s w₁, w₁.session.Promoted s.name e.text ∧ Gen.bindFunction s w₁ = (.ok (), w')) ∧
      ∀ (block : Block) (functions : FunctionTable) (options : Options), block.Built → block.Plain →
        (∀ l l' : LambdaLiteral, l.expr ∈ block.exprs → l'.expr ∈ block.exprs → ∀ s s',
          (block.walk functions options).table.get? l.text = some s →
          (block.walk functions options).table.get? l'.text = some s' →
          s.name = s'.name → l.expr.Alike l'.expr) ∧
        ∀ e e', e ∈ block.exprs → e' ∈ block.exprs → ∀ name,
          (compileBlock functions options block).Promoted name e.text →
          (compileBlock functions options block).Promoted name e'.text → e.Alike e' := by
  refine ⟨fun e e' he he' hplain hplain' htext => he.alike_of_text_eq hplain he' hplain' htext,
    fun _ _ _ _ _ _ _ => Gen.promoted_pushed, fun block functions options hbuilt hplain => ⟨?_, ?_⟩⟩
  · intro l l' hl hl' s s' hs hs' hname
    have htext : l.expr.text = l'.expr.text := Block.text_eq_of_hoisted hbuilt hs hs' hname
    exact Block.alike_of_text_eq hbuilt hplain hl hl' htext
  · intro e e' he he' name hpromoted hpromoted'
    unfold Compilation.Promoted at hpromoted hpromoted'
    rw [Block.journal_compileBlock] at hpromoted hpromoted'
    have htext := (block.promotions_session functions options).apart hpromoted hpromoted'
    exact Block.alike_of_text_eq hbuilt hplain he he' htext

/-- The call of `f` on two strings. -/
def stringsCall (first second : String) : Expr :=
  let b : Builder := {}
  b.call "f" [b.literal (.string first), b.literal (.string second)]

theorem built_stringsCall (first second : String) : (stringsCall first second).Built := by
  refine .call {} (by decide +kernel) fun e he => ?_
  simp only [List.mem_cons, List.not_mem_nil, or_false] at he
  rcases he with rfl | rfl
  exacts [.literal {} _, .literal {} _]

/-- Another expression than the variable that is written as a reserved name. -/
def reservedExpr (name : String) : Expr :=
  let b : Builder := {}
  match name with
  | "_" => b.placeholder
  | "true" => b.literal (.bool true)
  | "false" => b.literal (.bool false)
  | "inf" => b.literal (.real ⟨0x7FF0000000000000⟩)
  | _ => b.literal (.real .nan)

/-- Without `Expr.Plain` texts do not determine expressions: a quote within a string can move the border
between two arguments, and each reserved name is the text of another expression than the variable. -/
theorem text_ambiguous :
    ((stringsCall "a\",\"b" "c").Built ∧ (stringsCall "a" "b\",\"c").Built ∧
      (stringsCall "a\",\"b" "c").text = (stringsCall "a" "b\",\"c").text ∧
      ¬(stringsCall "a\",\"b" "c").Alike (stringsCall "a" "b\",\"c")) ∧
    ∀ name ∈ Expr.reservedNames, (Builder.var {} name).Built ∧ (reservedExpr name).Built ∧
      (Builder.var {} name).text = (reservedExpr name).text ∧
      ¬(Builder.var {} name).Alike (reservedExpr name) := by
  refine ⟨⟨built_stringsCall _ _, built_stringsCall _ _, by decide +kernel, ?_⟩, fun name hname => ?_⟩
  · intro halike
    simp [Expr.Alike, stringsCall, Builder.call, Builder.literal, Expr.ofCall, Expr.ofLiteral,
      Expr.eraseSpans, Expr.eraseSpansAll, Expr.identifyNaNs, Expr.identifyNaNsAll,
      Literal.identifyNaN] at halike
  · simp only [Expr.reservedNames, List.mem_cons, List.not_mem_nil, or_false] at hname
    rcases hname with rfl | rfl | rfl | rfl | rfl
    · exact ⟨.var {} (by decide +kernel), .placeholder {}, rfl, fun h => by cases h⟩
    all_goals exact ⟨.var {} (by decide +kernel), .literal {} _, by decide +kernel, fun h => by cases h⟩

/-- A function with two anonymous functions and two constants in it, each written on two lines. -/
def repeatedBlock : Block :=
  let b : Builder := {}
  b.block [b.function "f" [b.ret (b.call "k"
    [b.lambda b.placeholder, b.literal (.int 5),
      (b.atLine 2).lambda (b.atLine 2).placeholder, (b.atLine 2).literal (.int 5)])]]

/-- The functions that `repeatedBlock` refers to. -/
def repeatedFunctions : FunctionTable :=
  .ofList [⟨"f", [], .int, "Main", false⟩,
    ⟨"k", [⟨"a", .fn [.real] .real⟩, ⟨"b", .fn [.real] .int⟩, ⟨"c", .fn [.real] .real⟩,
      ⟨"d", .fn [.real] .int⟩], .int, "Main", false⟩]

theorem built_repeatedBlock : repeatedBlock.Built := by
  intro s hs
  obtain rfl := List.mem_singleton.1 hs
  refine .function {} (by decide +kernel) fun s hs => ?_
  obtain rfl := List.mem_singleton.1 hs
  refine .ret {} (.call {} (by decide +kernel) fun e he => ?_)
  simp only [List.mem_cons, List.not_mem_nil, or_false] at he
  rcases he with rfl | rfl | rfl | rfl
  exacts [.lambda {} (.placeholder {}), .literal {} _,
    .lambda ⟨2⟩ (.placeholder ⟨2⟩), .literal ⟨2⟩ _]

/-- A string with a harmless quote in it is known by its text.  The anonymous functions of `repeatedBlock`
share a function, and its constants a wrapper.  The promotion of a `2` is reported and then its wrapper
pushed. -/
theorem deduplication_merges_equal_repeatedBlock :
    ((Builder.mk 1).literal (.string "a\"b")).Alike ((Builder.mk 2).literal (.string "a\"b")) ∧
      (∃ s, (repeatedBlock.walk repeatedFunctions {}).table.get? "{_}" = some s) ∧
      (compileBlock repeatedFunctions {} repeatedBlock).Promoted "_lambda_1$constant" "5" ∧
      (∃ s w₁, w₁.session.Promoted s.name "2" ∧ Gen.bindFunction s w₁ = (.ok (), constantRun.2)) ∧
      ((Builder.mk 1).lambda (Builder.mk 1).placeholder).Alike
        ((Builder.mk 2).lambda (Builder.mk 2).placeholder) ∧
      ((Builder.mk 1).literal (.int 5)).Alike ((Builder.mk 2).literal (.int 5)) := by
  have hplain : repeatedBlock.Plain := by decide +kernel
  have hhoisted : ((repeatedBlock.walk repeatedFunctions {}).table.get? "{_}").isSome = true := by
    decide +kernel
  obtain ⟨s, hs⟩ := Option.isSome_iff_exists.1 hhoisted
  have hpromoted : (compileBlock repeatedFunctions {} repeatedBlock).Promoted "_lambda_1$constant" "5" := by
    have hany : ((compileBlock repeatedFunctions {} repeatedBlock).journal.any
        fun event => event.promotion? == some ("_lambda_1$constant", "5")) = true := by
      decide +kernel
    obtain ⟨event, hmem, hevent⟩ := Array.any_eq_true'.1 hany
    exact ⟨event, hmem, beq_iff_eq.1 hevent⟩
  obtain ⟨htexts, hpushed, hshared⟩ := deduplication_merges_equal
  obtain ⟨hlambdas, hconstants⟩ := hshared repeatedBlock repeatedFunctions {} built_repeatedBlock hplain
  refine ⟨?_, ⟨s, hs⟩, hpromoted, hpushed _ _ _ _ _ _ _ constantRun_eq_ok, ?_, ?_⟩
  · exact htexts _ _ (.literal _ _) (.literal _ _) (by decide +kernel) (by decide +kernel) rfl
  · exact hlambdas ⟨_, _, _⟩ ⟨_, _, _⟩ (.tail _ (.head _))
      (.tail _ (.tail _ (.tail _ (.tail _ (.head _))))) s s hs hs rfl
  · exact hconstants _ _ (.tail _ (.tail _ (.tail _ (.head _))))
      (.tail _ (.tail _ (.tail _ (.tail _ (.tail _ (.tail _ (.head _))))))) _ hpromoted hpromoted

end BlockCompiler
