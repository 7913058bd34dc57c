import BlockCompiler.Proofs.ConstantGate

/-!
# What a failed body leaves behind

While the body of a function is compiled, other functions are registered, compiled and finished, and
some of them fail.  When the body fails itself, its registration is taken back, wherever in the list it
stands by then.  This file says that nothing unfinished stays: what a failed body leaves behind its
predecessors are wrappers that were finished, and constants.

* `Session.Leaves new S S'` says what the code of a body did to the session: `new` was appended to the
  entries, and consists of finished wrappers of new names; whatever was remembered meanwhile is among
  them; and the constants were appended to.
* `Session.Leaves.failed` and `Session.Leaves.finished` are the two ends of a registration around such
  a body.  The pending entry is in the middle of the list by then, and its name tells it apart.
* `Gen.stable_leaves` carries this through expressions, and `Session.failed_body_leaves` says it of a
  function whose body failed, at any depth and in any session.
-/

namespace BlockCompiler

/-! ## The list of entries -/

namespace Registry

theorem not_mem_names_declared {r r' : Registry} {s : Signature} {flags : EntryFlags} {span : Span}
    (h : r.declare s flags span = .ok r') : s.name ∉ r.names :=
  not_mem_names_of_get? (get?_of_declare_self h)

theorem get?_of_append {r r' : Registry} {new : List Entry} (h : r'.entries = r.entries ++ new)
    (name : String) : r'.get? name = (r.get? name).or (new.find? (·.name = name)) := by
  rw [get?, h, List.find?_append]
  rfl

/-- Finished entries of new names, appended to the list, are growth. -/
theorem growsTo_of_append {r r' : Registry} {new : List Entry} (h : r'.entries = r.entries ++ new)
    (hdefined : ∀ e ∈ new, e.isDefined = true) : r.GrowsTo r' := by
  constructor
  · intro name e he
    rw [get?_of_append h, he]
    rfl
  · intro name e he hcode
    rw [get?_of_append h, Option.or_eq_some_iff] at he
    rcases he with he | ⟨-, he⟩
    · exact he
    · have := hdefined e (List.mem_of_find?_eq_some he)
      simp [Entry.isDefined, hcode] at this

/-- Entries of other names are not touched when an entry gets its code. -/
theorem map_attach_eq_self {es : List Entry} {name : String} {code : Chunk}
    (h : ∀ e ∈ es, e.name ≠ name) : es.map (attach name code) = es :=
  (List.map_congr_left fun e he => attach_of_ne (h e he)).trans (List.map_id _)

end Registry

/-! ## What the code of a body leaves -/

/-- From `S` to `S'` the entries `new` were appended, which are finished wrappers of new names, and
whatever was remembered meanwhile is among them. -/
structure Session.Leaves (new : List Entry) (S S' : Session) : Prop where
  entries : S'.registry.entries = S.registry.entries ++ new
  names : ∀ e ∈ new, e.name ∉ S.registry.names
  wrappers : ∀ e ∈ new, e.IsWrapper ∧ e.isDefined = true
  remembered : ∀ {key s}, S'.wrapper? key = some s →
    S.wrapper? key = some s ∨ ∃ e ∈ new, e.signature = s
  pool : S.pool.constants.toList <+: S'.pool.constants.toList

namespace Session

variable {S S' S'' : Session} {new new' : List Entry}

theorem Leaves.growsTo (h : S.Leaves new S') : S.registry.GrowsTo S'.registry :=
  Registry.growsTo_of_append h.entries fun e he => (h.wrappers e he).2

/-- Neither the journal nor the counter matters. -/
theorem leaves_of_eq (hregistry : S'.registry = S.registry) (hwrappers : S'.wrappers = S.wrappers)
    (hpool : S'.pool = S.pool) : S.Leaves [] S' := by
  refine ⟨by rw [hregistry, List.append_nil], (fun _ he => nomatch he), (fun _ he => nomatch he),
    fun hs => .inl ?_, hpool ▸ List.prefix_refl _⟩
  rwa [wrapper?, hwrappers] at hs

theorem Leaves.refl (S : Session) : S.Leaves [] S := leaves_of_eq rfl rfl rfl

theorem Leaves.trans (h : S.Leaves new S') (h' : S'.Leaves new' S'') :
    S.Leaves (new ++ new') S'' := by
  refine ⟨?_, fun e he => ?_, fun e he => ?_, fun hs => ?_, h.pool.trans h'.pool⟩
  · rw [h'.entries, h.entries, List.append_assoc]
  · rcases List.mem_append.1 he with he | he
    · exact h.names e he
    · intro hmem
      refine h'.names e he ?_
      rw [Registry.names, h.entries, List.map_append]
      exact List.mem_append_left _ hmem
  · rcases List.mem_append.1 he with he | he
    · exact h.wrappers e he
    · exact h'.wrappers e he
  · rcases h'.remembered hs with hs | ⟨e, he, hsig⟩
    · rcases h.remembered hs with hs | ⟨e, he, hsig⟩
      · exact .inl hs
      · exact .inr ⟨e, List.mem_append_left _ he, hsig⟩
    · exact .inr ⟨e, List.mem_append_right _ he, hsig⟩

/-- Adding a constant changes the end of the pool only. -/
theorem leaves_intern (S : Session) (c : Constant) :
    S.Leaves [] { S with pool := (S.pool.add c).1 } := by
  refine ⟨by simp, (fun _ he => nomatch he), (fun _ he => nomatch he), .inl, ?_⟩
  cases hfind : S.pool.find? c with
  | some i => simp [Pool.add_of_find? hfind]
  | none => simp [Pool.add_of_not_find? hfind, Pool.push]

/-! ## The two ends of a registration -/

section Registration

variable {s : Signature} {flags : EntryFlags} {site : Span} {r : Registry}
  (hdecl : S.registry.declare s flags site = .ok r)
  (hbody : Leaves new ({ S with registry := r }.note (.declared s)) S')

include hdecl hbody

/-- Behind the old entries there is the pending one, and then what its body left. -/
theorem Leaves.entries_declared :
    S'.registry.entries = S.registry.entries ++ .ofSignature s flags :: new := by
  have hr : r.entries = S.registry.entries ++ [.ofSignature s flags] := by
    rw [(Registry.declare_eq_ok hdecl).2]
  calc
    S'.registry.entries = r.entries ++ new := hbody.entries
    _ = S.registry.entries ++ .ofSignature s flags :: new := by simp [hr]

theorem Leaves.names_declared {e : Entry} (he : e ∈ new) :
    e.name ∉ S.registry.names ∧ e.name ≠ s.name := by
  have hnew : e.name ∉ Registry.names r := hbody.names e he
  rw [(Registry.declare_eq_ok hdecl).2] at hnew
  simp only [Registry.names, List.map_append, List.mem_append, not_or] at hnew
  exact ⟨hnew.1, by simpa [Entry.name] using hnew.2⟩

/-- The old entries, and those that a body left, are of other names than the pending one. -/
theorem Leaves.name_ne {e : Entry} (he : e ∈ S.registry.entries ∨ e ∈ new) : e.name ≠ s.name := by
  rcases he with he | he
  · rintro hname
    exact Registry.not_mem_names_declared hdecl (hname ▸ List.mem_map_of_mem he)
  · exact (hbody.names_declared hdecl he).2

theorem Leaves.pending : S'.registry.get? s.name = some (.ofSignature s flags) :=
  Registry.get?_declared hdecl hbody.growsTo

/-- When a body fails, what it left stays, and the registration before it is gone. -/
theorem Leaves.failed (event : Event) :
    S.Leaves new { S'.note event with registry := S'.registry.abandon s.name } := by
  refine ⟨?_, fun e he => (hbody.names_declared hdecl he).1, hbody.wrappers, hbody.remembered, hbody.pool⟩
  have hkept {es : List Entry} (h : ∀ e ∈ es, e ∈ S.registry.entries ∨ e ∈ new) :
      es.filter (·.name ≠ s.name) = es :=
    List.filter_eq_self.2 fun e he => by simpa using hbody.name_ne hdecl (h e he)
  calc
    (S'.registry.abandon s.name).entries
        = (S.registry.entries ++ .ofSignature s flags :: new).filter (·.name ≠ s.name) := by
      rw [Registry.abandon_of_get? (hbody.pending hdecl) rfl, hbody.entries_declared hdecl]
    _ = S.registry.entries ++ new := by
      rw [List.filter_append, List.filter_cons_of_neg (by simp [Entry.name]),
        hkept fun _ => .inl, hkept fun _ => .inr]

/-- When a body succeeds, the entry before what it left gets its code. -/
theorem Leaves.finished (hwrapper : ∀ code, Entry.IsWrapper (.ofSignature s flags (some code)))
    {code : Chunk} {r' : Registry} (hdef : S'.registry.define s.name code site = .ok r') {event : Event} :
    S.Leaves (.ofSignature s flags (some code) :: new) ({ S' with registry := r' }.note event) := by
  refine ⟨?_, fun e he => ?_, fun e he => ?_, fun hs => ?_, hbody.pool⟩
  · have hkept {es : List Entry} (h : ∀ e ∈ es, e ∈ S.registry.entries ∨ e ∈ new) :
        es.map (Registry.attach s.name code) = es :=
      Registry.map_attach_eq_self fun e he => hbody.name_ne hdecl (h e he)
    show r'.entries = _
    rw [Registry.define_eq_ok hdef, hbody.entries_declared hdecl, List.map_append, List.map_cons,
      Registry.attach_ofSignature, hkept fun _ => .inl, hkept fun _ => .inr]
  · rcases List.mem_cons.1 he with rfl | he
    · exact Registry.not_mem_names_declared hdecl
    · exact (hbody.names_declared hdecl he).1
  · rcases List.mem_cons.1 he with rfl | he
    · exact ⟨hwrapper code, rfl⟩
    · exact hbody.wrappers e he
  · rcases hbody.remembered hs with hs | ⟨e, he, hsig⟩
    · exact .inl hs
    · exact .inr ⟨e, List.mem_cons_of_mem _ he, hsig⟩

end Registration

/-- A wrapper may be remembered if it is among what was left. -/
theorem Leaves.rememberWrapper (h : S.Leaves new S') {e : Entry} (he : e ∈ new) (key : String) :
    S.Leaves new (S'.rememberWrapper key e.signature) := by
  refine ⟨h.entries, h.names, h.wrappers, fun {key' s} hs => ?_, h.pool⟩
  rw [wrapper?_rememberWrapper] at hs
  split at hs
  · exact .inr ⟨e, he, Option.some.inj hs⟩
  · exact h.remembered hs

/-! ## Functions -/

/-- From `S` to `S'` only finished wrappers were added. -/
def Tidies (S S' : Session) : Prop := ∃ new, S.Leaves new S'

instance : IsPreorder Session Tidies where
  refl S := ⟨[], .refl S⟩
  trans _ _ _ := fun ⟨_, h⟩ ⟨_, h'⟩ => ⟨_, h.trans h'⟩

section CompileWith

variable {s : Signature} {flags : EntryFlags} {site : Span} {depth : Nat} {body : Gen Unit}
  (hbody : Gen.KeepsSession Tidies body)

include hbody

theorem growsTo_of_tidies (w : Workbench) : w.session.registry.GrowsTo (body w).2.session.registry :=
  (hbody w).elim fun _ h => h.growsTo

/-- A function that fails leaves what its body left, or nothing if its name was taken. -/
theorem compileWith_failed {e : CompileError}
    (hrun : compileWith s flags site depth body S = (.error e, S')) :
    (∃ err, S.registry.declare s flags site = .error err ∧ S' = S) ∨
      (∃ r, S.registry.declare s flags site = .ok r) ∧ ∃ new, S.Leaves new S' := by
  cases functionRun (growsTo_of_tidies hbody) hrun with
  | taken hdecl => exact .inl ⟨e, hdecl, rfl⟩
  | failed hdecl heq _ =>
    obtain ⟨new, hnew⟩ := hbody.of_run heq
    exact .inr ⟨⟨_, hdecl⟩, new, hnew.failed hdecl _⟩

/-- A wrapper that gets its code is among what its compilation leaves. -/
theorem compileWith_wrapped (hwrapper : ∀ code, Entry.IsWrapper (.ofSignature s flags (some code)))
    (hrun : compileWith s flags site depth body S = (.ok (), S')) :
    ∃ new, S.Leaves new S' ∧ ∃ e ∈ new, e.signature = s := by
  cases functionRun (growsTo_of_tidies hbody) hrun with
  | finished hdecl heq _ hdef =>
    obtain ⟨new, hnew⟩ := hbody.of_run heq
    exact ⟨_, hnew.finished hdecl hwrapper hdef, _, List.mem_cons_self, rfl⟩

end CompileWith

end Session

/-! ## Expressions -/

namespace Gen

/-- The code of expressions leaves finished wrappers only, whether it succeeds or fails. -/
theorem stable_tidies (ctx : CodeContext) (block : Block) :
    Stable ctx block fun _ => Session.Tidies where
  preorder _ := inferInstance
  mono _ h := h
  intern c _ S := ⟨[], Session.leaves_intern S c⟩
  promote e _ hvalue _ params result _ w := by
    have hcounted : w.session.Leaves [] { w.session with nextId := w.session.nextId + 1 } :=
      Session.leaves_of_eq rfl rfl rfl
    rcases hrun : promote ctx e params result (value ctx e) w with ⟨r, w'⟩
    cases promotion hrun with
    | @reused s _ _ hs hbind =>
      cases hbind
      have hnoted : w.session.Leaves [] (w.session.note (.constantReused s.name e.text)) :=
        Session.leaves_of_eq rfl rfl rfl
      exact ⟨_, hnoted.trans (Session.leaves_intern _ (.bound s.toValue))⟩
    | refused => exact refl_of Session.Tidies w.session
    | failed _ _ _ hcompiled =>
      rcases Session.compileWith_failed hvalue.returnBody hcompiled with ⟨-, -, rfl⟩ | ⟨-, new, hnew⟩
      · exact ⟨_, hcounted⟩
      · exact ⟨_, hcounted.trans hnew⟩
    | @wrapped s S _ _ _ _ hs hcompiled hbind =>
      cases hbind
      have hwrapper (code : Chunk) : Entry.IsWrapper (.ofSignature s .synthetic (some code)) :=
        ⟨rfl, _, by rw [← hs]; rfl⟩
      obtain ⟨new, hnew, entry, hentry, rfl⟩ :=
        Session.compileWith_wrapped hvalue.returnBody hwrapper hcompiled
      have hnoted : S.Leaves [] (S.note (.constantPromoted e.text entry.signature)) :=
        Session.leaves_of_eq rfl rfl rfl
      have hremembered := ((hcounted.trans hnew).trans hnoted).rememberWrapper (by simpa using hentry)
        (wrapperKey (.fn params result) e.text)
      exact ⟨_, hremembered.trans (Session.leaves_intern _ (.bound entry.signature.toValue))⟩

/-- So does the code of a body. -/
theorem tidies_body (ctx : CodeContext) (ss : List Stmt) : KeepsSession Session.Tidies (body ctx ss) :=
  fun w => ((stable_tidies ctx ⟨ss⟩).body (fun _ he => he) w).choose_spec

end Gen

/-- A body that fails leaves only finished work behind.  The old entries stay as they are and in their
order, whether they have code or not; the function itself is not registered; behind the old entries
there are only finished wrappers, and whatever was remembered meanwhile is among them; and the constants
were appended to.  A function whose name is taken leaves nothing at all. -/
theorem failed_body_leaves (ctx : CodeContext) (s : Signature) (flags : EntryFlags) (site : Span)
    (depth : Nat) (ss : List Stmt) {S S' : Session} {e : CompileError}
    (hrun : Session.compileWith s flags site depth (Gen.body ctx ss) S = (.error e, S')) :
    match S.registry.declare s flags site with
    | .error err => e = err ∧ S' = S
    | .ok _ => S'.registry.contains s.name = false ∧ ∃ new,
        S'.registry.entries = S.registry.entries ++ new ∧
        (∀ entry ∈ new, entry.IsWrapper ∧ entry.isDefined = true) ∧
        (∀ key w, S'.wrapper? key = some w →
          S.wrapper? key = some w ∨ ∃ entry ∈ new, entry.signature = w) ∧
        S.pool.constants.toList <+: S'.pool.constants.toList := by
  cases Session.functionRun (Session.growsTo_of_tidies (Gen.tidies_body ctx ss)) hrun with
  | taken hdecl =>
    rw [hdecl]
    exact ⟨rfl, rfl⟩
  | @failed r w _ hdecl hbody hgrows =>
    have hpending := Registry.get?_declared hdecl hgrows
    obtain ⟨new, hnew⟩ := (Gen.tidies_body ctx ss).of_run hbody
    have hleaves := hnew.failed hdecl (.abandoned s.name e)
    rw [hdecl]
    refine ⟨?_, new, hleaves.entries, hleaves.wrappers, fun _ _ => hleaves.remembered, hleaves.pool⟩
    show (w.session.registry.abandon s.name).contains s.name = false
    rw [Registry.contains, Registry.get?_abandon_self hpending rfl]
    rfl

/-- A session in which a function `outer` is being compiled. -/
def outerSession : Session :=
  { registry := ⟨[.ofSignature ⟨"outer", [], .int, "Main", false⟩ .user]⟩ }

/-- The functions that may be called: only `apply`, which takes a function. -/
def applyContext : CodeContext :=
  ⟨.ofList [⟨"apply", [⟨"a", .fn [.real] .int⟩], .int, "Main", false⟩], {}, .empty⟩

/-- A body that calls `apply(5)` and then refers to an unknown name. -/
def lostBody : List Stmt :=
  [.expr (.call ⟨"apply", default⟩ [.literal (.int 5) "5" default] "apply(5)" default),
    .expr (.var ⟨"lost", default⟩)]

/-- The function `f` with that body. -/
def lostSignature : Signature := ⟨"f", [], .int, "Main", false⟩

/-- The compilation of `f` while `outer` is being compiled. -/
def lostRun : Except CompileError Unit × Session :=
  Session.compileWith lostSignature .user default 0 (Gen.body applyContext lostBody) outerSession

/-- What `lostBody` leaves is the wrapper of `5`, behind the pending entry of `outer`. -/
theorem failed_body_leaves_lostBody :
    lostRun.1 = .error ⟨.unknownIdentifier "lost", default⟩ ∧
      lostRun.2.registry.contains "f" = false ∧
      lostRun.2.registry.entries.map Entry.name = ["outer", "_lambda_0$constant"] ∧
      ∃ entry, lostRun.2.registry.entries = outerSession.registry.entries ++ [entry] ∧
        entry.IsWrapper ∧ entry.isDefined = true := by
  have herror : lostRun.1 = .error ⟨.unknownIdentifier "lost", default⟩ := by decide +kernel
  have hnames : lostRun.2.registry.entries.map Entry.name = ["outer", "_lambda_0$constant"] := by
    decide +kernel
  have hdecl : outerSession.registry.declare lostSignature .user default =
      .ok ⟨outerSession.registry.entries ++ [.ofSignature lostSignature .user]⟩ := by
    decide +kernel
  -- The run is named before its parts are compared, so that it is not evaluated again.
  rcases hrun : lostRun with ⟨r, S'⟩
  rw [hrun] at herror hnames
  obtain rfl : r = .error ⟨.unknownIdentifier "lost", default⟩ := herror
  have hleaves := failed_body_leaves applyContext lostSignature .user default 0 lostBody hrun
  rw [hdecl] at hleaves
  obtain ⟨hfree, new, hentries, hnew, -⟩ := hleaves
  refine ⟨rfl, hfree, hnames, ?_⟩
  match new with
  | [entry] => exact ⟨entry, hentries, hnew entry (by simp)⟩
  | [] => simp [hentries, outerSession] at hnames
  | _ :: _ :: _ => simp [hentries, outerSession] at hnames

end BlockCompiler
