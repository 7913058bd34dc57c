import BlockCompiler.Proofs.ConstantGate

/-!
# Numbers of made-up functions

Functions that the compiler makes up have numbers in their names, which a counter of the session hands
out.  So no two of them have one name, and they are registered in the order of their numbers: a function
is registered when it gets its number, and functions made up for its body get higher ones.

* `Ascending` says which lists of numbers the counter hands out between two of its values.
* `Session.Numbers` is what code for expressions does to a session: wrappers are added at the end, and
  their numbers are ascending.  `Gen.stable_numbers` carries it through expressions.
* `Session.compileWith_numbers` is the same for a whole function, which comes before its wrappers.

None of this depends on the texts of expressions.
-/

namespace BlockCompiler

/-! ## Names -/

theorem toString_nat_inj {m n : Nat} (h : toString m = toString n) : m = n := by
  have hdigits : Nat.toDigits 10 m = Nat.toDigits 10 n := by
    rw [← Nat.toList_repr, ← Nat.toList_repr]
    exact congrArg String.toList h
  have hvalue := congrArg (Nat.ofDigitChars 10 · 0) hdigits
  simpa [Nat.ofDigitChars_toDigits] using hvalue

theorem Gen.wrapperName_inj {m n : Nat} (h : wrapperName m = wrapperName n) : m = n := by
  have hnumber := (String.append_left_inj _).1 h
  exact toString_nat_inj ((String.append_right_inj _).1 hnumber)

theorem lambdaName_inj {m n : Nat} (h : lambdaName m = lambdaName n) : m = n :=
  toString_nat_inj ((String.append_right_inj _).1 h)

theorem lambdaName_ne_identityName (id : Nat) : lambdaName id ≠ identityName := by
  intro h
  have hdigits : (toString id).toList = "identity".toList := by
    have hsame : lambdaName id = "_lambda_" ++ "identity" := h
    exact congrArg String.toList ((String.append_right_inj _).1 hsame)
  have hdigit : ('i').isDigit = true := by
    refine Nat.isDigit_of_mem_toDigits (b := 10) (n := id) (by decide) (by decide) ?_
    rw [← Nat.toList_repr, show id.repr = toString id from rfl, hdigits]
    decide
  revert hdigit
  decide

/-! ## Numbers -/

/-- Whether a list of numbers increases, from `lo` on and below `hi`. -/
structure Ascending (lo hi : Nat) (ids : List Nat) : Prop where
  le : lo ≤ hi
  sorted : ids.Pairwise (· < ·)
  bounds : ∀ id ∈ ids, lo ≤ id ∧ id < hi

namespace Ascending

variable {lo mid hi : Nat} {ids ids' : List Nat}

theorem nil (h : lo ≤ hi) : Ascending lo hi [] := ⟨h, .nil, fun _ hid => nomatch hid⟩

theorem append (h : Ascending lo mid ids) (h' : Ascending mid hi ids') :
    Ascending lo hi (ids ++ ids') := by
  refine ⟨h.le.trans h'.le, List.pairwise_append.2 ⟨h.sorted, h'.sorted, fun a ha b hb => ?_⟩,
    fun id hid => ?_⟩
  · have := h.bounds a ha
    have := h'.bounds b hb
    omega
  · have := h.le
    have := h'.le
    rcases List.mem_append.1 hid with hid | hid
    · have := h.bounds id hid
      omega
    · have := h'.bounds id hid
      omega

/-- A number may be left out. -/
theorem of_succ (h : Ascending (lo + 1) hi ids) : Ascending lo hi ids := by
  have := h.le
  refine ⟨by omega, h.sorted, fun id hid => ?_⟩
  have := h.bounds id hid
  omega

/-- A number is followed by those that are handed out after it. -/
theorem cons (h : Ascending (lo + 1) hi ids) : Ascending lo hi (lo :: ids) := by
  have := h.le
  refine ⟨by omega, List.pairwise_cons.2 ⟨fun id hid => ?_, h.sorted⟩, fun id hid => ?_⟩
  · have := h.bounds id hid
    omega
  · rcases List.mem_cons.1 hid with rfl | hid
    · omega
    · have := h.bounds id hid
      omega

end Ascending

/-! ## Names of entries -/

namespace Registry

variable {r r' : Registry} {s : Signature} {name : String}

theorem names_declare {flags : EntryFlags} {span : Span} (h : r.declare s flags span = .ok r') :
    r'.names = r.names ++ [s.name] := by
  obtain ⟨-, rfl⟩ := declare_eq_ok h
  simp [names, Entry.name]

theorem names_define {code : Chunk} {span : Span} (h : r.define name code span = .ok r') :
    r'.names = r.names := by
  rw [define_eq_ok h, names, names, List.map_map]
  exact List.map_congr_left fun e _ => attach_name name code e

/-- Taking a function back leaves the names before its own and those after it. -/
theorem names_abandon {e : Entry} (hget : r.get? name = some e) (hcode : e.code? = none)
    {before after : List String} (hnames : r.names = before ++ name :: after)
    (hnodup : r.names.Nodup) : (r.abandon name).names = before ++ after := by
  have hfilter : (r.abandon name).names = r.names.filter (· ≠ name) := by
    rw [abandon_of_get? hget hcode, names, names, List.filter_map]
    rfl
  rw [hnames, List.nodup_append, List.nodup_cons] at hnodup
  obtain ⟨-, ⟨hafter, -⟩, hbefore⟩ := hnodup
  rw [hfilter, hnames, List.filter_append, List.filter_cons_of_neg (by simp)]
  congr 1
  · refine List.filter_eq_self.2 fun name' hname' => ?_
    simpa using hbefore name' hname' name (by simp)
  · refine List.filter_eq_self.2 fun name' hname' => ?_
    simpa using ne_of_mem_of_not_mem hname' hafter

end Registry

/-! ## Sessions -/

/-- From `S` to `S'` wrappers were added after all other entries, with numbers that were handed out
meanwhile and in the order of these numbers. -/
structure Session.Numbers (S S' : Session) : Prop where
  makesUp : S.MakesUp S'
  wrappers : S.registry.names.Nodup → ∃ ids, Ascending S.nextId S'.nextId ids ∧
    S'.registry.names = S.registry.names ++ ids.map Gen.wrapperName

namespace Session

/-- A session whose entries are the same, and whose counter is no lower. -/
theorem numbers_of_eq {S S' : Session} (hregistry : S'.registry = S.registry)
    (hnext : S.nextId ≤ S'.nextId) : S.Numbers S' := by
  refine ⟨?_, fun _ => ⟨[], .nil hnext, by simp [hregistry]⟩⟩
  rw [MakesUp, hregistry]
  exact .refl _

instance : IsPreorder Session Numbers where
  refl _ := numbers_of_eq rfl (Nat.le_refl _)
  trans S S' S'' h h' := by
    refine ⟨trans_of MakesUp h.makesUp h'.makesUp, fun hnodup => ?_⟩
    obtain ⟨ids, hids, hnames⟩ := h.wrappers hnodup
    obtain ⟨ids', hids', hnames'⟩ := h'.wrappers (h.makesUp.nodup hnodup)
    exact ⟨ids ++ ids', hids.append hids', by rw [hnames', hnames, List.map_append, List.append_assoc]⟩

/-- Compiling a function adds its name and then those of wrappers, or only those if it fails. -/
theorem compileWith_numbers {s : Signature} {flags : EntryFlags} {site : Span} {depth : Nat}
    {body : Gen Unit} (hbody : Gen.KeepsSession Numbers body) {S S' : Session}
    {r : Except CompileError Unit} (hrun : compileWith s flags site depth body S = (r, S'))
    (hnodup : S.registry.names.Nodup) :
    ∃ ids, Ascending S.nextId S'.nextId ids ∧
      ((∃ e, r = .error e ∧ S'.registry.names = S.registry.names ++ ids.map Gen.wrapperName) ∨
        r = .ok () ∧ s.name ∉ S.registry.names ∧
          S'.registry.names = S.registry.names ++ s.name :: ids.map Gen.wrapperName) := by
  cases functionRun (fun w => (hbody w).makesUp.grows) hrun with
  | taken => exact ⟨[], .nil (Nat.le_refl _), .inl ⟨_, rfl, by simp⟩⟩
  | failed hdecl heq hgrows =>
    have hnodup₁ := Registry.nodup_declare hdecl hnodup
    obtain ⟨ids, hids, hnames⟩ := (hbody.of_run heq).wrappers hnodup₁
    refine ⟨ids, hids, .inl ⟨_, rfl, ?_⟩⟩
    refine Registry.names_abandon (Registry.get?_declared hdecl hgrows) rfl ?_
      ((hbody.of_run heq).makesUp.nodup hnodup₁)
    rw [hnames, Session.note, Registry.names_declare hdecl, List.append_assoc]
    rfl
  | finished hdecl heq hgrows hdef =>
    obtain ⟨ids, hids, hnames⟩ :=
      (hbody.of_run heq).wrappers (Registry.nodup_declare hdecl hnodup)
    refine ⟨ids, hids, .inr ⟨rfl, ?_, ?_⟩⟩
    · exact Registry.not_mem_names_of_get? (Registry.get?_of_declare_self hdecl)
    · rw [Session.note, Registry.names_define hdef, hnames, Session.note,
        Registry.names_declare hdecl, List.append_assoc]
      rfl

end Session

namespace Gen

/-- Code for expressions adds wrappers, in the order of their numbers. -/
theorem stable_numbers (ctx : CodeContext) (block : Block) :
    Stable ctx block fun _ => Session.Numbers where
  preorder _ := inferInstance
  mono _ h := h
  intern _ _ _ := Session.numbers_of_eq rfl (Nat.le_refl _)
  promote e he hvalue scope params result htype w := by
    have hmakes : Session.MakesUp w.session (promote ctx e params result (value ctx e) w).2.session :=
      (stable_makesUp ctx block).promote e he (fun w' => (hvalue w').makesUp) params htype w
    rcases hrun : promote ctx e params result (value ctx e) w with ⟨r, w'⟩
    rw [hrun] at hmakes
    cases promotion hrun with
    | reused hs hbind =>
      cases hbind
      exact Session.numbers_of_eq rfl (Nat.le_refl _)
    | refused => exact Session.numbers_of_eq rfl (Nat.le_refl _)
    | failed _ _ hs hcompiled =>
      refine ⟨hmakes, fun hnodup => ?_⟩
      obtain ⟨ids, hids, ⟨err, -, hnames⟩ | ⟨hok, -⟩⟩ :=
        Session.compileWith_numbers hvalue.returnBody hcompiled hnodup
      · exact ⟨ids, hids.of_succ, hnames⟩
      · cases hok
    | wrapped _ _ hs hcompiled hbind =>
      cases hbind
      refine ⟨hmakes, fun hnodup => ?_⟩
      obtain ⟨ids, hids, ⟨err, hok, -⟩ | ⟨-, -, hnames⟩⟩ :=
        Session.compileWith_numbers hvalue.returnBody hcompiled hnodup
      · cases hok
      · rw [← hs] at hnames
        exact ⟨_ :: ids, hids.cons, hnames⟩

end Gen

end BlockCompiler
