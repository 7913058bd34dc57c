import BlockCompiler.Proofs.ShortestDecimal
import BlockCompiler.Proofs.SourceText

/-!
# Texts that determine expressions

A text made by a `Builder` determines the expression that it is the text of, except for spans and for
which pattern that is no number was written.  Two things are in the way in general: the characters of a
string stand in its text as they are, so that a quote among them may look like the end of the string, and
a variable may have a name that is also the text of something else.  `Expr.Plain` excludes both, and
nothing more.

The proof reads a text from the left.  `TextKind.ofText` tells from the text what kind of expression it
begins with, as a reader would, and `ofText_text` that it is right.  So two expressions with texts of
which one continues the other are of one kind, and `Expr.Built.readable` goes through the kinds
by induction.
-/

namespace BlockCompiler

/-! ## Built expressions -/

/-- A letter: any character beyond the basic ones counts as one. -/
def IsLetter (c : Char) : Prop := c.isAlpha = true ∨ 128 ≤ c.toNat

/-- A letter or an underscore, followed by letters, digits and underscores. -/
def IsIdentifier (name : String) : Prop :=
  ∃ first rest, name.toList = first :: rest ∧ (first = '_' ∨ IsLetter first) ∧
    ∀ c ∈ rest, c = '_' ∨ IsLetter c ∨ c.isDigit = true

instance (c : Char) : Decidable (IsLetter c) :=
  inferInstanceAs (Decidable (c.isAlpha = true ∨ 128 ≤ c.toNat))

theorem isIdentifier_iff {name : String} {first : Char} {rest : List Char}
    (h : name.toList = first :: rest) : IsIdentifier name ↔
      (first = '_' ∨ IsLetter first) ∧ ∀ c ∈ rest, c = '_' ∨ IsLetter c ∨ c.isDigit = true := by
  constructor
  · rintro ⟨first', rest', hname, hfirst, hrest⟩
    obtain ⟨rfl, rfl⟩ := List.cons.inj (h.symm.trans hname)
    exact ⟨hfirst, hrest⟩
  · rintro ⟨hfirst, hrest⟩
    exact ⟨first, rest, h, hfirst, hrest⟩

instance (name : String) : Decidable (IsIdentifier name) :=
  match h : name.toList with
  | [] => isFalse fun ⟨_, _, hname, _⟩ => List.cons_ne_nil _ _ (hname.symm.trans h)
  | _ :: rest =>
    have := List.decidableBAll (fun c => c = '_' ∨ IsLetter c ∨ c.isDigit = true) rest
    decidable_of_iff _ (isIdentifier_iff h).symm

/-- An expression that was built, from identifiers. -/
inductive Expr.Built : Expr → Prop where
  | literal (b : Builder) (value : Literal) : Built (b.literal value)
  | var (b : Builder) {name : String} (hname : IsIdentifier name) : Built (b.var name)
  | placeholder (b : Builder) : Built b.placeholder
  | pair (b : Builder) {first second : Expr} (hfirst : Built first) (hsecond : Built second) :
    Built (b.pair first second)
  | lambda (b : Builder) {body : Expr} (hbody : Built body) : Built (b.lambda body)
  | call (b : Builder) {name : String} {args : List Expr} (hname : IsIdentifier name)
    (hargs : ∀ e ∈ args, Built e) : Built (b.call name args)

/-! ## Alike expressions -/

/-- All patterns that are no number as one. -/
def Binary64.identifyNaN (x : Binary64) : Binary64 := if x.isNaN then .nan else x

/-- A literal with all patterns that are no number as one. -/
def Literal.identifyNaN : Literal → Literal
  | real x => real x.identifyNaN
  | value => value

namespace Expr

mutual

/-- An expression with all patterns that are no number as one. -/
def identifyNaNs : Expr → Expr
  | literal value text span => literal value.identifyNaN text span
  | pair first second text span => pair (identifyNaNs first) (identifyNaNs second) text span
  | var name => var name
  | placeholder span => placeholder span
  | lambda body text span => lambda (identifyNaNs body) text span
  | call callee args text span => call callee (identifyNaNsAll args) text span
termination_by structural e => e

/-- The expressions of a list with all patterns that are no number as one. -/
def identifyNaNsAll : List Expr → List Expr
  | [] => []
  | e :: es => identifyNaNs e :: identifyNaNsAll es
termination_by structural es => es

end

@[simp] theorem text_identifyNaNs (e : Expr) : e.identifyNaNs.text = e.text := by
  cases e <;> rfl

/-- Equal up to spans and up to which pattern that is no number was written. -/
def Alike (e e' : Expr) : Prop := e.eraseSpans.identifyNaNs = e'.eraseSpans.identifyNaNs

theorem Alike.text_eq {e e' : Expr} (h : Alike e e') : e.text = e'.text := by
  have htext := congrArg text h
  simpa using htext

theorem Alike.pair {first second first' second' : Expr} (h : Alike first first')
    (h' : Alike second second') (b b' : Builder) :
    Alike (b.pair first second) (b'.pair first' second') := by
  unfold Alike Builder.pair ofPair
  simp only [eraseSpans, identifyNaNs]
  rw [h, h', h.text_eq, h'.text_eq]

theorem Alike.lambda {body body' : Expr} (h : Alike body body') (b b' : Builder) :
    Alike (b.lambda body) (b'.lambda body') := by
  unfold Alike Builder.lambda ofLambda
  simp only [eraseSpans, identifyNaNs]
  rw [h, h.text_eq]

theorem Alike.call {args args' : List Expr} (h : List.Forall₂ Alike args args') (name : String)
    (b b' : Builder) : Alike (b.call name args) (b'.call name args') := by
  have htexts : args.map text = args'.map text := by
    induction h with
    | nil => rfl
    | cons h _ ih => rw [List.map_cons, List.map_cons, h.text_eq, ih]
  have hall : identifyNaNsAll (eraseSpansAll args) = identifyNaNsAll (eraseSpansAll args') := by
    induction h with
    | nil => rfl
    | cons h hs ih =>
      rw [List.map_cons, List.map_cons, List.cons.injEq] at htexts
      rw [eraseSpansAll, eraseSpansAll, identifyNaNsAll, identifyNaNsAll, h, ih htexts.2]
  unfold Alike Builder.call ofCall
  simp only [eraseSpans, identifyNaNs]
  rw [hall, htexts]
  rfl

/-! ## Plain expressions -/

/-- The names that are texts of something else than a variable. -/
def reservedNames : List String := ["_", "true", "false", "inf", "NaN"]

/-- The characters that may follow an expression within a text. -/
def terminators : List Char := [',', ')', '\x7d']

/-- Whether no quote in a string looks like the end of it. -/
def EndsOnce (value : List Char) : Prop := ∀ c ∈ terminators, ¬['\x22', c] <:+: value

instance (value : List Char) : Decidable (EndsOnce value) :=
  have (c : Char) := List.instDecidableIsInfixOfDecidableEq ['\x22', c] value
  List.decidableBAll (fun c => ¬['\x22', c] <:+: value) terminators

/-- Whether an expression, apart from its parts, has a text of its own. -/
def HasOwnText : Expr → Prop
  | var name => name.name ∉ reservedNames
  | literal (.string value) _ _ => EndsOnce value.toList
  | _ => True

instance : DecidablePred HasOwnText
  | var name => inferInstanceAs (Decidable (name.name ∉ reservedNames))
  | literal (.string value) _ _ => inferInstanceAs (Decidable (EndsOnce value.toList))
  | literal (.int _) _ _ | literal (.real _) _ _ | literal (.bool _) _ _ | literal .unit _ _
  | pair _ _ _ _ | placeholder _ | lambda _ _ _ | call _ _ _ _ => isTrue trivial

/-- No string in the expression has a quote in it that looks like its end, and no variable a reserved
name. -/
def Plain (e : Expr) : Prop := ∀ e' ∈ e.subexprs, e'.HasOwnText

instance (e : Expr) : Decidable e.Plain :=
  inferInstanceAs (Decidable (∀ e' ∈ e.subexprs, e'.HasOwnText))

namespace Plain

theorem self {e : Expr} (h : e.Plain) : e.HasOwnText := h e e.mem_subexprs_self

theorem of_mem {e e' : Expr} (h : e.Plain) (he : e' ∈ e.subexprs) : e'.Plain :=
  fun _ he' => h _ (mem_subexprs_trans he' he)

variable {b : Builder}

theorem first {first second : Expr} (h : (b.pair first second).Plain) : first.Plain :=
  h.of_mem (by simp [Builder.pair, ofPair, subexprs, mem_subexprs_self])

theorem second {first second : Expr} (h : (b.pair first second).Plain) : second.Plain :=
  h.of_mem (by simp [Builder.pair, ofPair, subexprs, mem_subexprs_self])

theorem body {body : Expr} (h : (b.lambda body).Plain) : body.Plain :=
  h.of_mem (by simp [Builder.lambda, ofLambda, subexprs, mem_subexprs_self])

theorem arg {name : String} {args : List Expr} (h : (b.call name args).Plain) {e : Expr}
    (he : e ∈ args) : e.Plain := by
  refine h.of_mem ?_
  rw [Builder.call, ofCall, subexprs, List.mem_cons, mem_subexprsAll]
  exact .inr ⟨e, he, e.mem_subexprs_self⟩

end Plain

end Expr

/-! ## Words -/

/-- The characters that end a word. -/
def delimiters : List Char := ['(', ')', ',', '\x7b', '\x7d', '\x22']

/-- Characters without a delimiter among them, and not none. -/
structure IsWord (w : List Char) : Prop where
  ne_nil : w ≠ []
  disjoint : ∀ c ∈ w, c ∉ delimiters

instance (w : List Char) : Decidable (IsWord w) :=
  have := List.decidableBAll (· ∉ delimiters) w
  decidable_of_iff (w ≠ [] ∧ ∀ c ∈ w, c ∉ delimiters) ⟨fun h => ⟨h.1, h.2⟩, fun h => ⟨h.1, h.2⟩⟩

/-- What may follow an expression within a text, after which the text goes on. -/
inductive Stops : List Char → Prop where
  | nil : Stops []
  | comma (cs : List Char) : Stops (',' :: cs)
  | paren (cs : List Char) : Stops (')' :: cs)
  | brace (cs : List Char) : Stops ('\x7d' :: cs)

/-- What follows a word begins with a delimiter, if with anything. -/
def EndsWord (r : List Char) : Prop := ∀ c ∈ r.head?, c ∈ delimiters

theorem Stops.endsWord {r : List Char} (h : Stops r) : EndsWord r := by
  cases h <;> simp [EndsWord, delimiters]

theorem Stops.head_mem {c : Char} {cs : List Char} (h : Stops (c :: cs)) : c ∈ Expr.terminators := by
  cases h <;> decide

theorem endsWord_paren (cs : List Char) : EndsWord ('(' :: cs) := by
  simp [EndsWord, delimiters]

/-- A string does not go on after a quote that could be its end. -/
theorem eq_nil_of_endsOnce {s a r r' : List Char} (hr : Stops r) (hs : Expr.EndsOnce (s ++ a))
    (h : '\x22' :: r = a ++ '\x22' :: r') : a = [] := by
  rcases a with _ | ⟨c, _ | ⟨c', a⟩⟩
  · rfl
  · -- The quote at the end of the string does not stop it.
    obtain rfl := (List.cons.inj h).2
    exact absurd hr.head_mem (by decide)
  · obtain ⟨rfl, rfl⟩ := List.cons.inj h
    exact absurd ⟨s, a, by simp⟩ (hs c' hr.head_mem)

/-- A string ends where it ends. -/
theorem eq_of_endsOnce {s s' r r' : List Char} (hs : Expr.EndsOnce s) (hr : Stops r)
    (hs' : Expr.EndsOnce s') (hr' : Stops r') (h : s ++ '\x22' :: r = s' ++ '\x22' :: r') :
    s = s' ∧ r = r' := by
  have hsame : s = s' := by
    rcases List.append_eq_append_iff.1 h with ⟨a, rfl, ha⟩ | ⟨a, rfl, ha⟩
    · rw [eq_nil_of_endsOnce hr hs' ha, List.append_nil]
    · rw [eq_nil_of_endsOnce hr' hs ha, List.append_nil]
  rw [hsame] at h
  exact ⟨hsame, (List.cons.inj (List.append_cancel_left h)).2⟩

namespace IsWord

variable {w w' r r' : List Char}

theorem takeWhile_append (hw : IsWord w) (hr : EndsWord r) :
    (w ++ r).takeWhile (· ∉ delimiters) = w := by
  have hself : w.takeWhile (· ∉ delimiters) = w :=
    List.takeWhile_eq_self_iff.2 fun c hc => decide_eq_true (hw.disjoint c hc)
  rw [List.takeWhile_append, hself, if_pos rfl]
  cases r with
  | nil => simp
  | cons c cs =>
    rw [List.takeWhile_cons, if_neg (by simpa using hr c (by simp)), List.append_nil]

theorem dropWhile_append (hw : IsWord w) (hr : EndsWord r) :
    (w ++ r).dropWhile (· ∉ delimiters) = r := by
  have hself : w.dropWhile (· ∉ delimiters) = [] :=
    List.dropWhile_eq_nil_iff.2 fun c hc => decide_eq_true (hw.disjoint c hc)
  rw [List.dropWhile_append, hself]
  cases r with
  | nil => rfl
  | cons c cs =>
    have hc : ¬decide (c ∉ delimiters) = true := by simpa using hr c (by simp)
    exact List.dropWhile_cons_of_neg (p := fun c => decide (c ∉ delimiters)) hc

/-- A word ends where it ends. -/
theorem eq_of_append_eq (hw : IsWord w) (hr : EndsWord r) (hw' : IsWord w') (hr' : EndsWord r')
    (h : w ++ r = w' ++ r') : w = w' ∧ r = r' := by
  have htake := congrArg (List.takeWhile (· ∉ delimiters)) h
  have hdrop := congrArg (List.dropWhile (· ∉ delimiters)) h
  rw [hw.takeWhile_append hr, hw'.takeWhile_append hr'] at htake
  rw [hw.dropWhile_append hr, hw'.dropWhile_append hr'] at hdrop
  exact ⟨htake, hdrop⟩

end IsWord

theorem not_mem_delimiters_of_isDigit {c : Char} (h : c.isDigit = true) : c ∉ delimiters := by
  intro hc
  revert h
  simp only [delimiters, List.mem_cons, List.not_mem_nil, or_false] at hc
  rcases hc with rfl | rfl | rfl | rfl | rfl | rfl <;> decide

theorem not_mem_delimiters_of_isLetter {c : Char} (h : IsLetter c) : c ∉ delimiters := by
  intro hc
  revert h
  simp only [delimiters, List.mem_cons, List.not_mem_nil, or_false] at hc
  unfold IsLetter
  rcases hc with rfl | rfl | rfl | rfl | rfl | rfl <;> decide

theorem IsIdentifier.isWord {name : String} (h : IsIdentifier name) : IsWord name.toList := by
  obtain ⟨first, rest, hname, hfirst, hrest⟩ := h
  rw [hname]
  refine ⟨List.cons_ne_nil _ _, fun c hc => ?_⟩
  have hunderscore : '_' ∉ delimiters := by decide
  rcases List.mem_cons.1 hc with rfl | hc
  · rcases hfirst with rfl | hletter
    exacts [hunderscore, not_mem_delimiters_of_isLetter hletter]
  · rcases hrest c hc with rfl | hletter | hdigit
    exacts [hunderscore, not_mem_delimiters_of_isLetter hletter, not_mem_delimiters_of_isDigit hdigit]

/-! ## Kinds -/

/-- The kinds of expressions, those of literals apart. -/
inductive TextKind where
  | int | real | bool | string | unit | pair | var | placeholder | lambda | call
deriving DecidableEq

namespace TextKind

/-- Whether a character is a digit or a sign. -/
def isNumeral (c : Char) : Bool := c.isDigit || c == '-'

/-- The kind of the expression that is written with one word. -/
def ofWord (w : List Char) : TextKind :=
  if w = ['_'] then placeholder
  else if w = ['t', 'r', 'u', 'e'] ∨ w = ['f', 'a', 'l', 's', 'e'] then bool
  else if w = ['i', 'n', 'f'] ∨ w = ['N', 'a', 'N'] then real
  else if w.all isNumeral then int
  else if w.head?.any isNumeral then real
  else var

/-- The kind of the expression that a text begins with. -/
def ofText : List Char → TextKind
  | '\x7b' :: _ => lambda
  | '\x22' :: _ => string
  | '(' :: ')' :: _ => unit
  | '(' :: _ => pair
  | cs =>
    if (cs.dropWhile (· ∉ delimiters)).head? = some '(' then call
    else ofWord (cs.takeWhile (· ∉ delimiters))

theorem ofText_word {w r : List Char} (hw : IsWord w) (hr : EndsWord r) :
    ofText (w ++ r) = if r.head? = some '(' then call else ofWord w := by
  have htake := hw.takeWhile_append hr
  have hdrop := hw.dropWhile_append hr
  rcases w with _ | ⟨c, cs⟩
  · exact absurd rfl hw.ne_nil
  · have hc := hw.disjoint c List.mem_cons_self
    rw [List.cons_append] at htake hdrop ⊢
    unfold ofText
    split
    next heq => exact absurd ((List.cons.inj heq).1 ▸ hc) (by decide)
    next heq => exact absurd ((List.cons.inj heq).1 ▸ hc) (by decide)
    next heq => exact absurd ((List.cons.inj heq).1 ▸ hc) (by decide)
    next heq => exact absurd ((List.cons.inj heq).1 ▸ hc) (by decide)
    next => rw [htake, hdrop]

/-- A word that begins with a digit or a sign is a number. -/
theorem ofWord_numeral {c : Char} {cs : List Char} (hc : isNumeral c = true) :
    ofWord (c :: cs) = if (c :: cs).all isNumeral then int else real := by
  have hne {c' : Char} {cs' : List Char} (h : isNumeral c' = false) : c :: cs ≠ c' :: cs' := by
    rintro heq
    rw [(List.cons.inj heq).1, h] at hc
    cases hc
  unfold ofWord
  rw [if_neg (hne (by decide)), if_neg (not_or.2 ⟨hne (by decide), hne (by decide)⟩),
    if_neg (not_or.2 ⟨hne (by decide), hne (by decide)⟩)]
  simp [hc]

end TextKind

/-- The kinds that are written with one word. -/
def TextKind.isWord : TextKind → Bool
  | int | real | bool | var | placeholder => true
  | string | unit | pair | lambda | call => false

/-- The kind of a literal. -/
def Literal.kind : Literal → TextKind
  | int _ => .int
  | real _ => .real
  | bool _ => .bool
  | string _ => .string
  | unit => .unit

/-- The kind of an expression. -/
def Expr.kind : Expr → TextKind
  | literal value _ _ => value.kind
  | pair _ _ _ _ => .pair
  | var _ => .var
  | placeholder _ => .placeholder
  | lambda _ _ _ => .lambda
  | call _ _ _ _ => .call

/-! ## Texts of literals -/

theorem Literal.toList_text_int (i : Int64) :
    (∃ c cs, (Literal.int i).text.toList = c :: cs ∧ TextKind.isNumeral c = true) ∧
      (Literal.int i).text.toList.all TextKind.isNumeral = true := by
  have hnumeral : ∀ c ∈ (Literal.int i).text.toList, TextKind.isNumeral c = true := by
    intro c hc
    have := Decimal.isTextChar_of_mem_toString hc
    simpa [TextKind.isNumeral] using this
  refine ⟨?_, List.all_eq_true.2 hnumeral⟩
  cases htext : (Literal.int i).text.toList with
  | nil => exact absurd htext (Decimal.toList_toString_ne_nil _)
  | cons c cs =>
    rw [htext] at hnumeral
    exact ⟨c, cs, rfl, hnumeral c List.mem_cons_self⟩

theorem not_mem_delimiters_of_isNumeral {c : Char} (h : TextKind.isNumeral c = true) :
    c ∉ delimiters := by
  simp only [TextKind.isNumeral, Bool.or_eq_true, beq_iff_eq] at h
  rcases h with h | rfl
  · exact not_mem_delimiters_of_isDigit h
  · decide

theorem not_mem_delimiters_of_isTextChar {c : Char} (h : Decimal.IsTextChar c) : c ∉ delimiters := by
  rcases h with h | rfl | rfl | rfl
  · exact not_mem_delimiters_of_isDigit h
  all_goals decide

namespace Binary64

variable (x : Binary64)

/-- The text of a finite real without its sign: a digit and more, with a point or an exponent. -/
theorem magnitudeText_finite (hfinite : x.isInfinite = false) :
    (∃ c cs, x.magnitudeText = c :: cs ∧ c.isDigit = true) ∧
      (∀ c ∈ x.magnitudeText, Decimal.IsTextChar c) ∧
        ('.' ∈ x.magnitudeText ∨ 'e' ∈ x.magnitudeText) := by
  refine ⟨?_, ?_⟩
  · rcases x.head_magnitudeText with ⟨hinfinite, -⟩ | ⟨-, hhead⟩
    · rw [hfinite] at hinfinite
      cases hinfinite
    · exact hhead
  · unfold magnitudeText
    rw [hfinite, if_neg (by decide)]
    split
    · refine ⟨fun c hc => ?_, .inl (by decide)⟩
      simp only [List.mem_cons, List.not_mem_nil, or_false] at hc
      rcases hc with rfl | rfl | rfl
      exacts [.inl (by decide), .inr (.inl rfl), .inl (by decide)]
    · exact ⟨fun c hc => Decimal.isTextChar_of_mem_render _ hc, Decimal.mark_mem_render _ _⟩

/-- The text of a real is a word, and not one that writes an integer or a name. -/
theorem isWord_render : IsWord x.render.toList ∧ TextKind.ofWord x.render.toList = .real := by
  cases hnan : x.isNaN with
  | true =>
    rw [render_nan hnan]
    decide +kernel
  | false =>
    rw [toList_render hnan]
    cases hinfinite : x.isInfinite with
    | true =>
      have htext : x.magnitudeText = ['i', 'n', 'f'] := by
        rw [magnitudeText, hinfinite]
        rfl
      rw [htext]
      cases x.isNegative <;> decide +kernel
    | false =>
      obtain ⟨⟨c, cs, htext, hc⟩, hchars, hmark⟩ := x.magnitudeText_finite hinfinite
      have hdisjoint : ∀ c ∈ x.magnitudeText, c ∉ delimiters :=
        fun c hc => not_mem_delimiters_of_isTextChar (hchars c hc)
      have hall : x.magnitudeText.all TextKind.isNumeral = false := by
        rw [List.all_eq_false]
        rcases hmark with hmark | hmark
        · exact ⟨'.', hmark, by decide⟩
        · exact ⟨'e', hmark, by decide⟩
      rw [htext] at hdisjoint hall ⊢
      cases x.isNegative with
      | false =>
        have hnumeral : TextKind.isNumeral c = true := by simp [TextKind.isNumeral, hc]
        refine ⟨⟨by simp, hdisjoint⟩, ?_⟩
        show TextKind.ofWord (c :: cs) = _
        rw [TextKind.ofWord_numeral hnumeral, hall]
        rfl
      | true =>
        refine ⟨⟨by simp, fun c' hc' => ?_⟩, ?_⟩
        · rcases List.mem_cons.1 hc' with rfl | hc'
          · decide
          · exact hdisjoint c' hc'
        · show TextKind.ofWord ('-' :: c :: cs) = _
          rw [TextKind.ofWord_numeral (by decide), List.all_cons, hall, Bool.and_false]
          rfl

end Binary64

theorem Literal.isWord_text_int (i : Int64) : IsWord (Literal.int i).text.toList ∧
    TextKind.ofWord (Literal.int i).text.toList = .int := by
  obtain ⟨⟨c, cs, htext, hc⟩, hall⟩ := Literal.toList_text_int i
  have hdisjoint : ∀ c ∈ (Literal.int i).text.toList, c ∉ delimiters :=
    fun c hc => not_mem_delimiters_of_isNumeral (List.all_eq_true.1 hall c hc)
  rw [htext] at hall hdisjoint ⊢
  refine ⟨⟨by simp, hdisjoint⟩, ?_⟩
  rw [TextKind.ofWord_numeral hc, hall]
  rfl

/-- No letter is a digit or a sign. -/
theorem isNumeral_of_isLetter {c : Char} (h : IsLetter c) : TextKind.isNumeral c = false := by
  rw [Bool.eq_false_iff]
  intro hnumeral
  simp only [TextKind.isNumeral, Bool.or_eq_true, beq_iff_eq] at hnumeral
  rcases hnumeral with hdigit | rfl
  · have halpha : c.isAlpha = (c.isUpper || c.isLower) := rfl
    have hupper : c.isUpper = decide ('A'.val ≤ c.val ∧ c.val ≤ 'Z'.val) := rfl
    have hlower : c.isLower = (decide ('a'.val ≤ c.val) && decide (c.val ≤ 'z'.val)) := rfl
    simp only [IsLetter, halpha, hupper, hlower, Char.isDigit, Char.toNat, Bool.or_eq_true,
      Bool.and_eq_true, decide_eq_true_eq, ge_iff_le, UInt32.le_iff_toNat_le] at h hdigit
    have hdigits : '0'.val.toNat = 48 ∧ '9'.val.toNat = 57 := by decide
    have hletters : 'A'.val.toNat = 65 ∧ 'a'.val.toNat = 97 := by decide
    omega
  · revert h
    unfold IsLetter
    decide

/-- An identifier that is not reserved is the text of a variable. -/
theorem ofWord_identifier {name : String} (h : IsIdentifier name)
    (hreserved : name ∉ Expr.reservedNames) : TextKind.ofWord name.toList = .var := by
  have hne {t : String} (ht : t ∈ Expr.reservedNames) : name.toList ≠ t.toList :=
    fun heq => hreserved (String.toList_inj.1 heq ▸ ht)
  have hplaceholder : name.toList ≠ ['_'] := hne (t := "_") (by decide)
  have htrue : name.toList ≠ ['t', 'r', 'u', 'e'] := hne (t := "true") (by decide)
  have hfalse : name.toList ≠ ['f', 'a', 'l', 's', 'e'] := hne (t := "false") (by decide)
  have hinf : name.toList ≠ ['i', 'n', 'f'] := hne (t := "inf") (by decide)
  have hnan : name.toList ≠ ['N', 'a', 'N'] := hne (t := "NaN") (by decide)
  obtain ⟨first, rest, hname, hfirst, -⟩ := h
  have hnumeral : TextKind.isNumeral first = false := by
    rcases hfirst with rfl | hletter
    · decide
    · exact isNumeral_of_isLetter hletter
  unfold TextKind.ofWord
  rw [if_neg hplaceholder, if_neg (not_or.2 ⟨htrue, hfalse⟩), if_neg (not_or.2 ⟨hinf, hnan⟩), hname]
  simp [hnumeral]

/-! ## Texts of expressions -/

namespace Expr

/-- What stands in the text of a call after an argument. -/
def moreText : List Expr → List Char
  | [] => [')']
  | e :: es => ',' :: (e.text.toList ++ moreText es)

/-- What stands in the text of a call after the opening parenthesis. -/
def argsText : List Expr → List Char
  | [] => [')']
  | e :: es => e.text.toList ++ moreText es

theorem toList_intercalate_text (es : List Expr) :
    (",".intercalate (es.map text)).toList ++ [')'] = argsText es := by
  have hmore (e : Expr) (es : List Expr) :
      (",".intercalate ((e :: es).map text)).toList ++ [')'] = e.text.toList ++ moreText es := by
    induction es generalizing e with
    | nil => rw [List.map_singleton, String.intercalate_singleton, moreText]
    | cons e' es ih =>
      have hcomma : ",".toList = [','] := by decide
      rw [List.map_cons, List.map_cons, String.intercalate_cons_cons, String.toList_append,
        String.toList_append, hcomma, moreText, List.append_assoc, ← List.map_cons, ih]
      simp
  cases es with
  | nil => simp [argsText]
  | cons e es => exact hmore e es

variable (b : Builder)

theorem text_literal (value : Literal) : (b.literal value).text = value.text := rfl

theorem toList_text_call (name : String) (args : List Expr) :
    (b.call name args).text.toList = name.toList ++ '(' :: argsText args := by
  have hopen : "(".toList = ['('] := by decide
  have hclose : ")".toList = [')'] := by decide
  show (callText name (args.map text)).toList = _
  rw [callText, String.toList_append, String.toList_append, String.toList_append, hopen, hclose,
    List.append_assoc, List.append_assoc, ← toList_intercalate_text]
  rfl

theorem toList_text_pair (first second : Expr) : (b.pair first second).text.toList =
    '(' :: (first.text.toList ++ ',' :: (second.text.toList ++ [')'])) := by
  show (pairText first.text second.text).toList = _
  simp [pairText, String.toList_append]

theorem toList_text_lambda (body : Expr) :
    (b.lambda body).text.toList = '\x7b' :: (body.text.toList ++ ['\x7d']) := by
  show (lambdaText body.text).toList = _
  simp [lambdaText, String.toList_append]

theorem toList_text_string (s : String) :
    (b.literal (.string s)).text.toList = '\x22' :: (s.toList ++ ['\x22']) := by
  show (Literal.text (.string s)).toList = _
  simp [Literal.text, String.toList_append]

theorem toList_text_unit : (b.literal .unit).text.toList = ['(', ')'] := by
  show "()".toList = _
  decide

end Expr

theorem stops_moreText (es : List Expr) (r : List Char) : Stops (Expr.moreText es ++ r) := by
  cases es with
  | nil => exact .paren r
  | cons e es => exact .comma _

/-! ## Reading from the left -/

/-- The expressions that are written with one word. -/
theorem isWord_text {e : Expr} (he : e.Built) (hplain : e.Plain) :
    (IsWord e.text.toList ∧ TextKind.ofWord e.text.toList = e.kind) ∨
      e.kind.isWord = false := by
  cases he with
  | literal b value =>
    cases value with
    | int i => exact .inl (Literal.isWord_text_int i)
    | real x => exact .inl x.isWord_render
    | bool value =>
      cases value with
      | false =>
        have hword : IsWord "false".toList ∧ TextKind.ofWord "false".toList = .bool := by
          decide +kernel
        exact .inl hword
      | true =>
        have hword : IsWord "true".toList ∧ TextKind.ofWord "true".toList = .bool := by
          decide +kernel
        exact .inl hword
    | string | unit => exact .inr rfl
  | var b hname => exact .inl ⟨hname.isWord, ofWord_identifier hname hplain.self⟩
  | placeholder b =>
    have hword : IsWord "_".toList ∧ TextKind.ofWord "_".toList = .placeholder := by
      decide +kernel
    exact .inl hword
  | pair | lambda | call => exact .inr rfl

/-- A text does not begin as the end of an argument list does. -/
theorem head_text {e : Expr} (he : e.Built) (hplain : e.Plain) :
    ∃ c cs, e.text.toList = c :: cs ∧ c ≠ ')' := by
  rcases isWord_text he hplain with ⟨hword, -⟩ | hkind
  · rcases htext : e.text.toList with _ | ⟨c, cs⟩
    · exact absurd htext hword.ne_nil
    · rw [htext] at hword
      refine ⟨c, cs, rfl, ?_⟩
      rintro rfl
      exact hword.disjoint _ List.mem_cons_self (by decide)
  cases he with
  | literal b value =>
    cases value with
    | string s => exact ⟨_, _, Expr.toList_text_string b s, by decide⟩
    | unit => exact ⟨_, _, Expr.toList_text_unit b, by decide⟩
    | int | real | bool => cases hkind
  | pair b => exact ⟨_, _, Expr.toList_text_pair b _ _, by decide⟩
  | lambda b => exact ⟨_, _, Expr.toList_text_lambda b _, by decide⟩
  | @call b name args hname =>
    obtain ⟨first, rest, hlist, -⟩ := id hname
    refine ⟨first, _, by rw [Expr.toList_text_call, hlist]; rfl, ?_⟩
    rintro rfl
    exact hname.isWord.disjoint ')' (by rw [hlist]; exact List.mem_cons_self) (by decide)
  | var | placeholder => cases hkind

/-- The kind of an expression can be told from its text and what follows. -/
theorem ofText_text {e : Expr} (he : e.Built) (hplain : e.Plain) {r : List Char} (hr : Stops r) :
    TextKind.ofText (e.text.toList ++ r) = e.kind := by
  rcases isWord_text he hplain with ⟨hword, hkind⟩ | hkind
  · have hparen : r.head? ≠ some '(' := by cases hr <;> simp
    rw [TextKind.ofText_word hword hr.endsWord, if_neg hparen, hkind]
  cases he with
  | literal b value =>
    cases value with
    | string s =>
      rw [Expr.toList_text_string]
      rfl
    | unit =>
      rw [Expr.toList_text_unit]
      rfl
    | int | real | bool => cases hkind
  | @pair b first second hfirst =>
    obtain ⟨c, cs, htext, hc⟩ := head_text hfirst hplain.first
    rw [Expr.toList_text_pair, htext]
    show TextKind.ofText ('(' :: c :: _) = .pair
    unfold TextKind.ofText
    split
    next heq => simp at heq
    next heq => simp at heq
    next heq => exact absurd (List.cons.inj (List.cons.inj heq).2).1 hc
    next => rfl
    next hpair => exact (hpair _ rfl).elim
  | lambda b =>
    rw [Expr.toList_text_lambda]
    rfl
  | @call b name args hname =>
    rw [Expr.toList_text_call, List.append_assoc, List.cons_append,
      TextKind.ofText_word hname.isWord (endsWord_paren _), if_pos List.head?_cons]
    rfl
  | var | placeholder => cases hkind

/-- If a text begins with an expression and with another one, they are of one kind. -/
theorem kind_eq_of_append_eq {e e' : Expr} (he : e.Built) (hplain : e.Plain) (he' : e'.Built)
    (hplain' : e'.Plain) {r r' : List Char} (hr : Stops r) (hr' : Stops r')
    (h : e.text.toList ++ r = e'.text.toList ++ r') : e.kind = e'.kind := by
  rw [← ofText_text he hplain hr, h, ofText_text he' hplain' hr']

/-- Whether an expression is known by its text, wherever it stands and whatever follows. -/
def Expr.Readable (e : Expr) : Prop :=
  ∀ ⦃e'⦄, e'.Built → e'.Plain → ∀ ⦃r r'⦄, Stops r → Stops r' →
    e.text.toList ++ r = e'.text.toList ++ r' → e.Alike e' ∧ r = r'

/-- So are all arguments of a call. -/
theorem alike_of_moreText_eq {args : List Expr} (hargs : ∀ e ∈ args, e.Readable) {args' : List Expr}
    (hbuilt : ∀ e ∈ args', e.Built) (hplain : ∀ e ∈ args', e.Plain) {r r' : List Char}
    (h : Expr.moreText args ++ r = Expr.moreText args' ++ r') :
    List.Forall₂ Expr.Alike args args' ∧ r = r' := by
  induction args generalizing args' with
  | nil =>
    cases args' with
    | nil => exact ⟨.nil, (List.cons.inj h).2⟩
    | cons e' es' => exact absurd (List.cons.inj h).1 (by decide)
  | cons e es ih =>
    cases args' with
    | nil => exact absurd (List.cons.inj h).1 (by decide)
    | cons e' es' =>
      rw [List.forall_mem_cons] at hargs hbuilt hplain
      have htail : e.text.toList ++ (Expr.moreText es ++ r) =
          e'.text.toList ++ (Expr.moreText es' ++ r') := by
        simpa [Expr.moreText] using h
      obtain ⟨hhead, hrest⟩ :=
        hargs.1 hbuilt.1 hplain.1 (stops_moreText es r) (stops_moreText es' r') htail
      obtain ⟨hall, hr⟩ := ih hargs.2 hbuilt.2 hplain.2 hrest
      exact ⟨.cons hhead hall, hr⟩

theorem alike_of_argsText_eq {args : List Expr} (hreadable : ∀ e ∈ args, e.Readable)
    {args' : List Expr} (hbuilt : ∀ e ∈ args, e.Built) (hplain : ∀ e ∈ args, e.Plain)
    (hbuilt' : ∀ e ∈ args', e.Built) (hplain' : ∀ e ∈ args', e.Plain) {r r' : List Char}
    (h : Expr.argsText args ++ r = Expr.argsText args' ++ r') :
    List.Forall₂ Expr.Alike args args' ∧ r = r' := by
  -- No first argument begins as an empty list of arguments does.
  have hhead {e : Expr} (he : e.Built) (hp : e.Plain) {es : List Expr} {r r' : List Char} :
      Expr.argsText [] ++ r ≠ Expr.argsText (e :: es) ++ r' := by
    obtain ⟨c, cs, htext, hc⟩ := head_text he hp
    rw [Expr.argsText, Expr.argsText, htext]
    exact fun heq => hc (List.cons.inj heq).1.symm
  rcases args with _ | ⟨e, es⟩ <;> rcases args' with _ | ⟨e', es'⟩
  · exact ⟨.nil, (List.cons.inj h).2⟩
  · exact absurd h (hhead (hbuilt' e' (.head _)) (hplain' e' (.head _)))
  · exact absurd h.symm (hhead (hbuilt e (.head _)) (hplain e (.head _)))
  · refine alike_of_moreText_eq hreadable hbuilt' hplain' ?_
    rw [Expr.moreText, Expr.moreText, List.cons_append, List.cons_append]
    exact congrArg (',' :: ·) h

/-- Two expressions that a text begins with have one text if one of them is written with one word. -/
theorem text_eq_of_append_eq {e e' : Expr} (he : e.Built) (hplain : e.Plain) (he' : e'.Built)
    (hplain' : e'.Plain) (hword : e.kind.isWord = true) {r r' : List Char} (hr : Stops r)
    (hr' : Stops r') (h : e.text.toList ++ r = e'.text.toList ++ r') : e.text = e'.text ∧ r = r' := by
  have hkind := kind_eq_of_append_eq he hplain he' hplain' hr hr' h
  obtain ⟨hisWord, -⟩ := (isWord_text he hplain).resolve_right (by simp [hword])
  rw [hkind] at hword
  obtain ⟨hisWord', -⟩ := (isWord_text he' hplain').resolve_right (by simp [hword])
  obtain ⟨htext, hrest⟩ := hisWord.eq_of_append_eq hr.endsWord hisWord' hr'.endsWord h
  exact ⟨String.toList_inj.1 htext, hrest⟩

theorem alike_literal {value value' : Literal} (htext : value.text = value'.text)
    (hvalue : value.identifyNaN = value'.identifyNaN) (b b' : Builder) :
    (b.literal value).Alike (b'.literal value') := by
  unfold Expr.Alike Builder.literal Expr.ofLiteral
  rw [Expr.eraseSpans, Expr.eraseSpans, Expr.identifyNaNs, Expr.identifyNaNs, htext, hvalue]

/-- Literals of one word are known by it. -/
theorem Literal.identifyNaN_eq_of_text_eq {value value' : Literal}
    (hkind : value.kind = value'.kind) (hword : value.kind.isWord = true)
    (htext : value.text = value'.text) : value.identifyNaN = value'.identifyNaN := by
  cases value with
  | int i =>
    cases value' with
    | int i' =>
      have hint : i.toInt = i'.toInt := Int.repr_injective htext
      rw [Int64.toInt_inj.1 hint]
    | _ => cases hkind
  | real x =>
    cases value' with
    | real x' =>
      rcases Binary64.eq_of_render_eq htext with rfl | ⟨hx, hx'⟩
      · rfl
      · simp [identifyNaN, Binary64.identifyNaN, hx, hx']
    | _ => cases hkind
  | bool value =>
    cases value' with
    | bool value' =>
      cases value <;> cases value' <;> first | rfl | exact absurd htext (by decide)
    | _ => cases hkind
  | string | unit => cases hword

/-- A literal is known by its text. -/
theorem readable_literal {b : Builder} {value : Literal} (hplain : (b.literal value).Plain) :
    (b.literal value).Readable := by
  intro e' he' hplain' r r' hr hr' h
  have hkind := kind_eq_of_append_eq (.literal b value) hplain he' hplain' hr hr' h
  have hsome : ∃ (b' : Builder) (value' : Literal), e' = b'.literal value' := by
    cases he' with
    | literal b' value' => exact ⟨b', value', rfl⟩
    | _ => cases value <;> cases hkind
  obtain ⟨b', value', rfl⟩ := hsome
  have hkind : value.kind = value'.kind := hkind
  cases value with
  | string s =>
    cases value' with
    | string s' =>
      have hs : s.toList ++ '\x22' :: r = s'.toList ++ '\x22' :: r' := by
        rw [Expr.toList_text_string, Expr.toList_text_string] at h
        simpa using h
      obtain ⟨htext, hrest⟩ := eq_of_endsOnce hplain.self hr hplain'.self hr' hs
      obtain rfl := String.toList_inj.1 htext
      exact ⟨alike_literal rfl rfl b b', hrest⟩
    | _ => cases hkind
  | unit =>
    cases value' with
    | unit =>
      rw [Expr.toList_text_unit, Expr.toList_text_unit] at h
      exact ⟨alike_literal rfl rfl b b', List.append_cancel_left h⟩
    | _ => cases hkind
  | int | real | bool =>
    obtain ⟨htext, hrest⟩ := text_eq_of_append_eq (.literal b _) hplain he' hplain' rfl hr hr' h
    rw [Expr.text_literal, Expr.text_literal] at htext
    have hvalue := Literal.identifyNaN_eq_of_text_eq hkind rfl htext
    exact ⟨alike_literal htext hvalue b b', hrest⟩

/-- A built expression is known by its text. -/
theorem Expr.Built.readable {e : Expr} (he : e.Built) (hplain : e.Plain) : e.Readable := by
  induction he with
  | literal b value => exact readable_literal hplain
  | @var b name hname =>
    intro e' he' hplain' r r' hr hr' h
    have hkind := kind_eq_of_append_eq (.var b hname) hplain he' hplain' hr hr' h
    obtain ⟨htext, hrest⟩ := text_eq_of_append_eq (.var b hname) hplain he' hplain' rfl hr hr' h
    cases he' with
    | @var b' name' hname' =>
      obtain rfl : name = name' := htext
      exact ⟨rfl, hrest⟩
    | literal b' value => cases value <;> cases hkind
    | _ => cases hkind
  | placeholder b =>
    intro e' he' hplain' r r' hr hr' h
    have hkind := kind_eq_of_append_eq (.placeholder b) hplain he' hplain' hr hr' h
    obtain ⟨-, hrest⟩ := text_eq_of_append_eq (.placeholder b) hplain he' hplain' rfl hr hr' h
    cases he' with
    | placeholder b' => exact ⟨rfl, hrest⟩
    | literal b' value => cases value <;> cases hkind
    | _ => cases hkind
  | @pair b first second hfirst hsecond ihfirst ihsecond =>
    intro e' he' hplain' r r' hr hr' h
    have hkind := kind_eq_of_append_eq (.pair b hfirst hsecond) hplain he' hplain' hr hr' h
    cases he' with
    | @pair b' first' second' hfirst' hsecond' =>
      rw [toList_text_pair, toList_text_pair] at h
      have h₁ : first.text.toList ++ ',' :: (second.text.toList ++ (')' :: r)) =
          first'.text.toList ++ ',' :: (second'.text.toList ++ (')' :: r')) := by
        simpa using h
      obtain ⟨hfirsts, h₂⟩ := ihfirst hplain.first hfirst' hplain'.first (.comma _) (.comma _) h₁
      obtain ⟨hseconds, h₃⟩ := ihsecond hplain.second hsecond' hplain'.second (.paren _) (.paren _)
        (List.cons.inj h₂).2
      exact ⟨hfirsts.pair hseconds b b', (List.cons.inj h₃).2⟩
    | literal b' value => cases value <;> cases hkind
    | _ => cases hkind
  | @lambda b body hbody ihbody =>
    intro e' he' hplain' r r' hr hr' h
    have hkind := kind_eq_of_append_eq (.lambda b hbody) hplain he' hplain' hr hr' h
    cases he' with
    | @lambda b' body' hbody' =>
      rw [toList_text_lambda, toList_text_lambda] at h
      have h₁ : body.text.toList ++ '\x7d' :: r = body'.text.toList ++ '\x7d' :: r' := by
        simpa using h
      obtain ⟨hbodies, h₂⟩ := ihbody hplain.body hbody' hplain'.body (.brace _) (.brace _) h₁
      exact ⟨hbodies.lambda b b', (List.cons.inj h₂).2⟩
    | literal b' value => cases value <;> cases hkind
    | _ => cases hkind
  | @call b name args hname hargs ihargs =>
    intro e' he' hplain' r r' hr hr' h
    have hkind := kind_eq_of_append_eq (.call b hname hargs) hplain he' hplain' hr hr' h
    cases he' with
    | @call b' name' args' hname' hargs' =>
      rw [toList_text_call, toList_text_call, List.append_assoc, List.append_assoc, List.cons_append,
        List.cons_append] at h
      obtain ⟨hnames, h₁⟩ := hname.isWord.eq_of_append_eq (endsWord_paren _) hname'.isWord
        (endsWord_paren _) h
      obtain ⟨hall, hr⟩ := alike_of_argsText_eq (fun e he => ihargs e he (hplain.arg he)) hargs
        (fun e => hplain.arg) hargs' (fun e => hplain'.arg) (List.cons.inj h₁).2
      obtain rfl := String.toList_inj.1 hnames
      exact ⟨.call hall name b b', hr⟩
    | literal b' value => cases value <;> cases hkind
    | _ => cases hkind

/-- The text of a plain expression that was built determines it. -/
theorem Expr.Built.alike_of_text_eq {e e' : Expr} (he : e.Built) (hplain : e.Plain) (he' : e'.Built)
    (hplain' : e'.Plain) (h : e.text = e'.text) : e.Alike e' :=
  (he.readable hplain he' hplain' .nil .nil (by rw [h])).1

end BlockCompiler
