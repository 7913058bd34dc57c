import Mathlib.Algebra.Order.Field.Rat
import Mathlib.Data.List.TakeWhile
import Mathlib.Tactic.FieldSimp
import Mathlib.Tactic.Ring
import Std.Data.String.ToInt
import BlockCompiler.Binary64.Text

/-!
# The text of a real can be read back

The text of a decimal determines its value.  `RealText.read` is a reader for both notations, and
`Decimal.read_render` says that it returns the value of whatever decimal was written, in whichever
notation.  Two decimals with one text have one value, therefore.
-/

namespace BlockCompiler

/-- The value of a decimal. -/
def Decimal.value (d : Decimal) : ℚ := d.digits * 10 ^ d.exponent

/-! ## Reading -/

namespace RealText

/-- The value of digits with at most one point among them. -/
def mantissa (cs : List Char) : ℚ :=
  let fraction := (cs.dropWhile (· ≠ '.')).tail
  Nat.ofDigitChars 10 (cs.takeWhile (· ≠ '.') ++ fraction) 0 * 10 ^ (-(fraction.length : Int))

/-- The power of ten after the digits: none, or an integer after one character. -/
def exponent : List Char → Int
  | [] => 0
  | _ :: cs => (String.ofList cs).toInt?.getD 0

/-- The value that a text writes. -/
def read (cs : List Char) : ℚ :=
  mantissa (cs.takeWhile (· ≠ 'e')) * 10 ^ exponent (cs.dropWhile (· ≠ 'e'))

theorem takeWhile_ne_of_not_mem {c : Char} {cs : List Char} (h : c ∉ cs) :
    cs.takeWhile (· ≠ c) = cs :=
  List.takeWhile_eq_self_iff.2 fun _ hc => decide_eq_true (ne_of_mem_of_not_mem hc h)

theorem dropWhile_ne_of_not_mem {c : Char} {cs : List Char} (h : c ∉ cs) :
    cs.dropWhile (· ≠ c) = [] :=
  List.dropWhile_eq_nil_iff.2 fun _ hc => decide_eq_true (ne_of_mem_of_not_mem hc h)

theorem takeWhile_ne_append {c : Char} {cs : List Char} (h : c ∉ cs) (rest : List Char) :
    (cs ++ c :: rest).takeWhile (· ≠ c) = cs := by
  rw [List.takeWhile_append, takeWhile_ne_of_not_mem h]
  simp

theorem dropWhile_ne_append {c : Char} {cs : List Char} (h : c ∉ cs) (rest : List Char) :
    (cs ++ c :: rest).dropWhile (· ≠ c) = c :: rest := by
  rw [List.dropWhile_append, dropWhile_ne_of_not_mem h]
  simp

theorem mantissa_point {whole : List Char} (h : '.' ∉ whole) (fraction : List Char) :
    mantissa (whole ++ '.' :: fraction) =
      Nat.ofDigitChars 10 (whole ++ fraction) 0 * 10 ^ (-(fraction.length : Int)) := by
  rw [mantissa, takeWhile_ne_append h, dropWhile_ne_append h, List.tail_cons]

theorem mantissa_whole {whole : List Char} (h : '.' ∉ whole) :
    mantissa whole = Nat.ofDigitChars 10 whole 0 := by
  rw [mantissa, takeWhile_ne_of_not_mem h, dropWhile_ne_of_not_mem h]
  simp

theorem read_mantissa {cs : List Char} (h : 'e' ∉ cs) : read cs = mantissa cs := by
  rw [read, takeWhile_ne_of_not_mem h, dropWhile_ne_of_not_mem h, exponent, zpow_zero, mul_one]

theorem read_exponent {cs : List Char} (h : 'e' ∉ cs) (e : Int) :
    read (cs ++ 'e' :: (toString e).toList) = mantissa cs * 10 ^ e := by
  have hread : (toString e).toInt? = some e := Int.toInt?_repr e
  rw [read, takeWhile_ne_append h, dropWhile_ne_append h, exponent, String.ofList_toList, hread,
    Option.getD_some]

end RealText

/-! ## Writing -/

namespace Decimal

variable (d : Decimal)

theorem isDigit_of_mem_digitText {c : Char} (h : c ∈ d.digitText) : c.isDigit = true :=
  Nat.isDigit_of_mem_toDigits (by decide) (by decide) h

theorem not_mem_digitText {c : Char} (h : c.isDigit = false) : c ∉ d.digitText := by
  intro hc
  rw [d.isDigit_of_mem_digitText hc] at h
  cases h

theorem length_digitText_pos : 0 < d.digitText.length := Nat.length_toDigits_pos

theorem ofDigitChars_digitText : Nat.ofDigitChars 10 d.digitText 0 = d.digits :=
  Nat.ofDigitChars_ten_toDigits

/-- Zeros in front do not count. -/
theorem ofDigitChars_zeros_append (n : Nat) (cs : List Char) :
    Nat.ofDigitChars 10 (List.replicate n '0' ++ cs) 0 = Nat.ofDigitChars 10 cs 0 := by
  rw [Nat.ofDigitChars_append, Nat.ofDigitChars_replicate_zero, Nat.mul_zero]

/-- Each zero at the end counts ten. -/
theorem ofDigitChars_append_zeros (cs : List Char) (n : Nat) :
    Nat.ofDigitChars 10 (cs ++ List.replicate n '0') 0 = 10 ^ n * Nat.ofDigitChars 10 cs 0 := by
  rw [Nat.ofDigitChars_append, Nat.ofDigitChars_replicate_zero]

theorem exponent_eq : d.exponent = d.scientificExponent - d.digitText.length + 1 := by
  rw [scientificExponent]
  omega

/-- The value by the place of the first digit. -/
theorem value_eq : d.value = d.digits * 10 ^ (d.scientificExponent - d.digitText.length + 1) := by
  rw [value, ← exponent_eq]

theorem read_positional : RealText.read d.positional = d.value := by
  have hpoint : '.' ∉ d.digitText := d.not_mem_digitText (by decide)
  have he : 'e' ∉ d.digitText := d.not_mem_digitText (by decide)
  have hten : (10 : ℚ) ≠ 0 := by norm_num
  rw [positional, value_eq]
  dsimp only
  split
  -- The first digit stands after the point.
  next hneg =>
    set zeros := (-d.scientificExponent).toNat - 1 with hzeros
    have hfraction : -((List.replicate zeros '0' ++ d.digitText).length : Int) =
        d.scientificExponent - d.digitText.length + 1 := by
      rw [List.length_append, List.length_replicate]
      omega
    have hwhole : '.' ∉ ['0'] := by decide
    rw [RealText.read_mantissa (by simp [he])]
    have hzero : ['0'] ++ (List.replicate zeros '0' ++ d.digitText) =
        List.replicate (zeros + 1) '0' ++ d.digitText := rfl
    have hmantissa := RealText.mantissa_point hwhole (List.replicate zeros '0' ++ d.digitText)
    rw [hfraction, hzero, ofDigitChars_zeros_append, ofDigitChars_digitText] at hmantissa
    exact hmantissa
  next hnonneg =>
    split
    -- All digits stand before the point.
    next hlength =>
      set zeros := d.scientificExponent.toNat + 1 - d.digitText.length with hzeros
      have hwhole : '.' ∉ d.digitText ++ List.replicate zeros '0' := by simp [hpoint]
      rw [RealText.read_mantissa (by simp [he]), RealText.mantissa_point hwhole,
        List.append_assoc, ← List.replicate_succ', ofDigitChars_append_zeros, ofDigitChars_digitText]
      have hexponent : d.scientificExponent - d.digitText.length + 1 = zeros := by omega
      rw [hexponent, List.length_singleton, zpow_natCast, pow_succ]
      push_cast
      rw [zpow_neg_one]
      field_simp
    -- The point stands among the digits.
    next hlength =>
      set whole := d.scientificExponent.toNat + 1 with hwhole
      have htake : '.' ∉ d.digitText.take whole := fun h => hpoint (List.mem_of_mem_take h)
      have hall : 'e' ∉ d.digitText.take whole ++ '.' :: d.digitText.drop whole := by
        simp only [List.mem_append, List.mem_cons, not_or]
        exact ⟨fun h => he (List.mem_of_mem_take h), by decide, fun h => he (List.mem_of_mem_drop h)⟩
      have hfraction : -((d.digitText.drop whole).length : Int) =
          d.scientificExponent - d.digitText.length + 1 := by
        rw [List.length_drop]
        omega
      rw [RealText.read_mantissa hall, RealText.mantissa_point htake, hfraction, List.take_append_drop,
        ofDigitChars_digitText]

theorem read_scientific : RealText.read d.scientific = d.value := by
  have hpoint : '.' ∉ d.digitText := d.not_mem_digitText (by decide)
  have he : 'e' ∉ d.digitText := d.not_mem_digitText (by decide)
  have hten : (10 : ℚ) ≠ 0 := by norm_num
  have hdigits := d.ofDigitChars_digitText
  rw [scientific, value_eq]
  rcases htext : d.digitText with _ | ⟨first, _ | ⟨second, rest⟩⟩ <;> dsimp only
  · have := d.length_digitText_pos
    simp [htext] at this
  · rw [htext] at hpoint he hdigits
    rw [RealText.read_exponent he, RealText.mantissa_whole hpoint, hdigits]
    simp
  · rw [htext] at hpoint he hdigits
    have hfirst : '.' ∉ [first] := fun h => hpoint (List.mem_append_left (second :: rest) h)
    have hall : 'e' ∉ [first] ++ '.' :: second :: rest := by
      simp only [List.mem_cons, not_or] at he
      simp [he]
    have hread := RealText.read_exponent hall d.scientificExponent
    rw [RealText.mantissa_point hfirst, List.singleton_append, List.singleton_append, hdigits,
      mul_assoc, ← zpow_add₀ hten] at hread
    refine hread.trans ?_
    congr 2
    simp only [List.length_cons]
    omega

/-- Whatever decimal a text shows, the text reads back as its value. -/
theorem read_render (range : PositionalRange) : RealText.read (d.render range) = d.value := by
  unfold render
  split
  · exact d.read_positional
  · exact d.read_scientific

/-! ## Characters -/

/-- Whether a character may stand in the text of a decimal. -/
def IsTextChar (c : Char) : Prop := c.isDigit = true ∨ c = '.' ∨ c = 'e' ∨ c = '-'

theorem toList_toString_ne_nil (e : Int) : (toString e).toList ≠ [] := by
  have htoString : toString e = e.repr := rfl
  rw [htoString, Int.repr_eq_if]
  split
  · rw [Nat.repr_eq_ofList_toDigits, String.toList_ofList]
    exact Nat.toDigits_ne_nil
  · simp

theorem isTextChar_of_mem_toString {e : Int} {c : Char} (h : c ∈ (toString e).toList) :
    c.isDigit = true ∨ c = '-' := by
  have hdigit {n : Nat} (h : c ∈ n.repr.toList) : c.isDigit = true := by
    rw [Nat.repr_eq_ofList_toDigits, String.toList_ofList] at h
    exact Nat.isDigit_of_mem_toDigits (by decide) (by decide) h
  have htoString : toString e = e.repr := rfl
  rw [htoString, Int.repr_eq_if] at h
  split at h
  · exact .inl (hdigit h)
  · rw [String.toList_append, List.mem_append] at h
    rcases h with h | h
    · exact .inr (List.mem_singleton.1 h)
    · exact .inl (hdigit h)

theorem isTextChar_of_mem_positional {c : Char} (h : c ∈ d.positional) : IsTextChar c := by
  have hdigit {c : Char} (h : c ∈ d.digitText) : IsTextChar c := .inl (d.isDigit_of_mem_digitText h)
  have hzero : IsTextChar '0' := .inl (by decide)
  have hpoint : IsTextChar '.' := .inr (.inl rfl)
  unfold positional at h
  dsimp only at h
  split at h
  next =>
    simp only [List.mem_cons, List.mem_append, List.mem_replicate] at h
    rcases h with rfl | rfl | ⟨-, rfl⟩ | h
    exacts [hzero, hpoint, hzero, hdigit h]
  next =>
    split at h
    next =>
      simp only [List.mem_cons, List.mem_append, List.mem_replicate, List.not_mem_nil, or_false] at h
      rcases h with (h | ⟨-, rfl⟩) | rfl | rfl
      exacts [hdigit h, hzero, hpoint, hzero]
    next =>
      simp only [List.mem_cons, List.mem_append] at h
      rcases h with h | rfl | h
      exacts [hdigit (List.mem_of_mem_take h), hpoint, hdigit (List.mem_of_mem_drop h)]

theorem isTextChar_of_mem_scientific {c : Char} (h : c ∈ d.scientific) : IsTextChar c := by
  have hdigit {c : Char} (h : c ∈ d.digitText) : IsTextChar c := .inl (d.isDigit_of_mem_digitText h)
  unfold scientific at h
  dsimp only at h
  simp only [List.mem_cons, List.mem_append] at h
  rcases h with h | rfl | h
  · split at h
    next first second rest htext =>
      rw [htext] at hdigit
      simp only [List.mem_cons] at h hdigit
      rcases h with rfl | rfl | rfl | h
      exacts [hdigit (.inl rfl), .inr (.inl rfl), hdigit (.inr (.inl rfl)), hdigit (.inr (.inr h))]
    next => exact hdigit h
  · exact .inr (.inr (.inl rfl))
  · rcases isTextChar_of_mem_toString h with h | h
    exacts [.inl h, .inr (.inr (.inr h))]

theorem isTextChar_of_mem_render {range : PositionalRange} {c : Char} (h : c ∈ d.render range) :
    IsTextChar c := by
  unfold render at h
  split at h
  · exact d.isTextChar_of_mem_positional h
  · exact d.isTextChar_of_mem_scientific h

/-- The text of a decimal begins with a digit. -/
theorem head_render (range : PositionalRange) :
    ∃ c cs, d.render range = c :: cs ∧ c.isDigit = true := by
  have hdigit {c : Char} (h : c ∈ d.digitText) : c.isDigit = true := d.isDigit_of_mem_digitText h
  rcases htext : d.digitText with _ | ⟨first, rest⟩
  · have := d.length_digitText_pos
    simp [htext] at this
  rw [htext] at hdigit
  have hfirst := hdigit List.mem_cons_self
  unfold render
  split
  · unfold positional
    rw [htext]
    dsimp only
    split
    · exact ⟨'0', _, rfl, by decide⟩
    · split
      · exact ⟨first, _, rfl, hfirst⟩
      · exact ⟨first, _, rfl, hfirst⟩
  · unfold scientific
    rw [htext]
    cases rest with
    | nil => exact ⟨first, _, rfl, hfirst⟩
    | cons second rest => exact ⟨first, _, rfl, hfirst⟩

/-- The text of a decimal shows a point or an exponent. -/
theorem mark_mem_render (range : PositionalRange) : '.' ∈ d.render range ∨ 'e' ∈ d.render range := by
  unfold render
  split
  · refine .inl ?_
    unfold positional
    dsimp only
    split
    · simp
    · split <;> simp
  · refine .inr ?_
    unfold scientific
    simp

end Decimal

end BlockCompiler
