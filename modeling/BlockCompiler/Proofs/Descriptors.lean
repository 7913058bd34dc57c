import BlockCompiler.CodeGen.Expr

/-!
# Descriptors tell types apart

Descriptors are written one after the other with nothing between them, so they must say themselves
where they end.  `Ty.descriptorChars_append_inj` says that they do: of two texts that begin with a
descriptor, equal texts begin with descriptors of one type.

* `Ty.descriptorChars_prefix_iff` and `Ty.descriptorCharsAll_inj` follow: no descriptor is the beginning
  of another, and a row of descriptors can be read in one way only.
* The descriptor of a signature is that of its type without the leading letter
  (`Signature.descriptor_toTy`), so it tells just as much.
* A wrapper's key is a descriptor, a colon and a source text, and determines both
  (`Gen.wrapperKey_inj`), whatever the text is.

`descriptors_tell_types_apart` collects them.
-/

namespace BlockCompiler

namespace Ty

mutual

/-- A text begins with the descriptor of at most one type. -/
theorem descriptorChars_append_inj : ∀ (t u : Ty) {rest rest' : List Char},
    t.descriptorChars ++ rest = u.descriptorChars ++ rest' → t = u ∧ rest = rest'
  | fn params result, u, rest, rest', h => by
    cases u with
    | fn params' result' =>
      simp only [descriptorChars, List.cons_append, List.cons.injEq, true_and,
        List.append_assoc] at h
      obtain ⟨rfl, hresult⟩ := descriptorCharsAll_append_inj params params' h
      obtain ⟨rfl, hrest⟩ := descriptorChars_append_inj result result' hresult
      exact ⟨rfl, hrest⟩
    | _ => simp [descriptorChars] at h
  | int, u, rest, rest', h => by cases u <;> simp_all [descriptorChars]
  | real, u, rest, rest', h => by cases u <;> simp_all [descriptorChars]
  | bool, u, rest, rest', h => by cases u <;> simp_all [descriptorChars]
  | string, u, rest, rest', h => by cases u <;> simp_all [descriptorChars]
  | unit, u, rest, rest', h => by cases u <;> simp_all [descriptorChars]
  | intPair, u, rest, rest', h => by cases u <;> simp_all [descriptorChars]
  | realPair, u, rest, rest', h => by cases u <;> simp_all [descriptorChars]

/-- A text begins with the descriptors of at most one list of types and then a closing
parenthesis. -/
theorem descriptorCharsAll_append_inj : ∀ (ts us : List Ty) {rest rest' : List Char},
    descriptorCharsAll ts ++ ')' :: rest = descriptorCharsAll us ++ ')' :: rest' →
      ts = us ∧ rest = rest'
  | [], [], rest, rest', h => by simpa [descriptorCharsAll] using h
  | [], u :: us, rest, rest', h => by cases u <;> simp [descriptorCharsAll, descriptorChars] at h
  | t :: ts, [], rest, rest', h => by cases t <;> simp [descriptorCharsAll, descriptorChars] at h
  | t :: ts, u :: us, rest, rest', h => by
    simp only [descriptorCharsAll, List.append_assoc] at h
    obtain ⟨rfl, htail⟩ := descriptorChars_append_inj t u h
    obtain ⟨rfl, hrest⟩ := descriptorCharsAll_append_inj ts us htail
    exact ⟨rfl, hrest⟩

end

@[simp] theorem toList_descriptor (t : Ty) : t.descriptor.toList = t.descriptorChars := by
  simp [descriptor]

theorem descriptorChars_prefix_iff {t u : Ty} :
    t.descriptorChars <+: u.descriptorChars ↔ t = u := by
  constructor
  · rintro ⟨rest, h⟩
    rw [← List.append_nil u.descriptorChars] at h
    exact (descriptorChars_append_inj t u h).1
  · rintro rfl
    exact List.prefix_refl _

theorem descriptor_inj {t u : Ty} : t.descriptor = u.descriptor ↔ t = u := by
  constructor
  · intro h
    have hchars : t.descriptorChars = u.descriptorChars := by
      rw [← toList_descriptor t, h, toList_descriptor u]
    exact descriptorChars_prefix_iff.1 (hchars ▸ List.prefix_refl _)
  · rintro rfl
    rfl

/-- The descriptors of a list can be read in one way only, though nothing stands between them. -/
theorem descriptorCharsAll_inj {ts us : List Ty} :
    descriptorCharsAll ts = descriptorCharsAll us ↔ ts = us := by
  constructor
  · intro h
    exact (descriptorCharsAll_append_inj ts us (congrArg (· ++ [')']) h)).1
  · rintro rfl
    rfl

end Ty

/-- The descriptor of a function value is that of the function after the letter of function types. -/
theorem Signature.descriptor_toTy (s : Signature) : s.toTy.descriptor = "F" ++ s.descriptor := by
  rw [← String.toList_inj, String.toList_append]
  simp [toTy, descriptor, Ty.methodDescriptor, Ty.methodChars, Ty.descriptorChars]

theorem Signature.descriptor_eq_iff {s t : Signature} :
    s.descriptor = t.descriptor ↔ s.toTy = t.toTy := by
  rw [← Ty.descriptor_inj, descriptor_toTy, descriptor_toTy]
  simp

/-- The key of a wrapper determines the expected type and the text of the constant. -/
theorem Gen.wrapperKey_inj {t u : Ty} {text text' : String}
    (h : wrapperKey t text = wrapperKey u text') : t = u ∧ text = text' := by
  have hchars : t.descriptorChars ++ (":".toList ++ text.toList) =
      u.descriptorChars ++ (":".toList ++ text'.toList) := by
    have := congrArg String.toList h
    simpa [wrapperKey, Ty.descriptor] using this
  obtain ⟨rfl, hrest⟩ := Ty.descriptorChars_append_inj t u hchars
  exact ⟨rfl, String.toList_inj.1 (List.append_cancel_left hrest)⟩

/-- Descriptors confuse no two types.

Types with one descriptor are equal, and so are types of which the one's descriptor is the beginning of the
other's; a list of types is known from its descriptors without anything between them.  The descriptors of two
signatures are equal just if their types as values are.  The key of a wrapper determines the expected type
and the source text, also a text with colons in it. -/
theorem descriptors_tell_types_apart :
    (∀ t u : Ty, t.descriptor = u.descriptor ↔ t = u) ∧
    (∀ t u : Ty, t.descriptor.toList <+: u.descriptor.toList ↔ t = u) ∧
    (∀ ts us : List Ty, ts.flatMap (·.descriptor.toList) = us.flatMap (·.descriptor.toList) ↔ ts = us) ∧
    (∀ s t : Signature, s.descriptor = t.descriptor ↔ s.toTy = t.toTy) ∧
    ∀ (t u : Ty) (text text' : String),
      Gen.wrapperKey t text = Gen.wrapperKey u text' ↔ t = u ∧ text = text' := by
  have hall (ts : List Ty) : ts.flatMap (·.descriptor.toList) = Ty.descriptorCharsAll ts := by
    induction ts with
    | nil => rfl
    | cons t ts ih => rw [List.flatMap_cons, ih, Ty.toList_descriptor, Ty.descriptorCharsAll]
  refine ⟨fun t u => Ty.descriptor_inj, fun t u => ?_, fun ts us => ?_,
    fun s t => Signature.descriptor_eq_iff, fun t u text text' => ⟨Gen.wrapperKey_inj, ?_⟩⟩
  · rw [Ty.toList_descriptor, Ty.toList_descriptor, Ty.descriptorChars_prefix_iff]
  · rw [hall, hall, Ty.descriptorCharsAll_inj]
  · rintro ⟨rfl, rfl⟩
    rfl

/-- The text of a constant may contain a colon without being taken for a part of the type. -/
example : Gen.wrapperKey (.fn [.real] .int) "f:1" = "F(R)I:f:1" := by decide +kernel

end BlockCompiler
