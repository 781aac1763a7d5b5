import BlendGraph.Namespace
import BlendGraph.Proofs.Naming.GeneratedNames
import BlendGraph.Proofs.Number.ScalarLaws

/-!
# Telling clips apart

The name of a generated clip tells the role of the clip, its bit and its value, but of the parameter
no more than the name without separators.
-/

set_option autoImplicit false

namespace BlendGraph

theorem plus_notMem_toString (n : Nat) : '+' ∉ (toString n).toList := by
  intro h
  rw [Nat.toString_eq_repr, Nat.toList_repr] at h
  exact absurd (Nat.isDigit_of_mem_toDigits (by decide) (by decide) h) (by decide)

theorem toString_injective {m n : Nat} (h : toString m = toString n) : m = n := by
  have hdigits : Nat.toDigits 10 m = Nat.toDigits 10 n := by
    simpa [Nat.toString_eq_repr, Nat.toList_repr] using congrArg String.toList h
  rw [← Nat.ofDigitChars_toDigits (b := 10) (n := m) (by decide) (by decide), hdigits,
    Nat.ofDigitChars_toDigits (by decide) (by decide)]

namespace ClipName

variable {α : Type} [Scalar α]

/-- The text between the separators that says whether a bit is set. -/
def stateText (set : Bool) : String := if set then "True" else "False"

theorem toList_decoder (parameter : String) (set : Bool) (i : Nat) (weight : α) (host : String) :
    (decoder parameter set i weight host).toList
      = ((((withoutSeparators parameter).toList ++ '+' :: (stateText set).toList)
          ++ '+' :: (toString i).toList) ++ '+' :: (Scalar.text weight).toList)
        ++ (decoderEnd host).toList := by
  cases set <;> simp [decoder, stateText]

variable [LawfulScalar α]

/-- A decoder's clip name tells the bit, its state and its value. -/
theorem decoder_inj {x y : String} {s t : Bool} {i j : Nat} {v w : α} {host : String}
    (h : decoder x s i v host = decoder y t j w host) :
    withoutSeparators x = withoutSeparators y ∧ s = t ∧ i = j ∧
      Scalar.text v = Scalar.text w := by
  have hlist := congrArg String.toList h
  rw [toList_decoder, toList_decoder, List.append_cancel_right_eq] at hlist
  obtain ⟨hlist, htext⟩ := append_cons_inj_right (LawfulScalar.plus_notMem_text v)
    (LawfulScalar.plus_notMem_text w) hlist
  obtain ⟨hlist, hbit⟩ := append_cons_inj_right (plus_notMem_toString i)
    (plus_notMem_toString j) hlist
  have hplain : ∀ s, '+' ∉ (stateText s).toList := by decide
  obtain ⟨hname, hstate⟩ := append_cons_inj_right (hplain s) (hplain t) hlist
  refine ⟨String.toList_injective hname, ?_, toString_injective (String.toList_injective hbit),
    String.toList_injective htext⟩
  have hstates : ∀ s t, (stateText s).toList = (stateText t).toList → s = t := by decide
  exact hstates s t hstate

theorem toList_smoother (parameter : String) (high : Bool) (host : String) :
    (smoother parameter (Filter.bound high : α) host).toList
      = (((withoutSeparators parameter).toList ++ ['-']) ++ [if high then '+' else '-'])
        ++ ((Scalar.text (Scalar.abs (1 : α))).toList ++ (smootherEnd host).toList) := by
  cases high with
  | false =>
    change (smoother parameter (-1 : α) host).toList = _
    rw [smoother, if_pos ⟨LawfulScalar.neg_one_le_zero, LawfulScalar.not_zero_le_neg_one⟩,
      LawfulScalar.text_abs_neg_one]
    simp
  | true =>
    change (smoother parameter (1 : α) host).toList = _
    rw [smoother, if_neg fun h => h.2 LawfulScalar.zero_le_one]
    simp

/-- A filter's clip name tells the bound. -/
theorem smoother_inj {x y : String} {low high : Bool} {host : String}
    (h : smoother x (Filter.bound low : α) host = smoother y (Filter.bound high : α) host) :
    withoutSeparators x = withoutSeparators y ∧ low = high := by
  have hlist := congrArg String.toList h
  rw [toList_smoother, toList_smoother, List.append_cancel_right_eq] at hlist
  obtain ⟨hname, hsign⟩ := List.append_inj' hlist rfl
  refine ⟨String.toList_injective (List.append_cancel_right hname), ?_⟩
  cases low <;> cases high <;> simp_all

omit [LawfulScalar α] in
theorem smoother_ne_decoder {x y : String} {bound : α} {s : Bool} {i : Nat} {w : α}
    {host : String} : smoother x bound host ≠ decoder y s i w host := by
  intro h
  have hlist := congrArg String.toList h
  simp only [smoother, decoder, smootherEnd, decoderEnd, String.toList_append,
    ← List.append_assoc, List.append_cancel_right_eq] at hlist
  have hsmoother : "-Smoother-".toList = "-Smoother".toList ++ ['-'] := by decide
  rw [hsmoother, ← List.append_assoc] at hlist
  have hlast := (List.append_inj' hlist rfl).2
  exact absurd hlast (by decide)

end ClipName

end BlendGraph
