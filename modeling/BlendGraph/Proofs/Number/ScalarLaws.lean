import BlendGraph.Decoder

/-!
# Laws of numbers

What generated layers ask of a number type: the bounds of filters and the weights of decoders are
finite, in order, and told apart by their texts. Both number types obey these laws.
-/

set_option autoImplicit false

namespace BlendGraph

/-! ### Texts of floats -/

namespace Decimal

theorem mem_insertPoint {digits : List Char} {places : Nat} {c : Char}
    (h : c ∈ insertPoint digits places) : c ∈ digits ∨ c = '0' ∨ c = '.' := by
  have padded : c ∈ List.replicate (places + 1 - digits.length) '0' ++ digits →
      c ∈ digits ∨ c = '0' ∨ c = '.' := by
    intro h
    rcases List.mem_append.mp h with h | h
    · exact .inr (.inl (List.eq_of_mem_replicate h))
    · exact .inl h
  unfold insertPoint at h
  dsimp only at h
  split at h
  · exact padded h
  · rcases List.mem_append.mp h with h | h
    · exact padded (List.mem_of_mem_take h)
    · rcases List.mem_cons.mp h with h | h
      · exact .inr (.inr h)
      · exact padded (List.mem_of_mem_drop h)

/-- A positional text has digits and points only. -/
theorem mem_positional {d : Decimal} {c : Char} (h : c ∈ d.positional.toList) :
    c.isDigit = true ∨ c = '.' := by
  have hdigits : c ∈ Nat.toDigits 10 d.digits → c.isDigit = true :=
    Nat.isDigit_of_mem_toDigits (by decide) (by decide)
  unfold positional at h
  dsimp only at h
  split at h
  · rw [String.toList_ofList, List.mem_append] at h
    rcases h with h | h
    · exact .inl (hdigits h)
    · rw [List.eq_of_mem_replicate h]
      decide
  · rw [String.toList_ofList] at h
    rcases mem_insertPoint h with h | rfl | rfl
    · exact .inl (hdigits h)
    · decide
    · decide

end Decimal

namespace Number

theorem plus_notMem_text (x : Float32) : '+' ∉ (text x).toList := by
  have hsign : ∀ b, '+' ∉ (signText b).toList := by decide
  unfold text
  split
  · rw [String.toList_append, List.mem_append, not_or]
    refine ⟨hsign _, fun h => ?_⟩
    rcases Decimal.mem_positional h with h | h <;> exact absurd h (by decide)
  · split
    · decide
    · rw [String.toList_append, List.mem_append, not_or]
      exact ⟨hsign _, by decide⟩

/-- The text of a negative number has a sign, and no other text does. -/
theorem text_ne {x y : Float32} (hx : isNegative x = false) (hy : isNegative y = true)
    (hfinite : (magnitude? y).isSome = true) : text x ≠ text y := by
  have hminus : '-' ∈ (text y).toList := by
    obtain ⟨d, hd⟩ := Option.isSome_iff_exists.mp hfinite
    simp [text, hd, hy, signText]
  have hplain : '-' ∉ (text x).toList := by
    unfold text
    rw [hx]
    split
    · rw [String.toList_append, List.mem_append, not_or]
      refine ⟨by decide, fun h => ?_⟩
      rcases Decimal.mem_positional h with h | h <;> exact absurd h (by decide)
    · split <;> decide
  intro heq
  exact hplain (heq ▸ hminus)

/-- The float with whose text a rational is written. -/
def ofRat (q : Rat) : Float32 := nearest (decide (q < 0)) q.num.natAbs q.den

end Number

/-! ### The laws -/

variable {α : Type} [Scalar α]

/-- A bound of a filter's input. -/
def Filter.bound (high : Bool) : α := if high then 1 else -1

namespace Decoder

/-- The value that a bit of a weight adds when it is set. -/
def signed (negative : Bool) (weight : α) : α := (if negative then -1 else 1) * weight

/-- The weight of bit `i` among `k` bits, with its sign. -/
def signedWeight (k i : Nat) (negative : Bool) : α :=
  signed negative (Scalar.ratio (Nat.pow 2 i) (Nat.pow 2 k - 1))

/-- What a bit adds: nothing while it is not set, its weight with a sign while it is. -/
def stateValue (k i : Nat) (state : Option Bool) : α :=
  match state with
  | none => 0
  | some negative => signedWeight k i negative

end Decoder

class LawfulScalar (α : Type) [Scalar α] : Prop where
  zero_le_one : (0 : α) ≤ 1
  neg_one_le_zero : (-1 : α) ≤ 0
  neg_one_le_one : (-1 : α) ≤ 1
  not_zero_le_neg_one : ¬ (0 : α) ≤ -1
  isFinite_zero : Scalar.isFinite (0 : α) = true
  isFinite_one : Scalar.isFinite (1 : α) = true
  isFinite_neg_one : Scalar.isFinite (-1 : α) = true
  isFinite_weight : ∀ k ≤ maxBits, ∀ i < k, ∀ negative,
    Scalar.isFinite (Decoder.signedWeight k i negative : α) = true
  plus_notMem_text : ∀ a : α, '+' ∉ (Scalar.text a).toList
  text_abs_neg_one : Scalar.text (Scalar.abs (-1 : α)) = Scalar.text (Scalar.abs (1 : α))
  text_weight_ne : ∀ k ≤ maxBits, ∀ i < k, Scalar.text (Decoder.signedWeight k i false : α)
    ≠ Scalar.text (Decoder.signedWeight k i true : α)

instance : LawfulScalar Float32 where
  zero_le_one := by decide +kernel
  neg_one_le_zero := by decide +kernel
  neg_one_le_one := by decide +kernel
  not_zero_le_neg_one := by decide +kernel
  isFinite_zero := by decide +kernel
  isFinite_one := by decide +kernel
  isFinite_neg_one := by decide +kernel
  isFinite_weight := by decide +kernel
  plus_notMem_text := Number.plus_notMem_text
  text_abs_neg_one := by decide +kernel
  text_weight_ne := by
    have hsigns : ∀ k ≤ maxBits, ∀ i < k,
        Number.isNegative (Decoder.signedWeight k i false : Float32) = false ∧
        Number.isNegative (Decoder.signedWeight k i true : Float32) = true ∧
        (Number.magnitude? (Decoder.signedWeight k i true : Float32)).isSome = true := by
      decide +kernel
    intro k hk i hi
    obtain ⟨hpositive, hnegative, hfinite⟩ := hsigns k hk i hi
    exact Number.text_ne hpositive hnegative hfinite

instance : LawfulScalar Rat where
  zero_le_one := by decide +kernel
  neg_one_le_zero := by decide +kernel
  neg_one_le_one := by decide +kernel
  not_zero_le_neg_one := by decide +kernel
  isFinite_zero := rfl
  isFinite_one := rfl
  isFinite_neg_one := rfl
  isFinite_weight _ _ _ _ _ := rfl
  plus_notMem_text _ := Number.plus_notMem_text _
  text_abs_neg_one := by decide +kernel
  text_weight_ne := by
    have hsigns : ∀ k ≤ maxBits, ∀ i < k,
        Number.isNegative (Number.ofRat (Decoder.signedWeight k i false)) = false ∧
        Number.isNegative (Number.ofRat (Decoder.signedWeight k i true)) = true ∧
        (Number.magnitude? (Number.ofRat (Decoder.signedWeight k i true))).isSome = true := by
      decide +kernel
    intro k hk i hi
    obtain ⟨hpositive, hnegative, hfinite⟩ := hsigns k hk i hi
    exact Number.text_ne hpositive hnegative hfinite

end BlendGraph
