import BlendGraph.Proofs.Number.FloatOrder
import BlendGraph.Proofs.Number.RoundedValues
import BlendGraph.Proofs.Toml.ScalarTexts

/-!
# Floats restored from their texts

A 32-bit float is written as the shortest decimal that rounds to it in the 64-bit format, where it
has its own value. So it is read again as the float that it was, whatever zeros stand at the end.
-/

set_option autoImplicit false

namespace BlendGraph.Number

open Float.Model UnpackedFloat

/-! ### The parts of a float -/

/-- The fields of a float, and the magnitude that they stand for. -/
theorem exists_fields (x : Float32) : ∃ field fraction : Nat,
    x.toBits.toNat % 2 ^ 31 = field * 2 ^ 23 + fraction ∧ field ≤ 255 ∧ fraction < 2 ^ 23 ∧
    magnitude? x = if field = 255 then none else if field = 0 then some ⟨fraction, -149⟩
      else some ⟨2 ^ 23 + fraction, (field : Int) - 150⟩ := by
  refine ⟨x.toBits.toNat % 2 ^ 31 / 2 ^ 23, x.toBits.toNat % 2 ^ 31 % 2 ^ 23, ?_, ?_, ?_, rfl⟩ <;>
    omega

theorem holds_of_magnitude {x : Float32} {d : Point} (h : magnitude? x = some d) :
    Grid.single.Holds d := by
  obtain ⟨field, fraction, -, hfield, hfraction, hmagnitude⟩ := exists_fields x
  rw [hmagnitude] at h
  split_ifs at h with hall hzero
  · obtain rfl := Option.some.inj h
    exact ⟨hfraction.trans (by decide), .inr rfl, Int.le_refl _, (by decide : (-149 : Int) ≤ 104)⟩
  · obtain rfl := Option.some.inj h
    refine ⟨?_, .inl (Nat.le_add_right ..), ?_, ?_⟩
    · change 2 ^ 23 + fraction < 2 ^ 24
      omega
    · change -149 ≤ (field : Int) - 150
      omega
    · change (field : Int) - 150 ≤ 104
      omega

theorem ofBits_eq {x : Float32} {low : Nat} (h : low = x.toBits.toNat % 2 ^ 31) :
    Float32.ofBits (UInt32.ofNat (low + if isNegative x then Nat.pow 2 31 else 0)) = x := by
  have hbound : x.toBits.toNat < 2 ^ 32 := x.toBits.toNat_lt
  have hbits : low + (if isNegative x then Nat.pow 2 31 else 0) = x.toBits.toNat := by
    change low + (if decide (2 ^ 31 ≤ x.toBits.toNat) = true then 2 ^ 31 else 0) = _
    simp only [decide_eq_true_eq]
    split_ifs <;> omega
  rw [hbits, UInt32.ofNat_toNat, Float32.ofBits_toBits]

/-- A float is put together from its own parts. -/
theorem ofMagnitude_magnitude {x : Float32} {d : Point} (h : magnitude? x = some d) :
    ofMagnitude (isNegative x) (some d) = x := by
  obtain ⟨field, fraction, hlow, hfield, hfraction, hmagnitude⟩ := exists_fields x
  rw [hmagnitude] at h
  refine ofBits_eq ?_
  rw [hlow]
  split_ifs at h with hall hzero
  · obtain rfl := Option.some.inj h
    change (if fraction < 2 ^ 23 then fraction else _) = _
    rw [if_pos hfraction, hzero, Nat.zero_mul, Nat.zero_add]
  · obtain rfl := Option.some.inj h
    change (if 2 ^ 23 + fraction < 2 ^ 23 then _
      else ((field : Int) - 150 + 150).toNat * 2 ^ 23 + (2 ^ 23 + fraction - 2 ^ 23)) = _
    rw [if_neg (by omega)]
    omega

theorem ofMagnitude_none {x : Float32} (h : magnitude? x = none) (hnan : x.isNaN = false) :
    ofMagnitude (isNegative x) none = x := by
  obtain ⟨field, fraction, hlow, hfield, hfraction, hmagnitude⟩ := exists_fields x
  rw [hmagnitude] at h
  refine ofBits_eq ?_
  rw [hlow]
  split_ifs at h with hall
  have hzero : fraction = 0 := by
    by_contra hsome
    have hexponent : @unpackExponent Format.binary32 x.toBits.toBitVec = -1#_ := by
      rw [← BitVec.toNat_inj, toNat_unpackExponent]
      change x.toBits.toNat % 2 ^ 31 / 2 ^ 23 = 255
      omega
    have hmantissa : @unpackMantissa Format.binary32 x.toBits.toBitVec ≠ 0#_ := by
      rw [Ne, ← BitVec.toNat_inj, toNat_unpackMantissa]
      change ¬ x.toBits.toNat % 2 ^ 23 = 0
      omega
    have hunpack : x.toModel.unpack = .notANumber := by
      change UnpackedFloat.unpack Format.binary32 x.toBits.toBitVec = _
      rw [UnpackedFloat.unpack, if_pos hexponent, if_neg hmantissa]
    rw [isNaN_iff.mpr hunpack] at hnan
    cases hnan
  rw [hall, hzero]
  rfl

/-- A number of the 32-bit format is one of the 64-bit format. -/
theorem Grid.Holds.widen {d : Point} (h : Grid.single.Holds d) :
    ∃ wide, Grid.double.Holds wide ∧ wide.value = d.value := by
  obtain ⟨m, e⟩ := d
  by_cases hm : m = 0
  · refine ⟨⟨0, -1074⟩, ⟨by decide, .inr rfl, by decide, by decide⟩, ?_⟩
    simp [Point.value, hm]
  · have hshort : m.log2 < 24 := (Nat.log2_lt hm).mpr h.short
    have hbottom : -149 ≤ e := h.bottom
    have htop : e ≤ 104 := h.top
    have hlow := Nat.log2_self_le hm
    have hhigh := Nat.lt_log2_self (n := m)
    refine ⟨⟨m * 2 ^ (52 - m.log2), e - (52 - m.log2 : Nat)⟩, ⟨?_, .inl ?_, ?_, ?_⟩, ?_⟩
    · have hpow : 2 ^ (m.log2 + 1) * 2 ^ (52 - m.log2) = 2 ^ 53 := by
        rw [← Nat.pow_add]
        congr 1
        omega
      exact hpow ▸ Nat.mul_lt_mul_of_pos_right hhigh (Nat.two_pow_pos _)
    · have hpow : 2 ^ m.log2 * 2 ^ (52 - m.log2) = 2 ^ 52 := by
        rw [← Nat.pow_add]
        congr 1
        omega
      exact hpow ▸ Nat.mul_le_mul_right _ hlow
    · change -1074 ≤ e - (52 - m.log2 : Nat)
      omega
    · change e - (52 - m.log2 : Nat) ≤ 971
      omega
    · simp only [Point.value]
      rw [zpow_sub₀ two_ne_zero, zpow_natCast, Nat.cast_mul, Nat.cast_pow, Nat.cast_ofNat]
      field_simp

end BlendGraph.Number

namespace BlendGraph

open Number

/-! ### Shortest decimals -/

namespace Decimal

theorem ofPoint_value (d : Point) : (ofPoint d).value = d.value := by
  obtain ⟨m, e⟩ := d
  by_cases he : 0 ≤ e
  · obtain ⟨k, rfl⟩ := Int.eq_ofNat_of_zero_le he
    simp [ofPoint, value, Point.value]
  · obtain ⟨k, rfl⟩ : ∃ k : Nat, e = -(k : Int) := ⟨(-e).toNat, by omega⟩
    have hten : (10 : ℚ) ^ k = 5 ^ k * 2 ^ k := by rw [← mul_pow]; norm_num
    simp only [ofPoint, value, Point.value, if_neg he]
    simp [hten]
    field_simp

theorem dropZeros_value (n : Nat) (d : Decimal) : (dropZeros n d).value = d.value := by
  induction n generalizing d with
  | zero => rfl
  | succ n ih =>
    rw [dropZeros]
    split
    · next h =>
      obtain ⟨k, hk⟩ := Nat.dvd_of_mod_eq_zero h.1
      rw [ih, value, value, hk, Nat.mul_div_cancel_left k (by decide), zpow_add_one₀ (by norm_num)]
      push_cast
      ring
    · rfl

theorem normalize_value (d : Decimal) : d.normalize.value = d.value := by
  rw [normalize]
  split
  · next h => simp [value, h]
  · exact dropZeros_value _ d

theorem dropZeros_digits_ne {n : Nat} {d : Decimal} (h : d.digits ≠ 0) :
    (dropZeros n d).digits ≠ 0 := by
  induction n generalizing d with
  | zero => exact h
  | succ n ih =>
    rw [dropZeros]
    split
    · next hd =>
      refine ih ?_
      change d.digits / 10 ≠ 0
      omega
    · exact h

theorem normalize_exponent {d : Decimal} (h : d.normalize.digits = 0) :
    d.normalize.exponent = 0 := by
  rw [normalize] at h ⊢
  split at h
  · next hd => rw [if_pos hd]
  · next hd => exact absurd h (dropZeros_digits_ne hd)

theorem readsBack_of_neighbour? {g : Grid} {tie : Tie} {d : Point} {e : Int} {c : Decimal}
    (h : neighbour? g tie d e = some c) : ReadsBack g d c := by
  rw [neighbour?] at h
  dsimp only at h
  split at h
  · next hlow =>
    split at h
    · next hhigh =>
      split at h
      · exact Option.some.inj h ▸ hlow
      · exact Option.some.inj h ▸ hhigh
      · exact Option.some.inj h ▸ hhigh
      · split at h
        · exact Option.some.inj h ▸ hlow
        · exact Option.some.inj h ▸ hhigh
    · exact Option.some.inj h ▸ hlow
  · split at h
    · next hhigh => exact Option.some.inj h ▸ hhigh
    · cases h

/-- The shortest decimal reads back: it has been found to do so, or has the value of the point. -/
theorem readsBack_shortest {g : Grid} {d : Point} (h : g.Holds d) (tie : Tie) :
    ReadsBack g d (shortest g tie d) := by
  rw [shortest, ReadsBack, round_congr (normalize_value _)]
  cases hfound : (List.range 17).findSome? fun (n : Nat) =>
      neighbour? g tie d (decimalOrder d.quotient.1 d.quotient.2 - n) with
  | none =>
    obtain ⟨hden, hvalue⟩ := (ofPoint d).quotient_value
    exact h.round hden (hvalue.trans (ofPoint_value d))
  | some c =>
    obtain ⟨n, -, hc⟩ := List.exists_of_findSome?_eq_some hfound
    exact readsBack_of_neighbour? hc

theorem pointed_value (d : Decimal) : d.pointed.value = d.value := by
  rw [pointed]
  split
  · next h =>
    obtain ⟨k, hk⟩ := Int.eq_ofNat_of_zero_le h
    rw [value, value, hk]
    simp
    ring
  · rfl

end Decimal

namespace TomlFloat

/-- The float that is read when this one has been written. -/
def reread : TomlFloat → TomlFloat
  | finite n => finite ⟨n.negative, n.magnitude.pointed, false⟩
  | infinite negative => infinite negative
  | nan => nan

end TomlFloat

/-- A finite float is written as a decimal that reads back, in the 64-bit format, as the point with
the value of the float. -/
theorem TomlFloat.exists_ofSingle_eq {x : Float32} {d : Point} (h : magnitude? x = some d) :
    ∃ c wide, ofSingle x = finite ⟨isNegative x, c, false⟩ ∧ (c.digits = 0 → c.exponent ≤ 0) ∧
      wide.value = d.value ∧ Decimal.ReadsBack .double wide c := by
  obtain ⟨wide, hwide, hvalue⟩ := (holds_of_magnitude h).widen
  have hround : Grid.double.round d.quotient.1 d.quotient.2 = some wide :=
    hwide.round d.quotient_value.1 (d.quotient_value.2.trans hvalue.symm)
  have heq : ofSingle x = finite ⟨isNegative x,
      if d.significand = 0 then ⟨0, 0⟩ else .shortest .double .up wide, false⟩ := by
    rw [ofSingle, h]
    dsimp only
    rw [hround]
    rfl
  by_cases hzero : d.significand = 0
  · rw [if_pos hzero] at heq
    have hnone : ((0 : Nat) : ℚ) / (1 : Nat) = wide.value := by
      rw [hvalue, Point.value, hzero]
      simp
    exact ⟨⟨0, 0⟩, wide, heq, fun _ => Int.le_refl 0, hvalue, hwide.round Nat.one_pos hnone⟩
  · rw [if_neg hzero] at heq
    exact ⟨_, wide, heq, fun h => (Decimal.normalize_exponent h).le, hvalue,
      Decimal.readsBack_shortest hwide .up⟩

/-- A float that is a number is read again as it was. -/
theorem TomlFloat.restores_ofSingle {x : Float32} (h : x.isNaN = false) :
    (ofSingle x).reread.toSingle = x ∧
      Toml.Rereads (.float (ofSingle x)) (.float (ofSingle x).reread) := by
  cases hmagnitude : magnitude? x with
  | none =>
    have heq : ofSingle x = infinite (isNegative x) := by
      rw [ofSingle, hmagnitude, h]
      rfl
    rw [heq]
    exact ⟨ofMagnitude_none hmagnitude h, Toml.rereads_infinite _⟩
  | some d =>
    have hd := holds_of_magnitude hmagnitude
    obtain ⟨c, wide, heq, hzero, hwide, hback⟩ := exists_ofSingle_eq hmagnitude
    have hround : Numeral.round .double ⟨isNegative x, c.pointed, false⟩ = some wide := by
      rw [Numeral.round_double]
      exact (Decimal.round_congr c.pointed_value).trans hback
    have hsingle : Grid.single.round wide.quotient.1 wide.quotient.2 = some d :=
      hd.round wide.quotient_value.1 (wide.quotient_value.2.trans hwide)
    have hfits : Numeral.fitsDouble ⟨isNegative x, c.pointed, false⟩ = true := by
      rw [Numeral.fitsDouble, hround]
      rfl
    rw [heq]
    refine ⟨?_, Toml.rereads_finite hzero hfits⟩
    change Numeral.toSingleByDouble ⟨isNegative x, c.pointed, false⟩ = x
    rw [Numeral.toSingleByDouble, hround, Option.bind_some, hsingle]
    exact ofMagnitude_magnitude hmagnitude

end BlendGraph
