import BlendGraph.Number.Decimal
import Mathlib

/-!
# Rounding by value

The point that a quotient is rounded to depends on the value of the quotient only, and a number of
the grid is rounded to itself. So a decimal is rounded in the same way however it is written.
-/

set_option autoImplicit false

namespace BlendGraph.Number

/-! ### Quotients -/

theorem roundDiv_mul_right (num den : Nat) {k : Nat} (hk : 0 < k) :
    roundDiv (num * k) (den * k) = roundDiv num den := by
  have hcompare : compare (2 * (num % den * k)) (den * k) = compare (2 * (num % den)) den := by
    rw [← Nat.mul_assoc]
    simp only [compare, compareOfLessAndEq, Nat.mul_lt_mul_right hk, Nat.mul_left_inj hk.ne']
  rw [roundDiv, roundDiv, Nat.mul_div_mul_right _ _ hk, Nat.mul_mod_mul_right, hcompare]

theorem roundDiv_congr {a b c d : Nat} (hb : 0 < b) (hd : 0 < d) (h : (a : ℚ) / b = c / d) :
    roundDiv a b = roundDiv c d := by
  have hcross : a * d = c * b := by
    rw [div_eq_div_iff (by positivity) (by positivity)] at h
    exact_mod_cast h
  rw [← roundDiv_mul_right a b hd, hcross, Nat.mul_comm b d, roundDiv_mul_right c d hb]

theorem roundDiv_of_small {num den : Nat} (h : 2 * num < den) : roundDiv num den = 0 := by
  have hlt : num < den := by omega
  rw [roundDiv, Nat.mod_eq_of_lt hlt, Nat.compare_eq_lt.mpr h]
  exact Nat.div_eq_of_lt hlt

theorem scale_value (num : Nat) {base den : Nat} (hbase : 0 < base) (hden : 0 < den) (e : Int) :
    0 < (scale base num den e).2 ∧
      ((scale base num den e).1 : ℚ) / (scale base num den e).2 = num / den / (base : ℚ) ^ e := by
  have hbase' : (base : ℚ) ≠ 0 := by positivity
  by_cases he : 0 ≤ e
  · obtain ⟨n, rfl⟩ := Int.eq_ofNat_of_zero_le he
    simp only [scale, if_pos he]
    refine ⟨Nat.mul_pos hden (Nat.pow_pos hbase), ?_⟩
    simp [div_div]
  · obtain ⟨n, hn⟩ : ∃ n : Nat, e = -(n : Int) := ⟨(-e).toNat, by omega⟩
    subst hn
    simp only [scale, if_neg he]
    refine ⟨hden, ?_⟩
    simp
    ring

/-! ### The order of magnitude -/

theorem log_eq {q : ℚ} {k : Int} (hle : (2 : ℚ) ^ k ≤ q) (hlt : q < (2 : ℚ) ^ (k + 1)) :
    Int.log 2 q = k := by
  have hq : 0 < q := lt_of_lt_of_le (zpow_pos two_pos k) hle
  have hlow := (Int.zpow_le_iff_le_log (b := 2) Nat.one_lt_two hq).mp hle
  have hhigh := (Int.lt_zpow_iff_log_lt (b := 2) Nat.one_lt_two hq).mp hlt
  omega

/-- The order of a quotient is the logarithm of its value. -/
theorem binaryOrder_eq {num den : Nat} (hnum : 0 < num) (hden : 0 < den) :
    binaryOrder num den = Int.log 2 ((num : ℚ) / den) := by
  have hden' : (0 : ℚ) < den := Nat.cast_pos.mpr hden
  let k : Int := (num.log2 : Int) - (den.log2 : Int)
  have hnumlow : (2 : ℚ) ^ num.log2 ≤ num := by exact_mod_cast Nat.log2_self_le hnum.ne'
  have hnumhigh : (num : ℚ) < 2 ^ (num.log2 + 1) := by exact_mod_cast Nat.lt_log2_self
  have hdenlow : (2 : ℚ) ^ den.log2 ≤ den := by exact_mod_cast Nat.log2_self_le hden.ne'
  have hdenhigh : (den : ℚ) < 2 ^ (den.log2 + 1) := by exact_mod_cast Nat.lt_log2_self
  have hlow : (2 : ℚ) ^ (k - 1) ≤ num / den := by
    rw [le_div_iff₀ hden']
    have hsplit : (2 : ℚ) ^ (k - 1) * 2 ^ (den.log2 + 1) = 2 ^ num.log2 := by
      rw [← zpow_natCast, ← zpow_natCast, ← zpow_add₀ two_ne_zero]
      congr 1
      push_cast
      ring
    calc (2 : ℚ) ^ (k - 1) * den
        ≤ 2 ^ (k - 1) * 2 ^ (den.log2 + 1) :=
          mul_le_mul_of_nonneg_left hdenhigh.le (zpow_nonneg zero_le_two _)
      _ ≤ num := hsplit.trans_le hnumlow
  have hhigh : (num : ℚ) / den < 2 ^ (k + 1) := by
    rw [div_lt_iff₀ hden']
    have hsplit : (2 : ℚ) ^ (k + 1) * 2 ^ den.log2 = 2 ^ (num.log2 + 1) := by
      rw [← zpow_natCast, ← zpow_natCast, ← zpow_add₀ two_ne_zero]
      congr 1
      push_cast
      ring
    calc (num : ℚ) < 2 ^ (num.log2 + 1) := hnumhigh
      _ = 2 ^ (k + 1) * 2 ^ den.log2 := hsplit.symm
      _ ≤ 2 ^ (k + 1) * den := mul_le_mul_of_nonneg_left hdenlow (zpow_nonneg zero_le_two _)
  obtain ⟨hpos, hscale⟩ := scale_value num Nat.two_pos hden k
  have htest : (scale 2 num den k).2 ≤ (scale 2 num den k).1 ↔ (2 : ℚ) ^ k ≤ num / den := by
    have hpos' : (0 : ℚ) < (scale 2 num den k).2 := Nat.cast_pos.mpr hpos
    rw [← Nat.cast_le (α := ℚ), ← one_le_div hpos', hscale, Nat.cast_ofNat,
      one_le_div (zpow_pos two_pos k)]
  change (if (scale 2 num den k).2 ≤ (scale 2 num den k).1 then k else k - 1) = _
  split
  · next h => exact (log_eq (htest.mp h) hhigh).symm
  · next h =>
    have hlt := not_le.mp (mt htest.mpr h)
    exact (log_eq hlow (by rwa [Int.sub_add_cancel])).symm

/-! ### Points -/

def Point.value (d : Point) : ℚ := d.significand * 2 ^ d.exponent

theorem Point.quotient_value (d : Point) :
    0 < d.quotient.2 ∧ (d.quotient.1 : ℚ) / d.quotient.2 = d.value := by
  obtain ⟨m, e⟩ := d
  by_cases he : 0 ≤ e
  · obtain ⟨n, rfl⟩ := Int.eq_ofNat_of_zero_le he
    simp [quotient, value]
  · obtain ⟨n, rfl⟩ : ∃ n : Nat, e = -(n : Int) := ⟨(-e).toNat, by omega⟩
    simp only [quotient, value, if_neg he]
    simp [div_eq_mul_inv]

/-- The point is one of the grid, with as long a significand as its exponent allows. -/
structure Grid.Holds (g : Grid) (d : Point) : Prop where
  short : d.significand < 2 ^ g.precision
  full : 2 ^ (g.precision - 1) ≤ d.significand ∨ d.exponent = g.bottom
  bottom : g.bottom ≤ d.exponent
  top : d.exponent ≤ g.top

variable {g : Grid}

/-- The exponent of the point that a number of this order is rounded to, if its significand does not
grow too long. -/
def Grid.exponentOf (g : Grid) (order : Int) : Int :=
  max (order - ((g.precision : Int) - 1)) g.bottom

theorem Grid.round_eq {num den : Nat} (hnum : num ≠ 0) :
    g.round num den =
      let e := g.exponentOf (binaryOrder num den)
      let m := roundDiv (scale 2 num den e).1 (scale 2 num den e).2
      let r : Point := if m = 2 ^ g.precision then ⟨m / 2, e + 1⟩ else ⟨m, e⟩
      if r.exponent ≤ g.top then some r else none :=
  if_neg hnum

/-- A quotient is rounded by its value. -/
theorem Grid.round_congr {a b c d : Nat} (hb : 0 < b) (hd : 0 < d) (h : (a : ℚ) / b = c / d) :
    g.round a b = g.round c d := by
  have hb' : (b : ℚ) ≠ 0 := Nat.cast_ne_zero.mpr hb.ne'
  have hd' : (d : ℚ) ≠ 0 := Nat.cast_ne_zero.mpr hd.ne'
  have hzero : a = 0 ↔ c = 0 := by
    have ha : (a : ℚ) / b = 0 ↔ a = 0 := by simp [hb']
    have hc : (c : ℚ) / d = 0 ↔ c = 0 := by simp [hd']
    rw [← ha, ← hc, h]
  by_cases ha : a = 0
  · rw [ha, hzero.mp ha, round_zero, round_zero]
  · have hc : c ≠ 0 := mt hzero.mpr ha
    have horder : binaryOrder a b = binaryOrder c d := by
      rw [binaryOrder_eq (Nat.pos_of_ne_zero ha) hb, binaryOrder_eq (Nat.pos_of_ne_zero hc) hd, h]
    have hround (e : Int) : roundDiv (scale 2 a b e).1 (scale 2 a b e).2
        = roundDiv (scale 2 c d e).1 (scale 2 c d e).2 := by
      obtain ⟨hpos, hvalue⟩ := scale_value a Nat.two_pos hb e
      obtain ⟨hpos', hvalue'⟩ := scale_value c Nat.two_pos hd e
      exact roundDiv_congr hpos hpos' (by rw [hvalue, hvalue', h])
    rw [round_eq ha, round_eq hc, horder]
    simp only [hround]

/-- A point of the grid is rounded to itself. -/
theorem Grid.Holds.round {d : Point} (h : g.Holds d) {num den : Nat} (hden : 0 < den)
    (hvalue : (num : ℚ) / den = d.value) : g.round num den = some d := by
  obtain ⟨m, e⟩ := d
  have hden' : (den : ℚ) ≠ 0 := Nat.cast_ne_zero.mpr hden.ne'
  have htwo : (2 : ℚ) ^ e ≠ 0 := zpow_ne_zero e two_ne_zero
  have hzero : num = 0 ↔ m = 0 := by
    have hquotient : (num : ℚ) / den = 0 ↔ num = 0 := by simp [hden']
    have hpoint : (Point.mk m e).value = 0 ↔ m = 0 := by simp [Point.value, htwo]
    rw [← hquotient, hvalue, hpoint]
  by_cases hm : m = 0
  · subst hm
    have hbottom : e = g.bottom := h.full.resolve_left (by simp)
    rw [hzero.mpr rfl, round_zero, hbottom]
  · have hnum : num ≠ 0 := mt hzero.mp hm
    have horder : binaryOrder num den = m.log2 + e := by
      rw [binaryOrder_eq (Nat.pos_of_ne_zero hnum) hden, hvalue, Point.value]
      have hlow : (2 : ℚ) ^ m.log2 ≤ m := by exact_mod_cast Nat.log2_self_le hm
      have hhigh : (m : ℚ) < 2 ^ (m.log2 + 1) := by exact_mod_cast Nat.lt_log2_self
      refine log_eq ?_ ?_
      · rw [zpow_add₀ two_ne_zero, zpow_natCast]
        exact mul_le_mul_of_nonneg_right hlow (zpow_nonneg zero_le_two e)
      · rw [add_right_comm, zpow_add₀ two_ne_zero]
        refine mul_lt_mul_of_pos_right ?_ (zpow_pos two_pos e)
        exact_mod_cast hhigh
    have hshort : m.log2 < g.precision := (Nat.log2_lt hm).mpr h.short
    have hexponent : g.exponentOf (binaryOrder num den) = e := by
      rw [horder, exponentOf]
      rcases h.full with hfull | hbottom
      · have hlong := (Nat.le_log2 hm).mpr hfull
        have hbottom : g.bottom ≤ e := h.bottom
        omega
      · have hbottom : e = g.bottom := hbottom
        omega
    have hround : roundDiv (scale 2 num den e).1 (scale 2 num den e).2 = m := by
      obtain ⟨hscaled, heq⟩ := scale_value num Nat.two_pos hden e
      rw [← roundDiv_one m]
      refine roundDiv_congr hscaled Nat.one_pos ?_
      rw [heq, hvalue, Point.value]
      simp [mul_div_cancel_right₀ _ htwo]
    rw [round_eq hnum, hexponent]
    simp only [hround, h.short.ne, if_false]
    exact if_pos h.top

/-- Beyond the greatest point of the grid there is none to round to. -/
theorem Grid.round_eq_none {num den : Nat} (hden : 0 < den)
    (h : (2 : ℚ) ^ (g.top + g.precision) ≤ num / den) : g.round num den = none := by
  have hpos : (0 : ℚ) < num / den := (zpow_pos two_pos _).trans_le h
  have hnum : num ≠ 0 := by
    rintro rfl
    simp at hpos
  have horder : g.top + g.precision ≤ binaryOrder num den := by
    rw [binaryOrder_eq (Nat.pos_of_ne_zero hnum) hden]
    exact (Int.zpow_le_iff_le_log (b := 2) Nat.one_lt_two hpos).mp h
  have hexponent : g.top < g.exponentOf (binaryOrder num den) := by
    rw [exponentOf]
    omega
  rw [round_eq hnum]
  refine if_neg (Int.not_le.mpr ?_)
  split
  · exact hexponent.trans (Int.lt_succ _)
  · exact hexponent

/-- A number below half the least point of the grid is rounded to zero. -/
theorem Grid.round_eq_zero (hgrid : 0 < g.precision ∧ g.bottom ≤ g.top) {num den : Nat}
    (hden : 0 < den) (h : (num : ℚ) / den < 2 ^ (g.bottom - 1)) :
    g.round num den = some ⟨0, g.bottom⟩ := by
  by_cases hnum : num = 0
  · rw [hnum, round_zero]
  have hpos : (0 : ℚ) < num / den := by positivity
  have horder : binaryOrder num den < g.bottom - 1 := by
    rw [binaryOrder_eq (Nat.pos_of_ne_zero hnum) hden]
    exact (Int.lt_zpow_iff_log_lt (b := 2) Nat.one_lt_two hpos).mp h
  have hexponent : g.exponentOf (binaryOrder num den) = g.bottom := by
    rw [exponentOf]
    omega
  have hround : roundDiv (scale 2 num den g.bottom).1 (scale 2 num den g.bottom).2 = 0 := by
    obtain ⟨hscaled, heq⟩ := scale_value num Nat.two_pos hden g.bottom
    have hscaled' : (0 : ℚ) < (scale 2 num den g.bottom).2 := Nat.cast_pos.mpr hscaled
    have hhalf : ((scale 2 num den g.bottom).1 : ℚ) / (scale 2 num den g.bottom).2 < 1 / 2 := by
      rw [heq, Nat.cast_ofNat, div_lt_iff₀ (zpow_pos two_pos _)]
      refine h.trans_eq ?_
      rw [zpow_sub_one₀ two_ne_zero]
      ring
    rw [div_lt_div_iff₀ hscaled' two_pos, one_mul] at hhalf
    refine roundDiv_of_small ?_
    rw [Nat.mul_comm]
    exact_mod_cast hhalf
  rw [round_eq hnum, hexponent]
  simp only [hround, (Nat.two_pow_pos g.precision).ne, if_false]
  exact if_pos hgrid.2

end BlendGraph.Number

namespace BlendGraph

open Number

/-! ### Decimals -/

namespace Decimal

def value (d : Decimal) : ℚ := d.digits * 10 ^ d.exponent

theorem quotient_value (d : Decimal) :
    0 < d.quotient.2 ∧ (d.quotient.1 : ℚ) / d.quotient.2 = d.value := by
  obtain ⟨n, e⟩ := d
  by_cases he : 0 ≤ e
  · obtain ⟨k, rfl⟩ := Int.eq_ofNat_of_zero_le he
    simp [quotient, value]
  · obtain ⟨k, rfl⟩ : ∃ k : Nat, e = -(k : Int) := ⟨(-e).toNat, by omega⟩
    simp only [quotient, value, if_neg he]
    simp [div_eq_mul_inv]

theorem round_congr {g : Grid} {c d : Decimal} (h : c.value = d.value) :
    g.round c.quotient.1 c.quotient.2 = g.round d.quotient.1 d.quotient.2 :=
  Grid.round_congr c.quotient_value.1 d.quotient_value.1
    (by rw [c.quotient_value.2, d.quotient_value.2, h])

/-- The power of ten above the decimal. -/
def order (d : Decimal) : Int := d.exponent + (Nat.toDigits 10 d.digits).length

theorem value_lt (d : Decimal) : d.value < 10 ^ d.order := by
  have hdigits : d.digits < 10 ^ (Nat.toDigits 10 d.digits).length :=
    (Nat.length_toDigits_le_iff (by decide) Nat.length_toDigits_pos).mp (Nat.le_refl _)
  rw [value, order, Int.add_comm, zpow_add₀ (by norm_num), zpow_natCast]
  refine mul_lt_mul_of_pos_right ?_ (zpow_pos (by norm_num) _)
  exact_mod_cast hdigits

theorem le_value {d : Decimal} (h : d.digits ≠ 0) : (10 : ℚ) ^ (d.order - 1) ≤ d.value := by
  obtain ⟨k, hk⟩ : ∃ k, (Nat.toDigits 10 d.digits).length = k + 1 :=
    Nat.exists_eq_succ_of_ne_zero Nat.length_toDigits_pos.ne'
  have hdigits : 10 ^ k ≤ d.digits := by
    cases k with
    | zero => exact Nat.pos_of_ne_zero h
    | succ k =>
      rw [← not_lt, ← Nat.length_toDigits_le_iff (by decide) k.succ_pos, hk]
      exact Nat.not_succ_le_self _
  have horder : d.order - 1 = k + d.exponent := by
    rw [order, hk]
    push_cast
    ring
  rw [value, horder, zpow_add₀ (by norm_num), zpow_natCast]
  refine mul_le_mul_of_nonneg_right ?_ (zpow_nonneg (by norm_num) _)
  exact_mod_cast hdigits

end Decimal

/-- The look at the order of magnitude saves work, and changes no result. -/
theorem Numeral.round_double (n : Numeral) :
    n.round .double = Grid.double.round n.magnitude.quotient.1 n.magnitude.quotient.2 := by
  obtain ⟨hden, hvalue⟩ := n.magnitude.quotient_value
  change (if n.magnitude.digits = 0 then some (Point.mk 0 Grid.double.bottom)
    else if 400 < n.magnitude.order then none
    else if n.magnitude.order < -400 then some (Point.mk 0 Grid.double.bottom) else _) = _
  have hten : (1 : ℚ) ≤ 10 := by norm_num
  have hpower : 2 ^ 1024 ≤ 10 ^ 400 ∧ 2 ^ 1075 < 10 ^ 400 := by decide +kernel
  split
  · next hzero =>
    have hnum : n.magnitude.quotient.1 = 0 := by
      rw [Decimal.quotient, hzero]
      split
      · exact Nat.zero_mul _
      · rfl
    rw [hnum, Grid.round_zero]
  split
  · next hzero hlarge =>
    refine (Grid.round_eq_none hden ?_).symm
    have hbound : (2 : ℚ) ^ (1024 : Int) ≤ 10 ^ (400 : Int) := by
      exact_mod_cast hpower.1
    rw [hvalue]
    exact hbound.trans ((zpow_le_zpow_right₀ hten (by omega)).trans (Decimal.le_value hzero))
  split
  · next hsmall =>
    refine (Grid.round_eq_zero (by decide) hden ?_).symm
    have hbound : (10 : ℚ) ^ (-400 : Int) < 2 ^ (-1075 : Int) := by
      rw [zpow_neg, zpow_neg]
      refine inv_strictAnti₀ (zpow_pos two_pos _) ?_
      exact_mod_cast hpower.2
    rw [hvalue]
    exact n.magnitude.value_lt.trans ((zpow_le_zpow_right₀ hten hsmall.le).trans_lt hbound)
  · rfl

end BlendGraph
