import BlendGraph.Scalar
import Mathlib

/-!
# Order and differences of 32-bit floats

All floats but the one that is not a number are comparable, and stand in one order. A difference of
floats is rounded, but not to zero, since the floats next to zero are as close together as any: it
is zero only between numbers that compare alike with everything.
-/

set_option autoImplicit false

namespace BlendGraph.Number

open Float.Model UnpackedFloat

/-! ### Bit fields -/

theorem toNat_unpackExponent (x : Float32) :
    (@unpackExponent Format.binary32 x.toBits.toBitVec).toNat
      = x.toBits.toNat % Nat.pow 2 31 / Nat.pow 2 23 := by
  simp [unpackExponent, Nat.shiftRight_eq_div_pow]
  omega

theorem toNat_unpackMantissa (x : Float32) :
    (@unpackMantissa Format.binary32 x.toBits.toBitVec).toNat
      = x.toBits.toNat % Nat.pow 2 23 := by
  simp [unpackMantissa]

/-! ### Order -/

theorem compare_swap (a b : UnpackedFloat) : b.compare a = (a.compare b).map Ordering.swap := by
  have finite (m n : Nat) (d e : Int) : (compare e d).then (compare n m)
      = ((compare d e).then (compare m n)).swap := by
    rw [Ordering.swap_then, Int.compare_swap, Nat.compare_swap]
  rcases a with (_ | _) | _ | (_ | _) | ⟨_ | _, m, d, hm⟩ <;>
    rcases b with (_ | _) | _ | (_ | _) | ⟨_ | _, n, e, hn⟩ <;>
      first
      | rfl
      | simp only [UnpackedFloat.compare, Option.map_some, finite m n d e, Ordering.swap_swap]

theorem compare_eq_none_iff {a b : UnpackedFloat} :
    a.compare b = none ↔ a = .notANumber ∨ b = .notANumber := by
  rcases a with (_ | _) | _ | (_ | _) | ⟨_ | _, m, d, hm⟩ <;>
    rcases b with (_ | _) | _ | (_ | _) | ⟨_ | _, n, e, hn⟩ <;>
      simp [UnpackedFloat.compare]

theorem isNaN_iff {x : Float32} : x.isNaN = true ↔ x.toModel.unpack = .notANumber :=
  UnpackedFloat.isNaN_iff

theorem le_iff {x y : Float32} :
    x ≤ y ↔ ((x.toModel.unpack.compare y.toModel.unpack).any fun o => o.isLE) = true := by
  change decide _ = true ↔ _
  rw [decide_eq_true_eq]
  rfl

theorem lt_iff {x y : Float32} :
    x < y ↔ x.toModel.unpack.compare y.toModel.unpack = some .lt := by
  change decide _ = true ↔ _
  rw [decide_eq_true_eq, ← beq_iff_eq]
  rfl

theorem not_le_of_isNaN {x : Float32} (h : x.isNaN = true) (y : Float32) : ¬ x ≤ y ∧ ¬ y ≤ x := by
  have hx := isNaN_iff.mp h
  rw [le_iff, le_iff, compare_eq_none_iff.mpr (.inl hx), compare_eq_none_iff.mpr (.inr hx)]
  exact ⟨Bool.false_ne_true, Bool.false_ne_true⟩

/-- Floats that are numbers are comparable. -/
theorem lt_of_not_le {x y : Float32} (hx : x.isNaN = false) (hy : y.isNaN = false)
    (h : ¬ y ≤ x) : x < y := by
  cases hc : y.toModel.unpack.compare x.toModel.unpack with
  | none =>
    rcases compare_eq_none_iff.mp hc with hnan | hnan
    · rw [isNaN_iff.mpr hnan] at hy
      cases hy
    · rw [isNaN_iff.mpr hnan] at hx
      cases hx
  | some o =>
    rw [le_iff, hc] at h
    rw [lt_iff, compare_swap, hc]
    cases o with
    | lt | eq => exact absurd rfl h
    | gt => rfl

theorem le_of_lt {x y : Float32} (h : x < y) : x ≤ y := by
  rw [le_iff, lt_iff.mp h]
  rfl

theorem le_self {x : Float32} (h : x.isNaN = false) : x ≤ x := by
  by_contra hnot
  exact hnot (le_of_lt (lt_of_not_le h h hnot))

theorem same_self {x : Float32} (h : x.isNaN = false) : Scalar.same x x = true := by
  rw [Scalar.same, decide_eq_true (le_self h)]
  rfl

theorem isNaN_of_le {x y : Float32} (h : x ≤ y) : x.isNaN = false ∧ y.isNaN = false := by
  constructor
  · by_contra hx
    exact (not_le_of_isNaN (Bool.eq_true_of_not_eq_false hx) y).1 h
  · by_contra hy
    exact (not_le_of_isNaN (Bool.eq_true_of_not_eq_false hy) x).2 h

/-- The place of a float among the others: on which side of zero it is, and how far out. -/
def place : UnpackedFloat → Int ×ₗ Int ×ₗ Int
  | .infinity .negative => toLex (-2, toLex (0, 0))
  | .finite .negative m e _ => toLex (-1, toLex (-e, -m))
  | .zero _ | .notANumber => toLex (0, toLex (0, 0))
  | .finite .positive m e _ => toLex (1, toLex (e, m))
  | .infinity .positive => toLex (2, toLex (0, 0))

theorem isLE_then_iff (d e : Int) (m n : Nat) :
    ((compare d e).then (compare m n)).isLE = true ↔ d < e ∨ d = e ∧ m ≤ n := by
  rw [Ordering.isLE_then_iff_or, Int.compare_eq_lt, Int.compare_eq_eq, Nat.isLE_compare]

theorem isGE_then_iff (d e : Int) (m n : Nat) :
    ((compare d e).then (compare m n)).isGE = true ↔ e < d ∨ d = e ∧ n ≤ m := by
  rw [← Ordering.isLE_swap, Ordering.swap_then, Int.compare_swap, Nat.compare_swap, isLE_then_iff,
    eq_comm]

/-- Floats that are numbers compare as their places do. -/
theorem compare_isLE_iff {a b : UnpackedFloat} (ha : a ≠ .notANumber) (hb : b ≠ .notANumber) :
    ((a.compare b).any fun o => o.isLE) = true ↔ place a ≤ place b := by
  rcases a with (_ | _) | _ | (_ | _) | ⟨_ | _, m, d, hm⟩ <;>
    rcases b with (_ | _) | _ | (_ | _) | ⟨_ | _, n, e, hn⟩ <;>
      first
      | decide
      | simp [UnpackedFloat.compare, place, Prod.Lex.toLex_le_toLex, isLE_then_iff,
          isGE_then_iff] at ha hb ⊢

theorem le_iff_place {x y : Float32} (hx : x.isNaN = false) (hy : y.isNaN = false) :
    x ≤ y ↔ place x.toModel.unpack ≤ place y.toModel.unpack := by
  have hnumber {z : Float32} (hz : z.isNaN = false) : z.toModel.unpack ≠ .notANumber := by
    rw [Ne, ← isNaN_iff, hz]
    exact Bool.false_ne_true
  rw [le_iff, compare_isLE_iff (hnumber hx) (hnumber hy)]

protected theorem le_trans {x y z : Float32} (hxy : x ≤ y) (hyz : y ≤ z) : x ≤ z := by
  obtain ⟨hx, hy⟩ := isNaN_of_le hxy
  obtain ⟨-, hz⟩ := isNaN_of_le hyz
  rw [le_iff_place hx hy] at hxy
  rw [le_iff_place hy hz] at hyz
  rw [le_iff_place hx hz]
  exact hxy.trans hyz

/-! ### Rounded mantissas -/

theorem targetExponent_single (t : Int) :
    Format.binary32.targetExponent t = max (t - 24) (-149) := rfl

theorem mantissa_shiftRight (em : ExtendedMantissa) (k : Nat) :
    (em >>> k).mantissa = em.mantissa / 2 ^ k := by
  change (Nat.repeat ExtendedMantissa.shiftRightOne k em).mantissa = _
  induction k with
  | zero => exact (Nat.div_one _).symm
  | succ k ih =>
    rw [Nat.repeat, ExtendedMantissa.shiftRightOne, ih, Nat.div_div_eq_div_mul, pow_succ]

theorem mantissa_le_roundedMantissa (em : ExtendedMantissa) : em.mantissa ≤ em.roundedMantissa := by
  obtain ⟨m, round, sticky⟩ := em
  cases round <;> cases sticky <;>
    simp [ExtendedMantissa.roundedMantissa, ExtendedMantissa.accuracy, Accuracy.roundToNearestEven]

/-- A mantissa and an exponent of a finite float. -/
structure Fits (m : Nat) (e : Int) : Prop where
  pos : 0 < m
  short : m < 2 ^ 24
  bottom : -149 ≤ e

/-- Brought to its target exponent, a mantissa has at most 24 bits, and is not lost. -/
theorem exists_shifted {m : Nat} (hm : 0 < m) {e : Int} (he : -149 ≤ e) :
    ∃ em d, shiftToTargetExponent Format.binary32 m e .exact = (em, d) ∧ Fits em.mantissa d := by
  refine ⟨_, _, rfl, ?_⟩
  have hshift : (Format.binary32.targetExponent (totalExponent m e) - e).toNat ≤ m.log2 ∧
      m.log2 < 24 + (Format.binary32.targetExponent (totalExponent m e) - e).toNat := by
    rw [targetExponent_single, totalExponent]
    omega
  generalize (Format.binary32.targetExponent (totalExponent m e) - e).toNat = k at hshift
  have hmantissa : (ExtendedMantissa.ofMantissaAndAccuracy m .exact >>> k).mantissa = m / 2 ^ k :=
    mantissa_shiftRight _ k
  constructor
  case pos =>
    rw [hmantissa]
    apply Nat.div_pos _ (Nat.two_pow_pos k)
    exact (Nat.pow_le_pow_right Nat.two_pos hshift.1).trans (Nat.log2_self_le hm.ne')
  case short =>
    rw [hmantissa, Nat.div_lt_iff_lt_mul (Nat.two_pow_pos k), ← pow_add]
    exact (Nat.log2_lt hm.ne').mp hshift.2
  case bottom => omega

theorem exists_roundWithAccuracy (s : Sign) {m : Nat} (hm : 0 < m) {e : Int} (he : -149 ≤ e) :
    ∃ n d, ∃ fits : Fits n d,
      roundWithAccuracy Format.binary32 s m e .exact = .finite s n d fits.pos := by
  obtain ⟨em, d, hfirst, fits⟩ := exists_shifted hm he
  have hrounded : 0 < em.roundedMantissa := fits.pos.trans_le (mantissa_le_roundedMantissa em)
  obtain ⟨em', d', hlast, fits'⟩ := exists_shifted hrounded fits.bottom
  refine ⟨em'.mantissa, d', fits', ?_⟩
  simp only [roundWithAccuracy, hfirst, hlast, fits'.pos.ne', dite_false]

theorem exists_round (s : Sign) {m : Nat} (hm : 0 < m) {e : Int} (he : -149 ≤ e) :
    ∃ n d, ∃ fits : Fits n d,
      UnpackedFloat.round Format.binary32 s m e = .finite s n d fits.pos := by
  refine exists_roundWithAccuracy s ?_ ?_
  · rw [Nat.shiftLeft_eq]
    exact Nat.mul_pos hm (Nat.two_pow_pos _)
  · rw [targetExponent_single]
    omega

/-- The bits of a zero are those of no other finite float. -/
theorem pack_ne_packedZero {s t : Sign} {m : Nat} {e : Int} (fits : Fits m e) :
    UnpackedFloat.pack Format.binary32 (.finite s m e fits.pos)
      ≠ packedZero Format.binary32 t := by
  intro h
  unfold UnpackedFloat.pack at h
  dsimp only at h
  split at h
  · have hexponent := congrArg unpackExponent h
    rw [packedInfinity, packedZero, unpackExponent_packComponents,
      unpackExponent_packComponents] at hexponent
    exact absurd hexponent (by decide)
  · next hsmall =>
    split at h
    · have hexponent := congrArg BitVec.toNat (congrArg unpackExponent h)
      rw [packedZero, unpackExponent_packComponents, unpackExponent_packComponents,
        BitVec.toNat_ofNat] at hexponent
      change ¬ 256 ≤ (e + 127 + 23).toNat + 1 at hsmall
      change (e + 127 + 23).toNat % 256 = 0 at hexponent
      have hbottom := fits.bottom
      omega
    · next hlog =>
      have hmantissa := congrArg BitVec.toNat (congrArg unpackMantissa h)
      rw [packedZero, unpackMantissa_packComponents, unpackMantissa_packComponents,
        BitVec.toNat_ofNat] at hmantissa
      change ¬ m.log2 + 1 = 24 at hlog
      change m % 2 ^ 23 = 0 at hmantissa
      have hbits : m.log2 < 24 := (Nat.log2_lt fits.pos.ne').mpr fits.short
      have hshort : m < 2 ^ 23 := (Nat.log2_lt fits.pos.ne').mp (by omega)
      rw [Nat.mod_eq_of_lt hshort] at hmantissa
      exact fits.pos.ne' hmantissa

/-! ### Differences -/

/-- A finite float in the only form in which it is stored: the mantissa has all 24 bits, unless the
exponent is the least one. -/
def Stored : UnpackedFloat → Prop
  | .finite _ m e _ => Fits m e ∧ (2 ^ 23 ≤ m ∨ e = -149)
  | _ => True

theorem stored_unpack (b : BitVec Format.binary32.numBits) :
    Stored (UnpackedFloat.unpack Format.binary32 b) := by
  have hfraction : (unpackMantissa b).toNat < 2 ^ 23 := (unpackMantissa b).isLt
  unfold UnpackedFloat.unpack
  dsimp only
  split
  · split <;> trivial
  · split
    · split
      · trivial
      · next hexponent hne =>
        have hpos : (unpackMantissa b).toNat ≠ 0 := fun hzero => hne (BitVec.eq_of_toNat_eq hzero)
        rw [hexponent]
        exact ⟨⟨by omega, hfraction.trans (by decide), by decide⟩, .inr (by decide)⟩
    · next hexponent =>
      have hpos : (unpackExponent b).toNat ≠ 0 := fun hzero =>
        hexponent (BitVec.eq_of_toNat_eq hzero)
      have hfull : (1#1 ++ unpackMantissa b).toNat = 2 ^ 23 + (unpackMantissa b).toNat := by
        rw [BitVec.toNat_append, ← Nat.shiftLeft_add_eq_or_of_lt hfraction]
        rfl
      have hbias : (Format.binary32.exponentBias : Int) = 127 := by decide
      rw [Stored, hfull, hbias]
      exact ⟨⟨by omega, by omega, by omega⟩, .inl (Nat.le_add_right ..)⟩

theorem eq_of_eq_mul_two_pow {m n : Nat} {d e : Int} (hm : Fits m d)
    (hn : 2 ^ 23 ≤ n ∨ e = -149) (hle : d ≤ e) (h : m = n * 2 ^ (e - d).toNat) :
    m = n ∧ d = e := by
  rcases hle.lt_or_eq with hlt | rfl
  · have hbottom := hm.bottom
    have hfull : 2 ^ 23 ≤ n := hn.resolve_right (by omega)
    have hdouble : 2 ≤ 2 ^ (e - d).toNat := Nat.le_self_pow (by omega) 2
    have hlarge : 2 ^ 23 * 2 ≤ n * 2 ^ (e - d).toNat := Nat.mul_le_mul hfull hdouble
    have hshort := hm.short
    omega
  · simpa using h

/-- Finite floats of one size are stored in one way. -/
theorem eq_of_shifted_eq {m n : Nat} {d e : Int} (hm : Fits m d ∧ (2 ^ 23 ≤ m ∨ d = -149))
    (hn : Fits n e ∧ (2 ^ 23 ≤ n ∨ e = -149))
    (h : m <<< (d - min d e).toNat = n <<< (e - min d e).toNat) : m = n ∧ d = e := by
  rw [Nat.shiftLeft_eq, Nat.shiftLeft_eq] at h
  rcases le_total d e with hle | hle
  · rw [min_eq_left hle, sub_self, Int.toNat_zero, pow_zero, mul_one] at h
    exact eq_of_eq_mul_two_pow hm.1 hn.2 hle h
  · rw [min_eq_right hle, sub_self, Int.toNat_zero, pow_zero, mul_one] at h
    exact (eq_of_eq_mul_two_pow hn.1 hm.2 hle h.symm).imp Eq.symm Eq.symm

theorem normalize_eq_zero {m : Int} {e : Int} (he : -149 ≤ e) {s : Sign}
    (h : UnpackedFloat.pack Format.binary32 (UnpackedFloat.normalize Format.binary32 m e .positive)
      = packedZero Format.binary32 s) : m = 0 := by
  unfold UnpackedFloat.normalize at h
  split at h
  · next hneg =>
    have hpos : 0 < (-m).toNat := by
      have := Int.compare_eq_lt.mp hneg
      omega
    obtain ⟨n, d, fits, hround⟩ := exists_round .negative hpos he
    rw [hround] at h
    exact absurd h (pack_ne_packedZero fits)
  · next hzero => exact Int.compare_eq_eq.mp hzero
  · next hpositive =>
    have hpos : 0 < m.toNat := by
      have := Int.compare_eq_gt.mp hpositive
      omega
    obtain ⟨n, d, fits, hround⟩ := exists_round .positive hpos he
    rw [hround] at h
    exact absurd h (pack_ne_packedZero fits)

/-- Only equal floats and zeros have a difference of zero. -/
theorem eq_of_sub_eq_zero {a b : UnpackedFloat} {s : Sign} (ha : Stored a) (hb : Stored b)
    (h : UnpackedFloat.pack Format.binary32 (UnpackedFloat.sub Format.binary32 a b)
      = packedZero Format.binary32 s) :
    a = b ∨ (∃ t, a = .zero t) ∧ ∃ t, b = .zero t := by
  have hnan : UnpackedFloat.pack Format.binary32 .notANumber ≠ packedZero Format.binary32 s := by
    cases s <;> decide
  have hinfinity (t : Sign) :
      UnpackedFloat.pack Format.binary32 (.infinity t) ≠ packedZero Format.binary32 s := by
    cases s <;> cases t <;> decide
  cases a with
  | notANumber => exact absurd h hnan
  | infinity t =>
    cases b with
    | notANumber => exact absurd h hnan
    | infinity u =>
      rw [UnpackedFloat.sub] at h
      split at h
      · exact absurd h (hinfinity t)
      · exact absurd h hnan
    | zero u | finite u n e hn => exact absurd h (hinfinity t)
  | zero t =>
    cases b with
    | notANumber => exact absurd h hnan
    | infinity u => exact absurd h (hinfinity (-u))
    | zero u => exact .inr ⟨⟨t, rfl⟩, u, rfl⟩
    | finite u n e hn => exact absurd h (pack_ne_packedZero hb.1)
  | finite t m d hm =>
    cases b with
    | notANumber => exact absurd h hnan
    | infinity u => exact absurd h (hinfinity (-u))
    | zero u => exact absurd h (pack_ne_packedZero ha.1)
    | finite u n e hn =>
      have hzero := normalize_eq_zero (le_min ha.1.bottom hb.1.bottom) h
      have hleft : 0 < m <<< (d - min d e).toNat := by
        rw [Nat.shiftLeft_eq]
        exact Nat.mul_pos hm (Nat.two_pow_pos _)
      have hright : 0 < n <<< (e - min d e).toNat := by
        rw [Nat.shiftLeft_eq]
        exact Nat.mul_pos hn (Nat.two_pow_pos _)
      have hsize : t = u ∧ m <<< (d - min d e).toNat = n <<< (e - min d e).toNat := by
        cases t <;> cases u <;> simp only [Sign.apply] at hzero <;> grind
      obtain ⟨rfl, rfl⟩ := eq_of_shifted_eq ha hb hsize.2
      obtain ⟨rfl, -⟩ := hsize
      exact .inl rfl

theorem eq_zero_of_compare {a : UnpackedFloat} {s : Sign}
    (hle : ((a.compare (.zero s)).any fun o => o.isLE) = true)
    (hge : (((UnpackedFloat.zero s).compare a).any fun o => o.isLE) = true) :
    ∃ t, a = .zero t := by
  rcases a with (_ | _) | _ | t | ⟨_ | _, m, d, hm⟩
  case zero => exact ⟨t, rfl⟩
  all_goals first | exact absurd hle Bool.false_ne_true | exact absurd hge Bool.false_ne_true

theorem compare_zero (s t : Sign) (a : UnpackedFloat) :
    (UnpackedFloat.zero s).compare a = (UnpackedFloat.zero t).compare a := by
  rcases a with (_ | _) | _ | _ | ⟨_ | _, m, d, hm⟩ <;> rfl

/-- Numbers with a difference of zero compare alike. -/
theorem le_iff_of_sub_eq_zero {x y : Float32} (h : Scalar.same (y - x) 0 = true) (z : Float32) :
    x ≤ z ↔ y ≤ z := by
  rw [Scalar.same, Bool.and_eq_true, decide_eq_true_eq, decide_eq_true_eq, le_iff, le_iff] at h
  obtain ⟨t, hzero⟩ := eq_zero_of_compare h.1 h.2
  have hdifference := (unpack_eq_zero_iff_of_valid valid_pack).mp hzero
  rw [le_iff, le_iff]
  rcases eq_of_sub_eq_zero (stored_unpack _) (stored_unpack _) hdifference with
    heq | ⟨⟨s, hs⟩, u, hu⟩
  · rw [← show y.toModel.unpack = x.toModel.unpack from heq]
  · rw [show x.toModel.unpack = .zero u from hu, show y.toModel.unpack = .zero s from hs,
      compare_zero u s]

/-- Two numbers with a third one between them are a positive distance apart. -/
theorem sub_ne_zero {x y z : Float32} (hx : x ≤ z) (hy : ¬ y ≤ z) :
    Scalar.same (y - x) 0 = false := by
  cases h : Scalar.same (y - x) 0 with
  | false => rfl
  | true => exact absurd ((le_iff_of_sub_eq_zero h z).mp hx) hy

end BlendGraph.Number
