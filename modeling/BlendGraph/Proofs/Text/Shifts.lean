import BlendGraph.Proofs.Naming.GeneratedNames
import BlendGraph.Text.Scan
import Mathlib.SetTheory.Cardinal.Finite

/-!
# Shifts in words of 32 bits

A shift is computed in words, in which a sum may be too great and a difference too small, and a word
may be the code of no character. None of this happens, whatever the text and the width of the shift:
shifts permute the texts of each length, and two of them one after another are one.
-/

set_option autoImplicit false

namespace BlendGraph.Text

/-! ### Words -/

/-- The sum, if it is a word. -/
def add? (a b : UInt32) : Option UInt32 :=
  if a.toNat + b.toNat < UInt32.size then some (a + b) else none

/-- The difference, if it is not negative. -/
def sub? (a b : UInt32) : Option UInt32 :=
  if b ≤ a then some (a - b) else none

theorem exists_add? {a b : UInt32} (h : a.toNat + b.toNat < UInt32.size) :
    ∃ w, add? a b = some w ∧ w.toNat = a.toNat + b.toNat := by
  refine ⟨a + b, if_pos h, ?_⟩
  rw [UInt32.toNat_add, Nat.mod_eq_of_lt h]

theorem exists_sub? {a b : UInt32} (h : b.toNat ≤ a.toNat) :
    ∃ w, sub? a b = some w ∧ w.toNat = a.toNat - b.toNat := by
  have hle : b ≤ a := UInt32.le_iff_toNat_le.mpr h
  exact ⟨a - b, if_pos hle, UInt32.toNat_sub_of_le _ _ hle⟩

/-! ### Characters -/

def position? (c : Char) : Option UInt32 :=
  if gapStart.toUInt32 ≤ c.val then sub? c.val gapLength.toUInt32 else some c.val

def atPosition? (i : UInt32) : Option Char := do
  let code ← if gapStart.toUInt32 ≤ i then add? i gapLength.toUInt32 else some i
  scalar? code.toNat

/-- A shifted character, if no word on the way is out of bounds and the last is a code. -/
def shiftChar? (k : UInt32) (c : Char) : Option Char := do
  let sum ← add? (← position? c) (k % scalarCount.toUInt32)
  atPosition? (sum % scalarCount.toUInt32)

theorem exists_position? (c : Char) : ∃ i, position? c = some i ∧ i.toNat = position c := by
  unfold position? position
  by_cases h : gapStart.toUInt32 ≤ c.val
  · have hle : gapStart ≤ c.toNat := UInt32.le_iff_toNat_le.mp h
    have hlength : gapLength.toUInt32.toNat ≤ c.val.toNat :=
      Nat.le_trans (by decide) hle
    rw [if_pos h, if_pos hle]
    exact exists_sub? hlength
  · have hlt : ¬ gapStart ≤ c.toNat := fun hle => h (UInt32.le_iff_toNat_le.mpr hle)
    rw [if_neg h, if_neg hlt]
    exact ⟨c.val, rfl, rfl⟩

theorem atPosition?_eq {i : UInt32} (h : i.toNat < scalarCount) :
    atPosition? i = some (atPosition i.toNat) := by
  have hvalid : (atPosition i.toNat).toNat.isValidChar := (atPosition i.toNat).valid
  have hscalar : scalar? (atPosition i.toNat).toNat = some (atPosition i.toNat) := by
    rw [scalar?, if_pos hvalid, Char.ofNat_toNat]
  rw [toNat_atPosition h] at hscalar
  rw [atPosition?]
  by_cases hgap : gapStart.toUInt32 ≤ i
  · have hle : gapStart ≤ i.toNat := UInt32.le_iff_toNat_le.mp hgap
    have hbound : i.toNat + gapLength.toUInt32.toNat < UInt32.size :=
      Nat.lt_trans (Nat.add_lt_add_right h _) (by decide)
    obtain ⟨code, hcode, hnat⟩ := exists_add? hbound
    rw [if_pos hle] at hscalar
    rw [if_pos hgap, hcode]
    change scalar? code.toNat = _
    rw [hnat]
    exact hscalar
  · have hlt : ¬ gapStart ≤ i.toNat := fun hle => hgap (UInt32.le_iff_toNat_le.mpr hle)
    rw [if_neg hlt] at hscalar
    rw [if_neg hgap]
    exact hscalar

theorem toNat_mod_count (k : UInt32) :
    (k % scalarCount.toUInt32).toNat = k.toNat % scalarCount := UInt32.toNat_mod _ _

theorem shiftChar?_eq (k : UInt32) (c : Char) : shiftChar? k c = some (shiftChar k.toNat c) := by
  obtain ⟨i, hi, hposition⟩ := exists_position? c
  have hpos : 0 < scalarCount := by decide
  have hbound : i.toNat + (k % scalarCount.toUInt32).toNat < UInt32.size := by
    rw [hposition, toNat_mod_count]
    have hlt := Nat.add_lt_add (position_lt c) (Nat.mod_lt k.toNat hpos)
    exact Nat.lt_trans hlt (by decide)
  obtain ⟨sum, hsum, hnat⟩ := exists_add? hbound
  have hindex : (sum % scalarCount.toUInt32).toNat
      = (position c + k.toNat % scalarCount) % scalarCount := by
    rw [toNat_mod_count, hnat, hposition, toNat_mod_count]
  have hlast : (sum % scalarCount.toUInt32).toNat < scalarCount := hindex ▸ Nat.mod_lt _ hpos
  rw [shiftChar?, hi, Option.bind_eq_bind, Option.bind_some, hsum, Option.bind_some,
    atPosition?_eq hlast, hindex, shiftChar]

/-! ### Texts -/

def shift? (k : UInt32) (text : String) : Option String :=
  String.ofList <$> text.toList.mapM (shiftChar? k)

def unshift? (k : UInt32) (text : String) : Option String := do
  shift? (← sub? scalarCount.toUInt32 (k % scalarCount.toUInt32)) text

theorem shift?_eq (k : UInt32) (text : String) : shift? k text = some (shift k.toNat text) := by
  have hall : shiftChar? k = fun c => pure (shiftChar k.toNat c) := funext (shiftChar?_eq k)
  rw [shift?, hall, List.mapM_pure]
  rfl

theorem unshift?_eq (k : UInt32) (text : String) :
    unshift? k text = some (unshift k.toNat text) := by
  have hle : (k % scalarCount.toUInt32).toNat ≤ scalarCount.toUInt32.toNat := by
    rw [toNat_mod_count]
    exact Nat.le_of_lt (Nat.mod_lt _ (by decide))
  obtain ⟨back, hback, hnat⟩ := exists_sub? hle
  rw [unshift?, hback, Option.bind_eq_bind, Option.bind_some, shift?_eq, hnat, toNat_mod_count]
  rfl

/-! ### Turns -/

/-- The numbers of the scalar values are those below their count. -/
def positions : Char ≃ Fin scalarCount where
  toFun c := ⟨position c, position_lt c⟩
  invFun i := atPosition i
  left_inv := atPosition_position
  right_inv i := Fin.ext (position_atPosition i.isLt)

theorem card_char : Nat.card Char = scalarCount :=
  (Nat.card_congr positions).trans (Nat.card_fin _)

theorem length_shift (k : Nat) (text : String) : (shift k text).length = text.length := by
  rw [← String.length_toList, toList_shift, List.length_map, String.length_toList]

theorem shiftChar_turn (j k : Nat) (c : Char) :
    shiftChar k (shiftChar j c)
      = shiftChar ((j % scalarCount + k % scalarCount) % scalarCount) c := by
  have hsum : (position c + j % scalarCount) % scalarCount < scalarCount :=
    Nat.mod_lt _ (by decide)
  have hindex : ((position c + j % scalarCount) % scalarCount + k % scalarCount) % scalarCount
      = (position c + (j % scalarCount + k % scalarCount) % scalarCount % scalarCount)
        % scalarCount := by
    rw [Nat.mod_add_mod, Nat.add_assoc, Nat.mod_mod, Nat.add_mod_mod]
  rw [shiftChar, shiftChar, position_atPosition hsum, hindex, shiftChar]

theorem shift_turn (j k : Nat) (text : String) :
    shift k (shift j text) = shift ((j % scalarCount + k % scalarCount) % scalarCount) text := by
  apply String.toList_injective
  rw [toList_shift, toList_shift, toList_shift, List.map_map]
  exact List.map_congr_left fun c _ => shiftChar_turn j k c

theorem bijective_shift (k : Nat) : Function.Bijective (shift k) :=
  Function.bijective_iff_has_inverse.mpr ⟨unshift k, unshift_shift k, shift_unshift k⟩

/-- Shifts are computed without a word out of bounds or a word that is no character. They permute
the texts, forth and back undo each other, and two shifts make one, around the number of scalar
values. -/
theorem shift_invertible (text : String) (j k : UInt32) :
    shift? k text = some (shift k.toNat text) ∧ unshift? k text = some (unshift k.toNat text) ∧
    Function.Bijective (shift k.toNat) ∧
    unshift k.toNat (shift k.toNat text) = text ∧ shift k.toNat (unshift k.toNat text) = text ∧
    (shift k.toNat text).length = text.length ∧ (unshift k.toNat text).length = text.length ∧
    shift k.toNat (shift j.toNat text)
      = shift ((j.toNat % Nat.card Char + k.toNat % Nat.card Char) % Nat.card Char) text := by
  refine ⟨shift?_eq k text, unshift?_eq k text, bijective_shift _, unshift_shift _ text,
    shift_unshift _ text, length_shift _ text, length_shift _ text, ?_⟩
  rw [card_char]
  exact shift_turn _ _ text

end BlendGraph.Text
