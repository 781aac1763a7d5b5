/-!
# Shifting characters

The Unicode scalar values are numbered without the surrogate gap, and a text is shifted along that
numbering, around its end. Shifting back undoes shifting forth for every shift.
-/

set_option autoImplicit false

namespace BlendGraph.Text

def gapStart : Nat := 0xD800

def gapLength : Nat := 0x800

def scalarCount : Nat := 0x110000 - gapLength

def position (c : Char) : Nat :=
  if gapStart ≤ c.toNat then c.toNat - gapLength else c.toNat

def atPosition (i : Nat) : Char :=
  Char.ofNat (if gapStart ≤ i then i + gapLength else i)

theorem toNat_valid (c : Char) :
    c.toNat < 0xD800 ∨ 0xDFFF < c.toNat ∧ c.toNat < 0x110000 := c.valid

theorem position_lt (c : Char) : position c < scalarCount := by
  have h := toNat_valid c
  unfold position gapStart gapLength scalarCount gapLength
  by_cases hc : 0xD800 ≤ c.toNat
  · rw [if_pos hc]; omega
  · rw [if_neg hc]; omega

theorem toNat_ofNat_of_valid {n : Nat} (h : n.isValidChar) : (Char.ofNat n).toNat = n := by
  rw [Char.ofNat, dif_pos h]
  rfl

theorem toNat_atPosition {i : Nat} (h : i < scalarCount) :
    (atPosition i).toNat = if gapStart ≤ i then i + gapLength else i := by
  unfold scalarCount gapLength at h
  unfold atPosition gapStart gapLength
  by_cases hi : 0xD800 ≤ i
  · rw [if_pos hi, toNat_ofNat_of_valid (Or.inr (by omega))]
  · rw [if_neg hi, toNat_ofNat_of_valid (Or.inl (by omega))]

theorem position_atPosition {i : Nat} (h : i < scalarCount) : position (atPosition i) = i := by
  unfold position
  rw [toNat_atPosition h]
  unfold gapStart gapLength
  by_cases hi : 0xD800 ≤ i
  · rw [if_pos hi, if_pos (by omega)]; omega
  · rw [if_neg hi, if_neg hi]

theorem atPosition_position (c : Char) : atPosition (position c) = c := by
  have h := toNat_valid c
  apply Char.toNat_inj.mp
  rw [toNat_atPosition (position_lt c)]
  unfold position gapStart gapLength
  by_cases hc : 0xD800 ≤ c.toNat
  · rw [if_pos hc, if_pos (by omega)]; omega
  · rw [if_neg hc, if_neg hc]

/-- The character `k` positions further on, around the end. -/
def shiftChar (k : Nat) (c : Char) : Char :=
  atPosition ((position c + k % scalarCount) % scalarCount)

def shift (k : Nat) (text : String) : String :=
  String.ofList (text.toList.map (shiftChar k))

def unshift (k : Nat) (text : String) : String :=
  shift (scalarCount - k % scalarCount) text

def hiddenShift : Nat := 16

def hide (text : String) : String := shift hiddenShift text

def reveal (text : String) : String := unshift hiddenShift text

end BlendGraph.Text
