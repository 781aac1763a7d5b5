import BlendGraph.Proofs.Playback.Interpolation

/-!
# Sampling curves

Over the rationals a curve is the piecewise linear function through its keyframes. That no sample
divides by zero is told by running the same definition in arithmetic where such a quotient is
missing: nothing is missing from the samples.
-/

set_option autoImplicit false

namespace BlendGraph

/-! ### Checked arithmetic -/

/-- A rational number, or its absence. It is missing where it would come of a division by zero or of
a number that is missing itself. -/
structure Checked where
  value? : Option Rat
  deriving DecidableEq

namespace Checked

def of (q : Rat) : Checked := ⟨some q⟩

def map (f : Rat → Rat) (a : Checked) : Checked := ⟨a.value?.map f⟩

def combine (f : Rat → Rat → Option Rat) (a b : Checked) : Checked :=
  ⟨a.value?.bind fun p => b.value?.bind fun q => f p q⟩

def le (a b : Checked) : Bool :=
  a.value?.any fun p => b.value?.any fun q => decide (p ≤ q)

instance : Scalar Checked where
  zero := of 0
  one := of 1
  add := combine fun p q => some (p + q)
  sub := combine fun p q => some (p - q)
  mul := combine fun p q => some (p * q)
  div := combine fun p q => if q = 0 then none else some (p / q)
  neg := map fun p => -p
  le a b := le a b = true
  decLe a b := inferInstanceAs (Decidable (le a b = true))
  ofNat n := of n
  abs := map Rat.abs
  isFinite a := a.value?.isSome
  text a := (a.value?.map Scalar.text).getD "NaN"

theorem of_add (p q : Rat) : of p + of q = of (p + q) := rfl

theorem of_sub (p q : Rat) : of p - of q = of (p - q) := rfl

theorem of_mul (p q : Rat) : of p * of q = of (p * q) := rfl

theorem of_div {p q : Rat} (h : q ≠ 0) : of p / of q = of (p / q) := congrArg mk (if_neg h)

theorem of_le_of {p q : Rat} : of p ≤ of q ↔ p ≤ q := decide_eq_true_iff

example : (of 1 / of 0).value? = none := rfl

end Checked

namespace Keyframe

variable {α β : Type}

def map (f : α → β) (k : Keyframe α) : Keyframe β := ⟨f k.time, f k.value⟩

@[simp] theorem map_time (f : α → β) (k : Keyframe α) : (k.map f).time = f k.time := rfl

@[simp] theorem map_value (f : α → β) (k : Keyframe α) : (k.map f).value = f k.value := rfl

end Keyframe

namespace Curve

/-! ### Keyframes of curves -/

theorem ascending_of_faultFrom? {before : Option Rat} {index : Nat} {ks : List (Keyframe Rat)}
    (h : faultFrom? before index ks = none) :
    (∀ b ∈ before, ∀ k ∈ ks, b < k.time) ∧ ks.Pairwise fun a b => a.time < b.time := by
  induction ks generalizing before index with
  | nil => exact ⟨fun _ _ => List.forall_mem_nil _, .nil⟩
  | cons k ks ih =>
    rw [faultFrom?] at h
    split at h
    · cases h
    · split at h
      · cases h
      · next hbefore =>
        obtain ⟨hnext, ascending⟩ := ih h
        refine ⟨fun b hb => ?_, List.pairwise_cons.mpr ⟨hnext k.time rfl, ascending⟩⟩
        have hbk : b < k.time := by
          rw [Option.mem_def.mp hb, Option.any_some, decide_eq_true_eq] at hbefore
          exact lt_of_not_ge hbefore
        exact List.forall_mem_cons.mpr ⟨hbk, fun d hd => hbk.trans (hnext k.time rfl d hd)⟩

theorem ascending (c : Curve Rat) : c.keys.Pairwise fun a b => a.time < b.time :=
  (ascending_of_faultFrom? c.sound).2

theorem faultFrom?_checked (before : Option Rat) (index : Nat) (ks : List (Keyframe Rat)) :
    faultFrom? (before.map Checked.of) index (ks.map (.map Checked.of))
      = faultFrom? before index ks := by
  induction ks generalizing before index with
  | nil => rfl
  | cons k ks ih =>
    have hbefore : ((before.map Checked.of).any fun b => decide (Checked.of k.time ≤ b))
        = before.any fun b => decide (k.time ≤ b) := by
      cases before with
      | none => rfl
      | some b => exact decide_eq_decide.mpr Checked.of_le_of
    have hnext := ih (some k.time) (index + 1)
    rw [List.map_cons, faultFrom?, faultFrom?, Keyframe.map_time, hbefore, ← hnext]
    rfl

/-- The same curve in checked arithmetic. -/
def checked (c : Curve Rat) : Curve Checked where
  first := c.first.map Checked.of
  rest := c.rest.map (.map Checked.of)
  sound := (faultFrom?_checked none 0 c.keys).trans c.sound

/-! ### Samples -/

theorem sampleFrom_checked {a : Keyframe Rat} {ks : List (Keyframe Rat)}
    (ascending : (a :: ks).Pairwise fun a b => a.time < b.time) (x : Rat) :
    sampleFrom (Checked.of x) (a.map Checked.of) (ks.map (.map Checked.of))
      = Checked.of (sampleFrom x a ks) := by
  -- Comparisons are between given numbers; the only quotient is by the distance of two neighbours.
  induction ks generalizing a with
  | nil => rfl
  | cons b ks ih =>
    obtain ⟨ha, ascending⟩ := List.pairwise_cons.mp ascending
    have hwidth : b.time - a.time ≠ 0 := (sub_pos.mpr (ha b (List.mem_cons_self ..))).ne'
    rw [List.map_cons, sampleFrom, sampleFrom, Keyframe.map_time]
    by_cases hx : x ≤ b.time
    · rw [if_pos hx, if_pos (Checked.of_le_of.mpr hx)]
      simp only [Keyframe.map_time, Keyframe.map_value, Checked.of_sub, Checked.of_div hwidth,
        Checked.of_mul, Checked.of_add]
    · rw [if_neg hx, if_neg (mt Checked.of_le_of.mp hx)]
      exact ih ascending

/-- No sample divides by zero. -/
theorem sample_checked (c : Curve Rat) (x : Rat) :
    c.checked.sample (.of x) = .of (c.sample x) := by
  rw [sample, sample, checked, Keyframe.map_time]
  by_cases hx : x ≤ c.first.time
  · rw [if_pos hx, if_pos (Checked.of_le_of.mpr hx)]
    rfl
  · rw [if_neg hx, if_neg (mt Checked.of_le_of.mp hx)]
    exact sampleFrom_checked c.ascending x

/-- The keyframes as points of a function of time. -/
def points (ks : List (Keyframe Rat)) : List (Rat × Rat) := ks.map fun k => (k.time, k.value)

theorem sampleFrom_eq_interpolant {a : Keyframe Rat} {x : Rat} (h : a.time < x)
    (ks : List (Keyframe Rat)) : sampleFrom x a ks = interpolant (points (a :: ks)) x := by
  induction ks generalizing a with
  | nil => rfl
  | cons b ks ih =>
    rw [sampleFrom, points, List.map_cons, List.map_cons, interpolant, if_neg (not_le_of_gt h)]
    split
    · rw [mul_comm (b.value - a.value)]
    · next hb => exact ih (lt_of_not_ge hb)

theorem sample_eq_interpolant (c : Curve Rat) (x : Rat) :
    c.sample x = interpolant (points c.keys) x := by
  rw [sample]
  split
  · next hx =>
    have hfirst : (points c.keys).head? = some (c.first.time, c.first.value) := rfl
    exact (interpolant_of_le hfirst hx).symm
  · next hx => exact sampleFrom_eq_interpolant (lt_of_not_ge hx) c.rest

/-- A function of time is piecewise linear through keyframes. It holds the outer values before the
first and after the last of them, and every other time lies between two neighbours, where it goes
straight from the value of one to that of the other. -/
structure PiecewiseLinear (ks : List (Keyframe Rat)) (f : Rat → Rat) : Prop where
  before : ∀ k ∈ ks.head?, ∀ x ≤ k.time, f x = k.value
  after : ∀ k ∈ ks.getLast?, ∀ x, k.time ≤ x → f x = k.value
  through : ∀ k ∈ ks, f k.time = k.value
  between : ∀ (i : Nat) (a b : Keyframe Rat), ks[i]? = some a → ks[i + 1]? = some b →
    ∀ x, a.time ≤ x → x ≤ b.time → f x = (1 - (x - a.time) / (b.time - a.time)) * a.value
      + (x - a.time) / (b.time - a.time) * b.value
  covered : ∀ x, (∃ k ∈ ks.head?, x ≤ k.time) ∨ (∃ k ∈ ks.getLast?, k.time ≤ x) ∨
    ∃ (i : Nat) (a b : Keyframe Rat), ks[i]? = some a ∧ ks[i + 1]? = some b ∧
      a.time ≤ x ∧ x ≤ b.time

theorem exists_enclosing {ks : List (Keyframe Rat)} {first last : Keyframe Rat} {x : Rat}
    (hfirst : ks.head? = some first) (hlast : ks.getLast? = some last) (hlow : first.time ≤ x)
    (hhigh : x < last.time) : ∃ (i : Nat) (a b : Keyframe Rat), ks[i]? = some a ∧
      ks[i + 1]? = some b ∧ a.time ≤ x ∧ x ≤ b.time := by
  obtain ⟨i, a, b, -, ha, hb, hpass, hfail⟩ := exists_neighbours (p := fun k => decide (k.time ≤ x))
    hfirst hlast (decide_eq_true hlow) (decide_eq_false (not_le_of_gt hhigh))
  exact ⟨i, a, b, ha, hb, of_decide_eq_true hpass, le_of_not_ge (of_decide_eq_false hfail)⟩

theorem piecewiseLinear (c : Curve Rat) : PiecewiseLinear c.keys c.sample := by
  have ascending : (points c.keys).Pairwise fun p q => p.1 < q.1 :=
    List.pairwise_map.mpr c.ascending
  simp only [funext c.sample_eq_interpolant]
  constructor
  case before =>
    intro k hk x hx
    have hfirst : (points c.keys).head? = some (k.time, k.value) := by
      rw [points, List.head?_map, Option.mem_def.mp hk, Option.map_some]
    exact interpolant_of_le hfirst hx
  case after =>
    intro k hk x hx
    have hlast : (points c.keys).getLast? = some (k.time, k.value) := by
      rw [points, List.getLast?_map, Option.mem_def.mp hk, Option.map_some]
    exact interpolant_of_ge ascending hlast hx
  case through =>
    intro k hk
    exact interpolant_of_mem ascending (List.mem_map_of_mem hk)
  case between =>
    intro i a b ha hb x hlow hhigh
    have ha' : (points c.keys)[i]? = some (a.time, a.value) := by
      rw [points, List.getElem?_map, ha, Option.map_some]
    have hb' : (points c.keys)[i + 1]? = some (b.time, b.value) := by
      rw [points, List.getElem?_map, hb, Option.map_some]
    exact interpolant_of_getElem? ascending ha' hb' hlow hhigh
  case covered =>
    intro x
    have hlast := List.getLast?_eq_some_getLast (List.cons_ne_nil c.first c.rest)
    by_cases hlow : x ≤ c.first.time
    · exact .inl ⟨c.first, rfl, hlow⟩
    · by_cases hhigh : (c.keys.getLast (List.cons_ne_nil _ _)).time ≤ x
      · exact .inr (.inl ⟨_, hlast, hhigh⟩)
      · exact .inr (.inr (exists_enclosing rfl hlast (le_of_not_ge hlow) (lt_of_not_ge hhigh)))

/-- The samples stay between the least and the greatest value of the keyframes. -/
theorem exists_bounds (c : Curve Rat) : ∃ low high, (c.keys.map Keyframe.value).min? = some low ∧
    (c.keys.map Keyframe.value).max? = some high ∧ ∀ x, low ≤ c.sample x ∧ c.sample x ≤ high := by
  have hne : c.keys.map Keyframe.value ≠ [] := List.cons_ne_nil _ _
  have hlow := List.min?_eq_some_min hne
  have hhigh := List.max?_eq_some_max hne
  refine ⟨_, _, hlow, hhigh, fun x => ?_⟩
  rw [sample_eq_interpolant]
  obtain ⟨⟨p, hp, hbelow⟩, q, hq, habove⟩ :=
    exists_interpolant_between (points c.keys) (List.cons_ne_nil _ _) x
  obtain ⟨k, hk, rfl⟩ := List.mem_map.mp hp
  obtain ⟨l, hl, rfl⟩ := List.mem_map.mp hq
  exact ⟨((List.min?_eq_some_iff.mp hlow).2 _ (List.mem_map_of_mem hk)).trans hbelow,
    habove.trans ((List.max?_eq_some_iff.mp hhigh).2 _ (List.mem_map_of_mem hl))⟩

/-- Keyframes that make a curve are sampled as the piecewise linear function through them, without a
division by zero, and within the bounds of their values. -/
theorem sample_interpolates {ks : List (Keyframe Rat)} {c : Curve Rat} (h : ofKeys? ks = .ok c) :
    PiecewiseLinear ks c.sample ∧ (∀ x, c.checked.sample (.of x) = .of (c.sample x)) ∧
    ∃ low high, (ks.map Keyframe.value).min? = some low ∧
      (ks.map Keyframe.value).max? = some high ∧ ∀ x, low ≤ c.sample x ∧ c.sample x ≤ high := by
  obtain rfl := keys_of_ofKeys? h
  exact ⟨c.piecewiseLinear, c.sample_checked, c.exists_bounds⟩

end Curve

namespace Sample

/-- Keyframes around the time at which leaves are sampled. -/
def sweep : List (Keyframe Rat) := [⟨-1, 2⟩, ⟨1, -3⟩, ⟨4, 5⟩]

end Sample

theorem Curve.sample_interpolates_sweep : ∃ c, ofKeys? Sample.sweep = .ok c ∧
    PiecewiseLinear Sample.sweep c.sample ∧ c.checked.sample 0 = .of (-1 / 2) ∧
    ∀ x, -3 ≤ c.sample x ∧ c.sample x ≤ 5 := by
  have h : ofKeys? Sample.sweep = .ok ⟨⟨-1, 2⟩, [⟨1, -3⟩, ⟨4, 5⟩], by decide +kernel⟩ := rfl
  obtain ⟨linear, hchecked, low, high, hlow, hhigh, hbounds⟩ := sample_interpolates h
  have hleast : (Sample.sweep.map Keyframe.value).min? = some (-3) := by decide +kernel
  have hgreatest : (Sample.sweep.map Keyframe.value).max? = some 5 := by decide +kernel
  obtain rfl := Option.some.inj (hlow.symm.trans hleast)
  obtain rfl := Option.some.inj (hhigh.symm.trans hgreatest)
  refine ⟨_, h, linear, (hchecked 0).trans ?_, hbounds⟩
  decide +kernel

end BlendGraph
