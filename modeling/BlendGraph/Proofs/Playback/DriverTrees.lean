import BlendGraph.Proofs.Compile.LeafClips
import BlendGraph.Proofs.Playback.RationalPlayback
import Mathlib.Algebra.BigOperators.Field
import Mathlib.Algebra.Order.Field.Basic

/-!
# Trees that drive a channel

A tree drives a channel with a value if the leaves that play add the value to the channel, and at
least one of them is for it, so that the channel is written even where the value is zero. One rule
for each way to put trees together says what the whole drives, and trees for other channels change
nothing.
-/

set_option autoImplicit false

namespace BlendGraph

/-- The number between two bounds that is nearest to another one. -/
def clamp (low high x : Rat) : Rat := max low (min high x)

theorem clamp_eq_self {low high x : Rat} (hlow : low ≤ x) (hhigh : x ≤ high) :
    clamp low high x = x := by
  rw [clamp, min_eq_right hhigh, max_eq_right hlow]

theorem clamp_of_le_low {low high x : Rat} (h : x ≤ low) : clamp low high x = low :=
  max_eq_left ((min_le_right high x).trans h)

theorem clamp_of_high_le {low high x : Rat} (hbounds : low ≤ high) (h : high ≤ x) :
    clamp low high x = high := by
  rw [clamp, min_eq_left h, max_eq_right hbounds]

theorem clamp_bounds {low high : Rat} (h : low ≤ high) (x : Rat) :
    low ≤ clamp low high x ∧ clamp low high x ≤ high :=
  ⟨le_max_left .., max_le h (min_le_left ..)⟩

/-! ### Driven channels -/

namespace Paths

theorem reaches_flatMap_eq_false {β : Type} {h : Host Rat} {t : String} {f : β → Paths}
    {xs : List β} (hxs : ∀ x ∈ xs, reaches h t (f x) = false) :
    reaches h t (xs.flatMap f) = false := by
  induction xs with
  | nil => rfl
  | cons x xs ih =>
    obtain ⟨hx, hxs⟩ := List.forall_mem_cons.mp hxs
    rw [List.flatMap_cons, reaches_append, hx, ih hxs, Bool.or_false]

/-- The leaves that play add a value to a channel, and at least one of them is for it. -/
structure Drives (h : Host Rat) (t : String) (ps : Paths) (v : Rat) : Prop where
  reaches : reaches h t ps = true
  level : level h t ps = v

namespace Drives

variable {h : Host Rat} {t : String} {ps qs : Paths} {v w : Rat}

/-- Leaves for other channels change nothing. -/
theorem append_left (drives : Drives h t ps v) (hqs : Paths.reaches h t qs = false) :
    Drives h t (ps ++ qs) v where
  reaches := by rw [reaches_append, drives.reaches, Bool.true_or]
  level := by rw [level_append, drives.level, level_eq_zero hqs, add_zero]

theorem append_right (drives : Drives h t ps v) (hqs : Paths.reaches h t qs = false) :
    Drives h t (qs ++ ps) v where
  reaches := by rw [reaches_append, drives.reaches, Bool.or_true]
  level := by rw [level_append, drives.level, level_eq_zero hqs, zero_add]

theorem flatMap {β : Type} {f : β → Paths} {xs : List β} {x : β} (hx : x ∈ xs)
    (nodup : xs.Nodup) (drives : Drives h t (f x) v)
    (hothers : ∀ y ∈ xs, y ≠ x → Paths.reaches h t (f y) = false) :
    Drives h t (xs.flatMap f) v := by
  obtain ⟨before, after, rfl⟩ := List.append_of_mem hx
  obtain ⟨-, hafter, hbefore⟩ := List.nodup_append.mp nodup
  rw [List.flatMap_append, List.flatMap_cons]
  apply append_right
  · apply drives.append_left
    apply reaches_flatMap_eq_false
    intro y hy
    apply hothers y (by simp [hy])
    rintro rfl
    exact (List.nodup_cons.mp hafter).1 hy
  · apply reaches_flatMap_eq_false
    intro y hy
    exact hothers y (by simp [hy]) (hbefore y hy x (List.mem_cons_self ..))

/-- What several groups of leaves add to one channel is added up. -/
theorem append (hps : Drives h t ps v) (hqs : Drives h t qs w) : Drives h t (ps ++ qs) (v + w) where
  reaches := by rw [reaches_append, hps.reaches, Bool.true_or]
  level := by rw [level_append, hps.level, hqs.level]

theorem flatMap_range {f : Nat → Paths} {g : Nat → Rat} {k : Nat} (hpos : 0 < k)
    (hf : ∀ i < k, Drives h t (f i) (g i)) :
    Drives h t ((List.range k).flatMap f) (∑ i ∈ Finset.range k, g i) := by
  induction k with
  | zero => exact absurd hpos (lt_irrefl 0)
  | succ k ih =>
    have hlast := hf k (Nat.lt_succ_self k)
    rw [List.range_succ, List.flatMap_append, List.flatMap_singleton, Finset.sum_range_succ]
    rcases Nat.eq_zero_or_pos k with rfl | hk
    · simpa using hlast
    · exact (ih hk fun i hi => hf i (Nat.lt_succ_of_lt hi)).append hlast

end Drives

end Paths

namespace Node

variable {h : Host Rat} {t : String} {value : String → Rat} {v w : Rat}

/-- No leaf of the tree is for the channel. -/
def Spares (h : Host Rat) (t : String) (n : Node Rat) : Prop :=
  ∀ clip ∈ n.clips, ∀ c ∈ h.resolve? clip, c.target ≠ t

instance (h : Host Rat) (t : String) (n : Node Rat) : Decidable (n.Spares h t) :=
  inferInstanceAs (Decidable (∀ clip ∈ n.clips, ∀ c ∈ h.resolve? clip, c.target ≠ t))

theorem Spares.reaches_paths {n : Node Rat} (spares : n.Spares h t) (value : String → Rat) :
    Paths.reaches h t (n.paths value) = false := by
  rw [Paths.reaches, List.any_eq_false]
  intro p hp
  rw [Bool.and_eq_true, not_and]
  intro _ htarget
  obtain ⟨c, hc, ht⟩ := (Option.any_eq_true _ _).mp htarget
  exact spares p.1 (mem_clips_of_mem_paths hp) c hc (of_decide_eq_true ht)

/-- Leaves whose clips are made for other channels spare the channel. -/
theorem Spares.of_clips {n : Node Rat} {ds : List (HeldClip Rat)}
    (hclips : n.clips = ds.map HeldClip.name)
    (plays : ∀ d ∈ ds, ∃ c, h.resolve? d.name = some c ∧ d.Records c)
    (hothers : ∀ d ∈ ds, d.target ≠ t) : n.Spares h t := by
  intro clip hclip c hc htarget
  rw [hclips] at hclip
  obtain ⟨d, hd, rfl⟩ := List.mem_map.mp hclip
  obtain ⟨c', hc', hrec⟩ := plays d hd
  obtain rfl := Option.some.inj (hc'.symm.trans hc)
  exact hothers d hd (hrec.2.1.symm.trans htarget)

/-- Between two thresholds both children play, outside of them one. -/
theorem shares_pair {β : Type} (a b : Rat) (channel : String) (c d : β) (x : Rat) :
    shares channel [(a, c), (b, d)] x = if x ≤ a then [(c, 1)] else if b ≤ x then [(d, 1)]
      else [(c, 1 - (x - a) / (b - a)), (d, (x - a) / (b - a))] := by
  by_cases hlow : x ≤ a
  · simp [shares, bracket, hlow, Except.toOption]
  · by_cases hhigh : b ≤ x
    · simp [shares, bracket, hlow, hhigh, Except.toOption]
    · have hpoint : partitionPoint (fun e : Rat × β => decide (e.1 ≤ x)) [(a, c), (b, d)] = 1 := by
        simp [partitionPoint, bisect, hhigh, le_of_not_ge hlow]
      simp [shares, bracket, hlow, hhigh, hpoint, Except.toOption]

theorem drives_leaf (value : String → Rat) {clip : String} {c : Clip Rat}
    (hc : h.resolve? clip = some c) (ht : c.target = t) :
    Paths.Drives h t ((leaf clip).paths value) (c.curve.sample 0) where
  reaches := by simp [Paths.reaches, hc, ht]
  level := by simp [Paths.level, gain, hc, ht]

/-- Two children that drive a channel do so together, each by its share. -/
theorem drives_pair {a b : Rat} (hab : a < b) (name channel : String) {c d : Node Rat}
    (hc : Paths.Drives h t (c.paths value) v) (hd : Paths.Drives h t (d.paths value) w) :
    Paths.Drives h t ((interp name channel [(a, c), (b, d)]).paths value)
      ((1 - clamp 0 1 ((value channel - a) / (b - a))) * v
        + clamp 0 1 ((value channel - a) / (b - a)) * w) := by
  have hwidth : 0 < b - a := sub_pos.mpr hab
  rw [paths_interp, shares_pair]
  split
  · next hlow =>
    have hshare : (value channel - a) / (b - a) ≤ 0 :=
      div_nonpos_of_nonpos_of_nonneg (sub_nonpos.mpr hlow) hwidth.le
    rw [clamp_of_le_low hshare]
    simpa using hc
  · next hlow =>
    split
    · next hhigh =>
      have hshare : 1 ≤ (value channel - a) / (b - a) :=
        (one_le_div hwidth).mpr (sub_le_sub_right hhigh a)
      rw [clamp_of_high_le zero_le_one hshare]
      simpa using hd
    · next hhigh =>
      have hpos : 0 < (value channel - a) / (b - a) :=
        div_pos (sub_pos.mpr (lt_of_not_ge hlow)) hwidth
      have hlt : (value channel - a) / (b - a) < 1 :=
        (div_lt_one hwidth).mpr (sub_lt_sub_right (lt_of_not_ge hhigh) a)
      rw [clamp_eq_self hpos.le hlt.le]
      constructor
      case reaches =>
        simp [Paths.reaches_scale hpos.ne', Paths.reaches_scale (sub_pos.mpr hlt).ne', hc.reaches]
      case level => simp [hc.level, hd.level]

theorem drives_unitPair (name channel : String) {c d : Node Rat}
    (hc : Paths.Drives h t (c.paths value) v) (hd : Paths.Drives h t (d.paths value) w) :
    Paths.Drives h t ((((interp name channel []).withThreshold 0 c).withThreshold 1 d).paths value)
      ((1 - clamp 0 1 (value channel)) * v + clamp 0 1 (value channel) * w) := by
  have hpair := drives_pair zero_lt_one name channel hc hd
  rw [sub_zero, sub_zero, div_one] at hpair
  rw [withThreshold_pair LawfulScalar.zero_le_one]
  exact hpair

/-- A sum adds children of weight one, of which all but one spare the channel. -/
theorem drives_sum {β : Type} {weight : String} (hweight : value weight = 1) (name : String)
    {f : β → Node Rat} {xs : List β} {x : β} (hx : x ∈ xs) (nodup : xs.Nodup)
    (hf : Paths.Drives h t ((f x).paths value) v)
    (hothers : ∀ y ∈ xs, y ≠ x → (f y).Spares h t) :
    Paths.Drives h t ((sum name (xs.map fun y => (weight, f y))).paths value) v := by
  rw [paths_sum, List.flatMap_map]
  simp only [hweight, Paths.scale_one]
  apply Paths.Drives.flatMap hx nodup hf
  intro y hy hne
  exact (hothers y hy hne).reaches_paths value

/-- A sum adds children of weight one that all drive the channel. -/
theorem drives_sum_range {weight : String} (hweight : value weight = 1) (name : String)
    {f : Nat → Node Rat} {g : Nat → Rat} {k : Nat} (hpos : 0 < k)
    (hf : ∀ i < k, Paths.Drives h t ((f i).paths value) (g i)) :
    Paths.Drives h t ((sum name ((List.range k).map fun i => (weight, f i))).paths value)
      (∑ i ∈ Finset.range k, g i) := by
  rw [paths_sum, List.flatMap_map]
  simp only [hweight, Paths.scale_one]
  exact Paths.Drives.flatMap_range hpos hf

end Node

theorem Curve.sample_zero {c : Curve Rat} {v : Rat} (h : c.keys = [⟨0, v⟩]) : c.sample 0 = v := by
  obtain ⟨hfirst, -⟩ := List.cons_eq_cons.mp h
  rw [sample, hfirst, if_pos (le_refl 0)]

/-- A frame writes to the channels that are driven. -/
theorem Playback.exists_step (q : Playback Rat) : ∃ writes r, q.step = .ok (writes, r) ∧
    r.host = q.host ∧ ∀ t v, Paths.Drives q.host t q.paths v →
      writes.get? t = some v ∧ r.get t = v := by
  obtain ⟨writes, r, hstep, hhost, hwrites⟩ := q.step_eq
  refine ⟨writes, r, hstep, hhost, fun t v drives => ?_⟩
  obtain ⟨hwritten, hget⟩ := hwrites t
  rw [if_pos drives.reaches, drives.level] at hwritten
  refine ⟨hwritten, ?_⟩
  rw [hget, hwritten]
  rfl

end BlendGraph
