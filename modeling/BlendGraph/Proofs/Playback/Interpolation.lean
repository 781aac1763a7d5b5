import BlendGraph.Proofs.Playback.EdgeWeights

/-!
# Interpolations interpolate

Where the thresholds ascend, an interpolation spreads its weight so that the weighted thresholds
give the key value, clamped between the outer ones. With leaves as children it plays the piecewise
linear function through the values of their clips.
-/

set_option autoImplicit false

namespace BlendGraph

/-! ### Weights -/

/-- Weights of the edges of an interpolation with these thresholds, for a point between them: parts
of one, on two neighbours at most. Under any weight of the whole, the weighted thresholds give the
point with that weight. -/
structure Distribution (thresholds : List Rat) (point : Rat) (us : List Rat) : Prop where
  length : us.length = thresholds.length
  nonneg : ∀ u ∈ us, 0 ≤ u
  sum : us.sum = 1
  neighbours : ∃ i, ∀ (j : Nat) (u : Rat), us[j]? = some u → u ≠ 0 → j = i ∨ j = i + 1
  mean : ∀ w, (List.zipWith (fun u t => w * u * t) us thresholds).sum = w * point

section

variable {β : Type} {channel : String} {cs before played after : List (Rat × β)} {x : Rat}
  {us : List Rat}

theorem eq_or_eq_succ_of_getElem? {m n : Nat} {us : List Rat} (short : us.length ≤ 2) {j : Nat}
    {u : Rat} (hj : (List.replicate m 0 ++ us ++ List.replicate n 0)[j]? = some u) (hu : u ≠ 0) :
    j = m ∨ j = m + 1 := by
  rw [List.append_assoc, List.getElem?_append, List.length_replicate] at hj
  split at hj
  · exact absurd (List.eq_of_mem_replicate (List.mem_of_getElem? hj)) hu
  · rw [List.getElem?_append] at hj
    split at hj
    · omega
    · exact absurd (List.eq_of_mem_replicate (List.mem_of_getElem? hj)) hu

theorem sum_zipWith_replicate_zero (w : Rat) (ts : List Rat) :
    (List.zipWith (fun u t => w * u * t) (List.replicate ts.length 0) ts).sum = 0 := by
  induction ts with
  | nil => rfl
  | cons t ts ih =>
    rw [List.length_cons, List.replicate_succ, List.zipWith_cons_cons, List.sum_cons, ih]
    ring

/-- Only the children that play count for the mean of the thresholds. -/
theorem Spread.distribution (spread : Spread channel cs x before played after us) {point : Rat}
    (hpoint : ∀ w, (List.zipWith (fun u t => w * u * t) us (played.map Prod.fst)).sum = w * point) :
    Distribution (cs.map Prod.fst) point (edgeWeights (cs.map Prod.fst) x) := by
  have hlength := length_edgeWeights cs x
  rw [spread.weights] at hlength ⊢
  constructor
  case length => rw [hlength, List.length_map]
  case nonneg =>
    simp only [List.mem_append, List.mem_replicate]
    rintro u ((⟨-, rfl⟩ | hu) | ⟨-, rfl⟩)
    · exact le_rfl
    · exact spread.nonneg u hu
    · exact le_rfl
  case sum => simp [spread.sum]
  case neighbours =>
    exact ⟨before.length, fun j u hj hu => eq_or_eq_succ_of_getElem? spread.short hj hu⟩
  case mean =>
    intro w
    have hbefore := sum_zipWith_replicate_zero w (before.map Prod.fst)
    have hafter := sum_zipWith_replicate_zero w (after.map Prod.fst)
    rw [List.length_map] at hbefore hafter
    rw [spread.children, List.map_append, List.map_append,
      List.zipWith_append (by simp [spread.length]), List.zipWith_append (by simp), List.sum_append,
      List.sum_append, hbefore, hafter, hpoint]
    ring

theorem head_le_of_mem {c d : Rat × β} (sorted : (c :: cs).Pairwise fun a b => a.1 ≤ b.1)
    (h : d ∈ c :: cs) : c.1 ≤ d.1 := by
  rcases List.mem_cons.mp h with rfl | htail
  · exact le_rfl
  · exact (List.pairwise_cons.mp sorted).1 d htail

theorem le_of_sorted {first last : Rat × β} (sorted : cs.Pairwise fun a b => a.1 ≤ b.1)
    (hfirst : cs.head? = some first) (hlast : cs.getLast? = some last) : first.1 ≤ last.1 := by
  rw [← List.cons_head?_tail hfirst] at sorted hlast
  exact head_le_of_mem sorted (List.mem_of_getLast? hlast)

/-- Among ascending thresholds the weights are for the key value itself, or for the outer threshold
beyond which it lies. -/
theorem distribution_edgeWeights (hne : cs ≠ []) (sorted : cs.Pairwise fun a b => a.1 ≤ b.1)
    (x : Rat) : Distribution (cs.map Prod.fst) (clamp (cs.head hne).1 (cs.getLast hne).1 x)
      (edgeWeights (cs.map Prod.fst) x) := by
  have hfirst := List.head?_eq_some_head hne
  have hlast := List.getLast?_eq_some_getLast hne
  by_cases hlow : x ≤ (cs.head hne).1
  · rw [clamp_of_le_low hlow]
    exact (spread_low "" hfirst hlast hlow).distribution fun w => by simp
  · by_cases hhigh : (cs.getLast hne).1 ≤ x
    · rw [clamp_of_high_le (le_of_sorted sorted hfirst hlast) hhigh]
      exact (spread_high "" hfirst hlast hlow hhigh).distribution fun w => by simp
    · rw [clamp_eq_self (le_of_not_ge hlow) (le_of_not_ge hhigh)]
      obtain ⟨i, a, b, lookup, spread⟩ := spread_inner "" hfirst hlast hlow hhigh
      have hwidth : b.1 - a.1 ≠ 0 :=
        (sub_pos.mpr (lookup.low.trans_lt (lt_of_not_ge lookup.high))).ne'
      refine spread.distribution fun w => ?_
      calc (List.zipWith (fun u t => w * u * t)
              [1 - (x - a.1) / (b.1 - a.1), (x - a.1) / (b.1 - a.1)] [a.1, b.1]).sum
          = w * (a.1 + (x - a.1) / (b.1 - a.1) * (b.1 - a.1)) := by
            simp only [List.zipWith_cons_cons, List.zipWith_nil_left, List.sum_cons, List.sum_nil]
            ring
        _ = w * x := by rw [div_mul_cancel₀ _ hwidth, add_sub_cancel]

/-- Of several children with the same threshold none but the outer ones plays. -/
example : edgeWeights [0, 1, 1, 1, 3] 1 = [0, 0, 0, 1, 0] := by decide +kernel

end

namespace Node

/-- An interpolation plays all its children, each with its part of the weight. -/
theorem play_interp (h : Host Rat) (value : String → Rat) (name channel : String)
    (cs : List (Rat × Node Rat)) (w : Rat) : (interp name channel cs).play h value w
      = (((cs.map Prod.snd).zip (edgeWeights (cs.map Prod.fst) (value channel))).mapM
          fun (c : Node Rat × Rat) => c.1.play h value (w * c.2)).map List.flatten := by
  let part (c : Node Rat × Rat) := (Paths.scale (w * c.2) (c.1.paths value)).filterMap (heard h)
  have hpart (c : Node Rat × Rat) : c.1.play h value (w * c.2) = .ok (part c) :=
    c.1.play_eq h value (w * c.2)
  have hzero (n : Node Rat) : part (n, 0) = [] := by
    dsimp only [part]
    rw [mul_zero, heard_scale_zero]
  rw [mapM_eq_ok fun c _ => hpart c, play_eq, paths_interp, Paths.scale_flatMap,
    List.filterMap_flatMap]
  simp only [Paths.scale_scale]
  exact congrArg Except.ok (flatMap_edgeWeights hzero channel cs (value channel)).symm

end Node

/-! ### Values -/

/-- The piecewise linear function through points that are listed in the order of their positions. It
is constant before the first one and after the last one. -/
def interpolant : List (Rat × Rat) → Rat → Rat
  | [], _ => 0
  | [p], _ => p.2
  | p :: q :: ps, x =>
    if x ≤ p.1 then p.2
    else if x ≤ q.1 then p.2 + (x - p.1) / (q.1 - p.1) * (q.2 - p.2)
    else interpolant (q :: ps) x

theorem interpolant_of_le {points : List (Rat × Rat)} {first : Rat × Rat} {x : Rat}
    (hfirst : points.head? = some first) (h : x ≤ first.1) : interpolant points x = first.2 := by
  cases points with
  | nil => cases hfirst
  | cons p ps =>
    cases hfirst
    cases ps with
    | nil => rfl
    | cons q ps => exact if_pos h

/-- Behind the second point the first one does not count. -/
theorem interpolant_cons_of_ge {p q : Rat × Rat} {ps : List (Rat × Rat)} {x : Rat} (hpq : p.1 < q.1)
    (h : q.1 ≤ x) : interpolant (p :: q :: ps) x = interpolant (q :: ps) x := by
  rw [interpolant, if_neg (not_le_of_gt (hpq.trans_le h))]
  split
  · next hx =>
    rw [interpolant_of_le (List.head?_cons ..) hx, le_antisymm hx h,
      div_self (sub_pos.mpr hpq).ne', one_mul, add_sub_cancel]
  · rfl

theorem interpolant_of_ge {points : List (Rat × Rat)} {last : Rat × Rat} {x : Rat}
    (ascending : points.Pairwise fun p q => p.1 < q.1) (hlast : points.getLast? = some last)
    (h : last.1 ≤ x) : interpolant points x = last.2 := by
  induction points with
  | nil => cases hlast
  | cons p ps ih =>
    cases ps with
    | nil =>
      cases hlast
      rfl
    | cons q ps =>
      obtain ⟨hp, ascending⟩ := List.pairwise_cons.mp ascending
      rw [List.getLast?_cons_cons] at hlast
      have hqx : q.1 ≤ x :=
        (le_of_sorted (ascending.imp le_of_lt) (List.head?_cons ..) hlast).trans h
      rw [interpolant_cons_of_ge (hp q (List.mem_cons_self ..)) hqx]
      exact ih ascending hlast

theorem interpolant_of_getElem? {points : List (Rat × Rat)} {i : Nat} {a b : Rat × Rat} {x : Rat}
    (ascending : points.Pairwise fun p q => p.1 < q.1) (ha : points[i]? = some a)
    (hb : points[i + 1]? = some b) (hlow : a.1 ≤ x) (hhigh : x ≤ b.1) :
    interpolant points x = (1 - (x - a.1) / (b.1 - a.1)) * a.2 + (x - a.1) / (b.1 - a.1) * b.2 := by
  induction points generalizing i with
  | nil => cases ha
  | cons p ps ih =>
    obtain ⟨hp, ascending⟩ := List.pairwise_cons.mp ascending
    cases ps with
    | nil => cases hb
    | cons q ps =>
      cases i with
      | zero =>
        cases ha
        cases hb
        rw [interpolant, if_pos hhigh]
        split
        · next hx =>
          rw [le_antisymm hx hlow, sub_self]
          ring
        · ring
      | succ i =>
        rw [List.getElem?_cons_succ] at ha hb
        have hqa : q.1 ≤ a.1 :=
          head_le_of_mem (ascending.imp le_of_lt) (List.mem_of_getElem? ha)
        rw [interpolant_cons_of_ge (hp q (List.mem_cons_self ..)) (hqa.trans hlow)]
        exact ih ascending ha hb

theorem interpolant_of_mem {points : List (Rat × Rat)} {p : Rat × Rat}
    (ascending : points.Pairwise fun p q => p.1 < q.1) (hp : p ∈ points) :
    interpolant points p.1 = p.2 := by
  induction points with
  | nil => cases hp
  | cons q qs ih =>
    obtain ⟨hq, ascending⟩ := List.pairwise_cons.mp ascending
    rcases List.mem_cons.mp hp with rfl | hmem
    · exact interpolant_of_le (List.head?_cons ..) le_rfl
    · cases qs with
      | nil => cases hmem
      | cons r rs =>
        have hrp : r.1 ≤ p.1 := head_le_of_mem (ascending.imp le_of_lt) hmem
        rw [interpolant_cons_of_ge (hq r (List.mem_cons_self ..)) hrp]
        exact ih ascending hmem

/-- The function stays between the least and the greatest value of its points. -/
theorem exists_interpolant_between (points : List (Rat × Rat)) (hne : points ≠ []) (x : Rat) :
    (∃ p ∈ points, p.2 ≤ interpolant points x) ∧ ∃ p ∈ points, interpolant points x ≤ p.2 := by
  induction points with
  | nil => exact absurd rfl hne
  | cons p ps ih =>
    cases ps with
    | nil => exact ⟨⟨p, List.mem_cons_self .., le_rfl⟩, p, List.mem_cons_self .., le_rfl⟩
    | cons q ps =>
      have hp : p ∈ p :: q :: ps := List.mem_cons_self ..
      have hq : q ∈ p :: q :: ps := List.mem_cons_of_mem _ (List.mem_cons_self ..)
      rw [interpolant]
      split
      · exact ⟨⟨p, hp, le_rfl⟩, p, hp, le_rfl⟩
      · next hlow =>
        split
        · next hhigh =>
          have hpx : p.1 < x := lt_of_not_ge hlow
          have hwidth : 0 < q.1 - p.1 := sub_pos.mpr (hpx.trans_le hhigh)
          have hnonneg : 0 ≤ (x - p.1) / (q.1 - p.1) :=
            div_nonneg (sub_nonneg.mpr hpx.le) hwidth.le
          have hle : (x - p.1) / (q.1 - p.1) ≤ 1 :=
            (div_le_one hwidth).mpr (sub_le_sub_right hhigh p.1)
          rcases le_total p.2 q.2 with hpq | hqp
          · exact ⟨⟨p, hp, by nlinarith⟩, q, hq, by nlinarith⟩
          · exact ⟨⟨q, hq, by nlinarith⟩, p, hp, by nlinarith⟩
        · obtain ⟨⟨l, hl, hbelow⟩, m, hm, habove⟩ := ih (List.cons_ne_nil _ _)
          exact ⟨⟨l, List.mem_cons_of_mem _ hl, hbelow⟩, m, List.mem_cons_of_mem _ hm, habove⟩

/-! ### Leaves -/

section

variable {h : Host Rat} {t channel : String} {leaves : List (Rat × String)} {x : Rat}

/-- The piecewise linear function through the values of clips for a channel. -/
def blend (h : Host Rat) (t : String) (leaves : List (Rat × String)) (x : Rat) : Rat :=
  interpolant (leaves.map fun l => (l.1, gain h t l.2)) x

theorem level_shares (hne : leaves ≠ []) (ascending : leaves.Pairwise fun l m => l.1 < m.1) :
    Paths.level h t (shares channel leaves x) = blend h t leaves x := by
  have hfirst := List.head?_eq_some_head hne
  have hlast := List.getLast?_eq_some_getLast hne
  let point (l : Rat × String) : Rat × Rat := (l.1, gain h t l.2)
  have hpoints : (leaves.map point).Pairwise fun p q => p.1 < q.1 :=
    List.pairwise_map.mpr ascending
  change _ = interpolant (leaves.map point) x
  by_cases hlow : x ≤ (leaves.head hne).1
  · have hstart : (leaves.map point).head? = some (point (leaves.head hne)) := by
      rw [List.head?_map, hfirst, Option.map_some]
    rw [shares_of_bracket (bracket_low channel hfirst hlast hlow), interpolant_of_le hstart hlow]
    simp [Paths.level, point]
  · by_cases hhigh : (leaves.getLast hne).1 ≤ x
    · have hend : (leaves.map point).getLast? = some (point (leaves.getLast hne)) := by
        rw [List.getLast?_map, hlast, Option.map_some]
      rw [shares_of_bracket (bracket_high channel hfirst hlast hlow hhigh),
        interpolant_of_ge hpoints hend hhigh]
      simp [Paths.level, point]
    · obtain ⟨i, a, b, lookup, hbracket⟩ :=
        bracket_inner channel hfirst hlast hlow hhigh (le_of_not_ge hlow)
      have ha : (leaves.map point)[i]? = some (point a) := by
        rw [List.getElem?_map, lookup.lower, Option.map_some]
      have hb : (leaves.map point)[i + 1]? = some (point b) := by
        rw [List.getElem?_map, lookup.upper, Option.map_some]
      rw [shares_of_bracket hbracket,
        interpolant_of_getElem? hpoints ha hb lookup.low (le_of_not_ge lookup.high)]
      simp [Paths.level, point]

/-- The shares are not all zero. -/
theorem reaches_shares (hne : leaves ≠ [])
    (htargets : ∀ l ∈ leaves, ∃ c ∈ h.resolve? l.2, c.target = t) :
    Paths.reaches h t (shares channel leaves x) = true := by
  obtain ⟨before, played, after, us, spread⟩ := exists_spread channel hne x
  have hus : us = (shares channel leaves x).map Prod.snd := by
    rw [spread.shares, List.map_snd_zip (by simp [spread.length])]
  obtain ⟨s, hs, hne⟩ : ∃ s ∈ shares channel leaves x, s.2 ≠ 0 := by
    by_contra hnone
    push Not at hnone
    have hsum : us.sum = 0 := List.sum_eq_zero fun u hu => by
      obtain ⟨s, hs, rfl⟩ := List.mem_map.mp (hus ▸ hu)
      exact hnone s hs
    exact one_ne_zero (spread.sum.symm.trans hsum)
  obtain ⟨l, hl, heq⟩ := List.mem_map.mp (mem_of_mem_shares hs)
  obtain ⟨c, hc, htarget⟩ := htargets l hl
  refine List.any_eq_true.mpr ⟨s, hs, ?_⟩
  rw [← heq, Option.mem_def.mp hc]
  simp [hne, htarget]

end

namespace Node

theorem paths_interp_leaves (value : String → Rat) (name channel : String)
    (leaves : List (Rat × String)) : (interp name channel (leaves.map fun l =>
      (l.1, leaf l.2))).paths value = shares channel leaves (value channel) := by
  rw [paths_interp, shares_map channel leaf, List.flatMap_map]
  simp [Paths.scale]

/-- Leaves for one channel play to it the value between those of their clips. -/
theorem exists_play_leaves {h : Host Rat} {t : String} {leaves : List (Rat × String)}
    (value : String → Rat) (name channel : String) (hne : leaves ≠ [])
    (ascending : leaves.Pairwise fun l m => l.1 < m.1)
    (htargets : ∀ l ∈ leaves, ∃ c ∈ h.resolve? l.2, c.target = t) (w : Rat) :
    ∃ ps, (interp name channel (leaves.map fun l => (l.1, leaf l.2))).play h value w = .ok ps ∧
      (Playback.total ps).get? t = if w = 0 then none
        else some (w * blend h t leaves (value channel)) := by
  refine ⟨_, play_eq .., ?_⟩
  rw [Playback.get?_total, paths_interp_leaves]
  by_cases hw : w = 0
  · rw [hw, if_pos rfl, if_neg]
    simp [Paths.reaches, Paths.scale]
  · rw [Paths.reaches_scale hw, reaches_shares hne htargets, Paths.level_scale,
      level_shares hne ascending, if_pos rfl, if_neg hw]

/-- An interpolation is clamped and piecewise linear. At every key value it plays its children with
weights that are parts of its own, on two neighbours at most, and that are for the key value between
the outer thresholds. Leaves for one channel, with distinct thresholds, drive it with the piecewise
linear function through the values of their clips, which stays between the least and the greatest.
-/
theorem interp_interpolates (name channel : String) {cs : List (Rat × Node Rat)} (hne : cs ≠ [])
    (sorted : cs.Pairwise fun a b => a.1 ≤ b.1) (value : String → Rat) :
    Distribution (cs.map Prod.fst) (clamp (cs.head hne).1 (cs.getLast hne).1 (value channel))
      (edgeWeights (cs.map Prod.fst) (value channel)) ∧
    (∀ h w, (interp name channel cs).play h value w
      = (((cs.map Prod.snd).zip (edgeWeights (cs.map Prod.fst) (value channel))).mapM
          fun (c : Node Rat × Rat) => c.1.play h value (w * c.2)).map List.flatten) ∧
    ∀ (h : Host Rat) (t : String) (leaves : List (Rat × String)),
      cs = leaves.map (fun l => (l.1, leaf l.2)) → (leaves.map Prod.fst).Nodup →
      (∀ l ∈ leaves, ∃ c ∈ h.resolve? l.2, c.target = t) →
      (∀ w, ∃ ps, (interp name channel cs).play h value w = .ok ps ∧
        (Playback.total ps).get? t
          = if w = 0 then none else some (w * blend h t leaves (value channel))) ∧
      (∃ l ∈ leaves, gain h t l.2 ≤ blend h t leaves (value channel)) ∧
      ∃ l ∈ leaves, blend h t leaves (value channel) ≤ gain h t l.2 := by
  refine ⟨distribution_edgeWeights hne sorted _,
    fun h w => play_interp h value name channel cs w, ?_⟩
  rintro h t leaves rfl distinct htargets
  have hleaves : leaves ≠ [] := fun heq => hne (List.map_eq_nil_iff.mpr heq)
  have ascending : leaves.Pairwise fun l m => l.1 < m.1 :=
    (List.pairwise_map.mp sorted).imp₂ (fun _ _ hle hne => lt_of_le_of_ne hle hne)
      (List.pairwise_map.mp distinct)
  obtain ⟨⟨p, hp, hbelow⟩, q, hq, habove⟩ := exists_interpolant_between
    (leaves.map fun l => (l.1, gain h t l.2)) (fun heq => hleaves (List.map_eq_nil_iff.mp heq))
    (value channel)
  obtain ⟨l, hl, rfl⟩ := List.mem_map.mp hp
  obtain ⟨m, hm, rfl⟩ := List.mem_map.mp hq
  exact ⟨exists_play_leaves value name channel hleaves ascending htargets,
    ⟨l, hl, hbelow⟩, m, hm, habove⟩

end Node

namespace Sample

def steps : List (Rat × String) := [(0, "Low"), (1, "Mid"), (3, "High")]

def constantClip (name : String) (value : Rat) : Clip Rat := ⟨name, "Out", ⟨⟨0, value⟩, [], rfl⟩⟩

def stepping : Host Rat :=
  (((Host.empty "demo").putClip (constantClip "Low" 1)).putClip (constantClip "Mid" 5)).putClip
    (constantClip "High" 2)

end Sample

theorem Node.interp_interpolates_sample :
    (Sample.steps.map Prod.fst).Nodup ∧ Distribution [0, 1, 3] 2 [0, 1 / 2, 1 / 2] ∧
    ∃ ps, (interp "Blend" "Jaw" (Sample.steps.map fun l => (l.1, leaf l.2))).play Sample.stepping
        (fun _ => 2) 4 = .ok ps ∧ (Playback.total ps).get? "Out" = some 14 := by
  have distinct : (Sample.steps.map Prod.fst).Nodup := by decide
  have htargets : ∀ l ∈ Sample.steps, ∃ c ∈ Sample.stepping.resolve? l.2, c.target = "Out" := by
    decide +kernel
  have hblend : blend Sample.stepping "Out" Sample.steps 2 = 7 / 2 := by decide +kernel
  have sorted : (Sample.steps.map fun l => (l.1, (leaf l.2 : Node Rat))).Pairwise fun a b =>
      a.1 ≤ b.1 :=
    List.pairwise_map.mpr (show Sample.steps.Pairwise fun l m => l.1 ≤ m.1 by decide)
  obtain ⟨distribution, -, hleaves⟩ :=
    interp_interpolates "Blend" "Jaw" (List.cons_ne_nil _ _) sorted fun _ => 2
  refine ⟨distinct, ?_, ?_⟩
  · have hweights : edgeWeights [0, 1, 3] 2 = [0, 1 / 2, 1 / 2] := by decide +kernel
    rw [← hweights]
    exact distribution
  · obtain ⟨ps, hplay, hget⟩ := (hleaves _ "Out" Sample.steps rfl distinct htargets).1 4
    refine ⟨ps, hplay, hget.trans ?_⟩
    rw [hblend]
    norm_num

end BlendGraph
