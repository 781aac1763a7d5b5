import Mathlib
import BlendGraph.Proofs.Playback.KeyLookup
import BlendGraph.Proofs.Playback.DriverTrees

/-!
# How an interpolation spreads its weight

Every child of an interpolation has a weight, and all but one child or two neighbours have weight
zero. The others have their shares, which are parts of one, and the thresholds weighted with them
give the key value, or the outer threshold that it lies beyond.
-/

set_option autoImplicit false

namespace BlendGraph

variable {β γ : Type}

theorem eq_take_append_pair {xs : List β} {i : Nat} {a b : β} (ha : xs[i]? = some a)
    (hb : xs[i + 1]? = some b) : xs = xs.take i ++ [a, b] ++ xs.drop (i + 2) := by
  obtain ⟨hi, rfl⟩ := List.getElem?_eq_some_iff.mp ha
  obtain ⟨hsucc, rfl⟩ := List.getElem?_eq_some_iff.mp hb
  calc xs = xs.take i ++ xs.drop i := (List.take_append_drop i xs).symm
    _ = xs.take i ++ (xs[i] :: xs[i + 1] :: xs.drop (i + 2)) := by
      rw [List.drop_eq_getElem_cons hi, List.drop_eq_getElem_cons hsucc]
    _ = xs.take i ++ [xs[i], xs[i + 1]] ++ xs.drop (i + 2) := by
      rw [List.append_assoc]
      rfl

/-! ### Weights of edges -/

/-- The weight of each edge of an interpolation with these thresholds at a key value. Below the
first threshold and above the last one all weight is on one edge, and in between it is on those of
the two neighbours where the lookup of the key value ends. -/
def edgeWeights (thresholds : List Rat) (x : Rat) : List Rat :=
  match thresholds.head?, thresholds.getLast? with
  | some first, some last =>
    if x ≤ first then 1 :: List.replicate (thresholds.length - 1) 0
    else if last ≤ x then List.replicate (thresholds.length - 1) 0 ++ [1]
    else
      let upper := partitionPoint (fun t => decide (t ≤ x)) thresholds
      let low := thresholds.getD (upper - 1) 0
      let high := thresholds.getD upper 0
      let t := (x - low) / (high - low)
      List.replicate (upper - 1) 0 ++ [1 - t, t]
        ++ List.replicate (thresholds.length - (upper + 1)) 0
  | _, _ => []

/-- The children that play are neighbours, with their shares as weights, and all edges before and
after them have weight zero. -/
structure Spread (channel : String) (cs : List (Rat × β)) (x : Rat)
    (before played after : List (Rat × β)) (us : List Rat) : Prop where
  children : cs = before ++ played ++ after
  weights : edgeWeights (cs.map Prod.fst) x
    = List.replicate before.length 0 ++ us ++ List.replicate after.length 0
  shares : shares channel cs x = (played.map Prod.snd).zip us
  length : us.length = played.length
  short : us.length ≤ 2
  nonneg : ∀ u ∈ us, 0 ≤ u
  sum : us.sum = 1

variable {channel : String} {cs : List (Rat × β)} {x : Rat} {first last : Rat × β}

theorem shares_of_bracket {ss : List (β × Rat)} (h : bracket channel cs x = .ok ss) :
    shares channel cs x = ss := by
  rw [bracket_eq] at h
  exact Except.ok.inj h

theorem spread_low (channel : String) (hfirst : cs.head? = some first)
    (hlast : cs.getLast? = some last) (h : x ≤ first.1) :
    Spread channel cs x [] [first] cs.tail [1] where
  children := (List.cons_head?_tail hfirst).symm
  weights := by simp [edgeWeights, hfirst, hlast, h]
  shares := shares_of_bracket (bracket_low channel hfirst hlast h)
  length := rfl
  short := by decide
  nonneg := by simp
  sum := by simp

theorem spread_high (channel : String) (hfirst : cs.head? = some first)
    (hlast : cs.getLast? = some last) (hlow : ¬ x ≤ first.1) (h : last.1 ≤ x) :
    Spread channel cs x cs.dropLast [last] [] [1] where
  children := by
    rw [List.append_nil]
    exact (List.dropLast_append_getLast? last hlast).symm
  weights := by simp [edgeWeights, hfirst, hlast, hlow, h]
  shares := shares_of_bracket (bracket_high channel hfirst hlast hlow h)
  length := rfl
  short := by decide
  nonneg := by simp
  sum := by simp

theorem spread_inner (channel : String) (hfirst : cs.head? = some first)
    (hlast : cs.getLast? = some last) (hlow : ¬ x ≤ first.1) (hhigh : ¬ last.1 ≤ x) :
    ∃ i a b, Lookup cs x i a b ∧ Spread channel cs x (cs.take i) [a, b] (cs.drop (i + 2))
      [1 - (x - a.1) / (b.1 - a.1), (x - a.1) / (b.1 - a.1)] := by
  obtain ⟨i, a, b, lookup, hbracket⟩ :=
    bracket_inner channel hfirst hlast hlow hhigh (le_of_not_ge hlow)
  have hlt : x < b.1 := lt_of_not_ge lookup.high
  have hwidth : 0 < b.1 - a.1 := sub_pos.mpr (lookup.low.trans_lt hlt)
  have hi := (List.getElem?_eq_some_iff.mp lookup.lower).1
  refine ⟨i, a, b, lookup, ?_⟩
  constructor
  case children => exact eq_take_append_pair lookup.lower lookup.upper
  case weights =>
    have hpoint : partitionPoint (fun t => decide (t ≤ x)) (cs.map Prod.fst) = i + 1 := by
      rw [partitionPoint_map]
      exact lookup.point
    simp [edgeWeights, hfirst, hlast, hlow, hhigh, hpoint, lookup.lower, lookup.upper, hi.le]
  case shares => exact shares_of_bracket hbracket
  case length => rfl
  case short => exact le_refl 2
  case nonneg =>
    have hshare : (x - a.1) / (b.1 - a.1) ≤ 1 :=
      (div_le_one hwidth).mpr (sub_le_sub_right hlt.le a.1)
    refine List.forall_mem_cons.mpr ⟨sub_nonneg.mpr hshare, List.forall_mem_singleton.mpr ?_⟩
    exact div_nonneg (sub_nonneg.mpr lookup.low) hwidth.le
  case sum => simp

/-- Every interpolation with children spreads its weight. -/
theorem exists_spread (channel : String) (hne : cs ≠ []) (x : Rat) :
    ∃ before played after us, Spread channel cs x before played after us := by
  have hfirst := List.head?_eq_some_head hne
  have hlast := List.getLast?_eq_some_getLast hne
  by_cases hlow : x ≤ (cs.head hne).1
  · exact ⟨_, _, _, _, spread_low channel hfirst hlast hlow⟩
  · by_cases hhigh : (cs.getLast hne).1 ≤ x
    · exact ⟨_, _, _, _, spread_high channel hfirst hlast hlow hhigh⟩
    · obtain ⟨_, _, _, -, spread⟩ := spread_inner channel hfirst hlast hlow hhigh
      exact ⟨_, _, _, _, spread⟩

theorem length_edgeWeights (cs : List (Rat × β)) (x : Rat) :
    (edgeWeights (cs.map Prod.fst) x).length = cs.length := by
  by_cases hne : cs = []
  · rw [hne]
    rfl
  · obtain ⟨before, played, after, us, spread⟩ := exists_spread "" hne x
    rw [spread.weights, spread.children]
    simp [spread.length]

theorem flatMap_zip_replicate_zero {f : β × Rat → List γ} (hf : ∀ b, f (b, 0) = []) (xs : List β) :
    (xs.zip (List.replicate xs.length 0)).flatMap f = [] := by
  rw [List.flatMap_eq_nil_iff]
  rintro ⟨b, u⟩ hmem
  rw [List.eq_of_mem_replicate (List.of_mem_zip hmem).2, hf]

/-- Where nothing comes of weight zero, all children with the weights of their edges give what the
shares give. -/
theorem flatMap_edgeWeights {f : β × Rat → List γ} (hf : ∀ b, f (b, 0) = []) (channel : String)
    (cs : List (Rat × β)) (x : Rat) :
    ((cs.map Prod.snd).zip (edgeWeights (cs.map Prod.fst) x)).flatMap f
      = (shares channel cs x).flatMap f := by
  by_cases hne : cs = []
  · rw [hne]
    rfl
  · obtain ⟨before, played, after, us, spread⟩ := exists_spread channel hne x
    rw [spread.weights, spread.shares, spread.children, List.map_append, List.map_append,
      List.zip_append (by simp [spread.length]), List.zip_append (by simp), List.flatMap_append,
      List.flatMap_append]
    have hbefore := flatMap_zip_replicate_zero hf (before.map Prod.snd)
    have hafter := flatMap_zip_replicate_zero hf (after.map Prod.snd)
    rw [List.length_map] at hbefore hafter
    rw [hbefore, hafter, List.nil_append, List.append_nil]

end BlendGraph
