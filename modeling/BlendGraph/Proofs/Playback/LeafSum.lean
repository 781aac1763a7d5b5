import BlendGraph.Proofs.Playback.EdgeWeights

/-!
# A frame is a sum over the leaves

Every leaf of a tree stands at the end of a path of edges. A frame writes to a channel exactly if a
leaf for it has a path whose weights have a product other than zero, and it writes the sum of what
these leaves play.
-/

set_option autoImplicit false

namespace BlendGraph

/-! ### Occurrences of leaves -/

/-- A leaf at its place in a tree, with the weights of the edges on the path to it. -/
structure Occurrence where
  clip : String
  edges : List Rat
  deriving DecidableEq, Repr

namespace Occurrence

def below (w : Rat) (o : Occurrence) : Occurrence := { o with edges := w :: o.edges }

def weight (o : Occurrence) : Rat := o.edges.prod

/-- The leaf plays, and its clip is for the channel. -/
def Sounds (h : Host Rat) (t : String) (o : Occurrence) : Prop :=
  o.weight ≠ 0 ∧ ∃ c ∈ h.resolve? o.clip, c.target = t

instance (h : Host Rat) (t : String) (o : Occurrence) : Decidable (o.Sounds h t) :=
  inferInstanceAs (Decidable (_ ∧ _))

/-- What the leaf plays. -/
def amount (h : Host Rat) (o : Occurrence) : Rat :=
  match h.resolve? o.clip with
  | none => 0
  | some c => o.weight * c.curve.sample 0

/-- The clip and the weight of the whole path. -/
def weighted (o : Occurrence) : String × Rat := (o.clip, o.weight)

theorem map_weighted_below (w : Rat) (os : List Occurrence) :
    (os.map (below w)).map weighted = Paths.scale w (os.map weighted) := by
  rw [List.map_map, Paths.scale, List.map_map]
  apply List.map_congr_left
  intro o _
  simp [weighted, weight, below]

end Occurrence

namespace Node

mutual

/-- All leaves of the tree. The edges of an interpolation have the weights that its thresholds give
them, and those of a sum the values of their channels. -/
def occurrences (value : String → Rat) : Node Rat → List Occurrence
  | leaf clip => [⟨clip, []⟩]
  | interp _ channel cs =>
    occurrencesInterp value cs (edgeWeights (cs.map Prod.fst) (value channel))
  | sum _ cs => occurrencesSum value cs

def occurrencesInterp (value : String → Rat) : List (Rat × Node Rat) → List Rat → List Occurrence
  | [], _ => []
  | _ :: _, [] => []
  | (_, n) :: cs, w :: ws =>
    (occurrences value n).map (Occurrence.below w) ++ occurrencesInterp value cs ws

def occurrencesSum (value : String → Rat) : List (String × Node Rat) → List Occurrence
  | [] => []
  | (channel, n) :: cs =>
    (occurrences value n).map (Occurrence.below (value channel)) ++ occurrencesSum value cs

end

variable (value : String → Rat)

@[simp] theorem occurrences_leaf (clip : String) :
    (leaf clip).occurrences value = [⟨clip, []⟩] := rfl

@[simp] theorem occurrences_interp (name channel : String) (cs : List (Rat × Node Rat)) :
    (interp name channel cs).occurrences value
      = ((cs.map Prod.snd).zip (edgeWeights (cs.map Prod.fst) (value channel))).flatMap
          fun c => (c.1.occurrences value).map (Occurrence.below c.2) := by
  have general (cs : List (Rat × Node Rat)) (ws : List Rat) : occurrencesInterp value cs ws
      = ((cs.map Prod.snd).zip ws).flatMap
          fun c => (c.1.occurrences value).map (Occurrence.below c.2) := by
    induction cs generalizing ws with
    | nil => rfl
    | cons c cs ih =>
      cases ws with
      | nil => rfl
      | cons w ws =>
        rw [occurrencesInterp, ih, List.map_cons, List.zip_cons_cons, List.flatMap_cons]
  rw [occurrences, general]

@[simp] theorem occurrences_sum (name : String) (cs : List (String × Node Rat)) :
    (sum name cs).occurrences value
      = cs.flatMap fun c => (c.2.occurrences value).map (Occurrence.below (value c.1)) := by
  rw [occurrences]
  induction cs with
  | nil => rfl
  | cons c cs ih => rw [occurrencesSum, ih, List.flatMap_cons]

end Node

/-! ### Leaves that play -/

namespace Paths

/-- The leaves of a weight other than zero. -/
def sounding (ps : Paths) : Paths := ps.filter fun p => p.2 ≠ 0

theorem sounding_scale (w : Rat) (ps : Paths) :
    sounding (scale w ps) = if w = 0 then [] else scale w (sounding ps) := by
  by_cases hw : w = 0
  · rw [if_pos hw, hw, sounding, List.filter_eq_nil_iff]
    intro p hp
    obtain ⟨q, -, rfl⟩ := List.mem_map.mp hp
    simp
  · simp [sounding, scale, hw, List.filter_map, Function.comp_def]

theorem sounding_flatMap {β : Type} (f : β → Paths) (xs : List β) :
    sounding (xs.flatMap f) = xs.flatMap fun x => sounding (f x) := List.filter_flatMap

variable {h : Host Rat} {t : String}

theorem level_sounding (ps : Paths) : level h t (sounding ps) = level h t ps := by
  induction ps with
  | nil => rfl
  | cons p ps ih =>
    rw [level_cons, ← ih]
    by_cases hp : p.2 = 0
    · simp [sounding, hp]
    · simp [sounding, hp, level]

theorem reaches_sounding (ps : Paths) : reaches h t (sounding ps) = reaches h t ps := by
  simp [reaches, sounding, List.any_filter]

theorem level_map_weighted (os : List Occurrence) : level h t (os.map Occurrence.weighted)
    = ((os.filter fun o => o.Sounds h t).map (Occurrence.amount h)).sum := by
  induction os with
  | nil => rfl
  | cons o os ih =>
    rw [List.map_cons, level_cons, ih, List.filter_cons]
    by_cases hsounds : o.Sounds h t
    · obtain ⟨-, c, hc, htarget⟩ := id hsounds
      rw [if_pos (decide_eq_true hsounds), List.map_cons, List.sum_cons]
      simp [Occurrence.weighted, Occurrence.amount, gain, Option.mem_def.mp hc, htarget]
    · rw [if_neg (by simpa using hsounds), add_eq_right, mul_eq_zero]
      refine or_iff_not_imp_left.mpr fun hweight => ?_
      cases hc : h.resolve? o.clip with
      | none => simp [Occurrence.weighted, gain, hc]
      | some c =>
        have htarget : c.target ≠ t := fun htarget => hsounds ⟨hweight, c, hc, htarget⟩
        simp [Occurrence.weighted, gain, hc, htarget]

theorem reaches_map_weighted (os : List Occurrence) :
    reaches h t (os.map Occurrence.weighted) = true ↔ ∃ o ∈ os, o.Sounds h t := by
  rw [reaches, List.any_map, List.any_eq_true]
  refine exists_congr fun o => and_congr_right fun _ => ?_
  rw [Function.comp_apply, Bool.and_eq_true, decide_eq_true_iff, Option.any_eq_true,
    Occurrence.Sounds]
  simp [Occurrence.weighted]

/-! ### Order -/

theorem level_perm {ps qs : Paths} (perm : ps.Perm qs) : level h t ps = level h t qs := by
  induction perm with
  | nil => rfl
  | cons p _ ih => rw [level_cons, level_cons, ih]
  | swap p q ps =>
    rw [level_cons, level_cons, level_cons, level_cons]
    ring
  | trans _ _ ihps ihqs => exact ihps.trans ihqs

theorem reaches_perm {ps qs : Paths} (perm : ps.Perm qs) :
    reaches h t ps = reaches h t qs := by
  rw [Bool.eq_iff_iff, reaches, List.any_eq_true, reaches, List.any_eq_true]
  simp only [perm.mem_iff]

end Paths

/-- The weights of zero that an interpolation gives to children which it does not play make no
difference below them. -/
theorem Node.sounding_occurrences (value : String → Rat) (n : Node Rat) :
    Paths.sounding ((n.occurrences value).map Occurrence.weighted)
      = Paths.sounding (n.paths value) := by
  induction n using Node.induction with
  | leaf clip => rfl
  | interp name channel cs ih =>
    rw [occurrences_interp, paths_interp, List.map_flatMap]
    simp only [Occurrence.map_weighted_below, Paths.sounding_flatMap]
    let sounding (s : Node Rat × Rat) := Paths.sounding (Paths.scale s.2 (s.1.paths value))
    have hzero (m : Node Rat) : sounding (m, 0) = [] :=
      (Paths.sounding_scale 0 _).trans (if_pos rfl)
    refine Eq.trans (List.flatMap_congr fun s hs => ?_)
      (flatMap_edgeWeights hzero channel cs (value channel))
    obtain ⟨c, hc, heq⟩ := List.mem_map.mp (List.of_mem_zip hs).1
    dsimp only [sounding]
    rw [Paths.sounding_scale, Paths.sounding_scale, ← heq, ih c hc]
  | sum name cs ih =>
    rw [occurrences_sum, paths_sum, List.map_flatMap]
    simp only [Occurrence.map_weighted_below, Paths.sounding_flatMap]
    apply List.flatMap_congr
    intro c hc
    rw [Paths.sounding_scale, Paths.sounding_scale, ih c hc]

namespace Playback

/-- All leaves of the first states of all layers. -/
def occurrences (p : Playback Rat) : List Occurrence :=
  p.host.layers.flatMap fun l =>
    ((l.states.head?.bind State.motion).map (Node.occurrences p.get)).getD []

/-- What the leaves for a channel play together. -/
def sum (p : Playback Rat) (t : String) : Rat :=
  ((p.occurrences.filter fun o => o.Sounds p.host t).map (Occurrence.amount p.host)).sum

theorem sounding_occurrences (p : Playback Rat) :
    Paths.sounding (p.occurrences.map Occurrence.weighted) = Paths.sounding p.paths := by
  rw [occurrences, paths, List.map_flatMap, Paths.sounding_flatMap, Paths.sounding_flatMap]
  apply List.flatMap_congr
  intro l _
  cases l.states.head?.bind State.motion with
  | none => rfl
  | some m => exact m.sounding_occurrences p.get

theorem level_paths (p : Playback Rat) (t : String) :
    Paths.level p.host t p.paths = p.sum t := by
  rw [← Paths.level_sounding, ← p.sounding_occurrences, Paths.level_sounding,
    Paths.level_map_weighted]
  rfl

theorem reaches_paths_iff (p : Playback Rat) (t : String) :
    Paths.reaches p.host t p.paths = true ↔ ∃ o ∈ p.occurrences, o.Sounds p.host t := by
  rw [← Paths.reaches_sounding, ← p.sounding_occurrences, Paths.reaches_sounding,
    Paths.reaches_map_weighted]

/-! ### The order of the layers -/

def withLayers (p : Playback Rat) (layers : List (Layer Rat)) : Playback Rat :=
  { p with host := { p.host with layers := layers } }

theorem foldl_set_withLayers (p : Playback Rat) (layers : List (Layer Rat))
    (es : List (String × Rat)) : es.foldl (fun p w => p.set w.1 w.2) (p.withLayers layers)
      = (es.foldl (fun p w => p.set w.1 w.2) p).withLayers layers := by
  induction es generalizing p with
  | nil => rfl
  | cons e es ih => exact ih (p.set e.1 e.2)

theorem total_withLayers {p : Playback Rat} {layers : List (Layer Rat)}
    (perm : layers.Perm p.host.layers) :
    total ((p.withLayers layers).paths.filterMap (heard (p.withLayers layers).host))
      = total (p.paths.filterMap (heard p.host)) := by
  have hpaths : (p.withLayers layers).paths.Perm p.paths := perm.flatMap_right _
  apply Table.ext_get?
  intro t
  change (total ((p.withLayers layers).paths.filterMap (heard p.host))).get? t = _
  rw [get?_total, get?_total, Paths.reaches_perm hpaths, Paths.level_perm hpaths]

theorem step_withLayers {p q : Playback Rat} {writes : Table Rat} {layers : List (Layer Rat)}
    (perm : layers.Perm p.host.layers) (hstep : p.step = .ok (writes, q)) :
    (p.withLayers layers).step = .ok (writes, q.withLayers layers) := by
  rw [step, contributions_eq] at hstep ⊢
  cases hstep
  rw [← foldl_set_withLayers, ← total_withLayers perm]
  rfl

/-- A frame writes to a channel exactly if a leaf for it plays, and then it writes the sum of what
all such leaves play at the values from before the frame. Other channels keep their values. In which
order the layers stand makes no difference. -/
theorem step_writes_sum (p : Playback Rat) : ∃ writes q, p.step = .ok (writes, q) ∧
    q.host = p.host ∧
    (∀ t, (writes.contains t = true ↔ ∃ o ∈ p.occurrences, o.Sounds p.host t) ∧
      (writes.contains t = true → writes.get? t = some (p.sum t) ∧ q.get t = p.sum t) ∧
      (writes.contains t = false → q.get t = p.get t)) ∧
    ∀ layers : List (Layer Rat), layers.Perm p.host.layers →
      (p.withLayers layers).step = .ok (writes, q.withLayers layers) := by
  obtain ⟨writes, q, hstep, hhost, hwrites⟩ := p.step_eq
  refine ⟨writes, q, hstep, hhost, fun t => ?_, fun layers perm => step_withLayers perm hstep⟩
  obtain ⟨hwritten, hget⟩ := hwrites t
  rw [p.level_paths] at hwritten
  rw [hget, Table.contains, hwritten, ← p.reaches_paths_iff]
  by_cases hreaches : Paths.reaches p.host t p.paths = true
  · rw [if_pos hreaches]
    exact ⟨iff_of_true rfl hreaches, fun _ => ⟨rfl, rfl⟩, fun h => absurd h.symm Bool.false_ne_true⟩
  · rw [if_neg hreaches]
    exact ⟨iff_of_false Bool.false_ne_true hreaches, fun h => absurd h Bool.false_ne_true,
      fun _ => rfl⟩

end Playback

namespace Sample

/-- A playback of two layers for one channel, of which the first reads it. -/
def doubled : Playback Rat where
  host := { Host.empty "demo" with
    layers := [⟨"Face",
        [.playing "Talk" (.interp "Blend" "Out" [(0, .leaf "Low"), (2, .leaf "High")])]⟩,
      ⟨"Base", [.playing "Idle" (.sum "Mix" [("Gain", .leaf "High"), ("Off", .leaf "Low")])]⟩]
    clips := .ofList [("Low", ⟨"Low", "Out", ⟨⟨0, 1⟩, [], rfl⟩⟩),
      ("High", ⟨"High", "Out", ⟨⟨0, 3⟩, [], rfl⟩⟩)] }
  values := .ofList [("Out", 1), ("Gain", 1 / 2)]

end Sample

theorem Playback.step_writes_sum_sample : ∃ writes q, Sample.doubled.step = .ok (writes, q) ∧
    writes.get? "Out" = some (7 / 2) ∧ q.get "Out" = 7 / 2 ∧ q.get "Gain" = 1 / 2 ∧
    (Sample.doubled.withLayers Sample.doubled.host.layers.reverse).step
      = .ok (writes, q.withLayers Sample.doubled.host.layers.reverse) := by
  obtain ⟨writes, q, hstep, -, hwrites, hlayers⟩ := Sample.doubled.step_writes_sum
  obtain ⟨hwritten, hvalue, -⟩ := hwrites "Out"
  obtain ⟨hunwritten, -, hkept⟩ := hwrites "Gain"
  have hsum : Sample.doubled.sum "Out" = 7 / 2 := by decide +kernel
  have hgain : writes.contains "Gain" = false := by
    rw [Bool.eq_false_iff, ne_eq, hunwritten]
    decide +kernel
  have hout := hvalue (hwritten.mpr (by decide +kernel))
  rw [hsum] at hout
  exact ⟨writes, q, hstep, hout.1, hout.2, (hkept hgain).trans (by decide +kernel),
    hlayers _ (List.reverse_perm _)⟩

end BlendGraph
