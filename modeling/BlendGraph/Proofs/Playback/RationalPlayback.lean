import BlendGraph.Playback
import BlendGraph.Proofs.Host.TableLaws
import Mathlib.Algebra.Order.Ring.Rat
import Mathlib.Tactic.Linarith
import Mathlib.Tactic.Ring

/-!
# Playback over the rationals

Over the rationals every tree plays. What it plays are its leaves, each with the product of the
weights on the way to it, and a frame writes to a channel the sum of what the leaves play to it.
-/

set_option autoImplicit false

namespace BlendGraph

theorem Scalar.same_iff {a b : Rat} : Scalar.same a b = true ↔ a = b := by
  rw [same, Bool.and_eq_true, decide_eq_true_eq, decide_eq_true_eq]
  exact le_antisymm_iff.symm

/-! ### Shares of an interpolation -/

theorem test_bisect {p : Nat → Bool} {base : Nat} (h : p base = true) (fuel size : Nat) :
    p (bisect p fuel base size) = true := by
  induction fuel generalizing base size with
  | zero => exact h
  | succ fuel ih =>
    unfold bisect
    split
    · exact h
    · split
      · next hmiddle => exact ih hmiddle _
      · exact ih h _

theorem partitionPoint_map {β γ : Type} (test : γ → Bool) (f : β → γ) (xs : List β) :
    partitionPoint test (xs.map f) = partitionPoint (fun x => test (f x)) xs := by
  have hany (o : Option β) : (o.map f).any test = o.any fun x => test (f x) := by
    cases o <;> rfl
  simp [partitionPoint, hany]

/-- Bisection ends behind an element that passes the test and in front of the last one. -/
theorem exists_partitionPoint {β : Type} {p : β → Bool} {xs : List β} {first last : β}
    (hfirst : xs.head? = some first) (hlast : xs.getLast? = some last)
    (hpass : p first = true) (hfail : p last = false) :
    ∃ i, partitionPoint p xs = i + 1 ∧ i + 1 < xs.length := by
  have hne : xs.isEmpty = false := by
    cases xs with
    | nil => cases hfirst
    | cons x xs => rfl
  have hstart : (xs[0]?).any p = true := by
    rw [← List.head?_eq_getElem?, hfirst]
    exact hpass
  have hpasses := test_bisect (p := fun i => (xs[i]?).any p) hstart xs.length xs.length
  refine ⟨bisect (fun i => (xs[i]?).any p) xs.length 0 xs.length, ?_, ?_⟩
  · rw [partitionPoint, hne]
    exact if_pos hpasses
  · obtain ⟨x, hx, htest⟩ := (Option.any_eq_true _ _).mp hpasses
    have hlt := (List.getElem?_eq_some_iff.mp hx).1
    have hother : bisect (fun i => (xs[i]?).any p) xs.length 0 xs.length
        ≠ xs.length - 1 := by
      intro heq
      rw [heq, ← List.getLast?_eq_getElem?, hlast] at hx
      rw [← Option.some.inj hx, hfail] at htest
      cases htest
    omega

section

variable {β γ : Type}

theorem bracket_map {α : Type} [Scalar α] (channel : String) (f : β → γ) (cs : List (α × β))
    (x : α) : bracket channel (cs.map fun c => (c.1, f c.2)) x
      = (bracket channel cs x).map (List.map fun s => (f s.1, s.2)) := by
  unfold bracket
  rw [List.head?_map, List.getLast?_map]
  cases cs.head? with
  | none => rfl
  | some first =>
    cases cs.getLast? with
    | none => rfl
    | some last =>
      dsimp only [Option.map_some]
      by_cases hlow : x ≤ first.1
      · rw [if_pos hlow, if_pos hlow]
        rfl
      · rw [if_neg hlow, if_neg hlow]
        by_cases hhigh : last.1 ≤ x
        · rw [if_pos hhigh, if_pos hhigh]
          rfl
        · rw [if_neg hhigh, if_neg hhigh, partitionPoint_map]
          dsimp only
          cases partitionPoint (fun c => decide (c.1 ≤ x)) cs with
          | zero => rfl
          | succ i =>
            simp only [List.getElem?_map]
            cases cs[i]? with
            | none => rfl
            | some a => cases cs[i + 1]? <;> rfl

/-- Between rationals there is a share for every key value. -/
theorem exists_bracket (channel : String) (cs : List (Rat × β)) (x : Rat) :
    ∃ ss, bracket channel cs x = .ok ss ∧ ∀ s ∈ ss, s.1 ∈ cs.map Prod.snd := by
  unfold bracket
  cases hfirst : cs.head? with
  | none => exact ⟨[], rfl, nofun⟩
  | some first =>
    cases hlast : cs.getLast? with
    | none => exact ⟨[], rfl, nofun⟩
    | some last =>
      have hfirstMem : first.2 ∈ cs.map Prod.snd :=
        List.mem_map_of_mem (List.mem_of_head? hfirst)
      have hlastMem : last.2 ∈ cs.map Prod.snd :=
        List.mem_map_of_mem (List.mem_of_getLast? hlast)
      dsimp only
      split
      · exact ⟨_, rfl, by simpa using hfirstMem⟩
      · next hlow =>
        split
        · exact ⟨_, rfl, by simpa using hlastMem⟩
        · next hhigh =>
          have hpass : decide (first.1 ≤ x) = true := decide_eq_true (le_of_not_ge hlow)
          have hfail : decide (last.1 ≤ x) = false := decide_eq_false hhigh
          obtain ⟨i, hpoint, hlt⟩ := exists_partitionPoint
            (p := fun c => decide (c.1 ≤ x)) hfirst hlast hpass hfail
          rw [hpoint]
          dsimp only
          rw [List.getElem?_eq_getElem (Nat.lt_of_succ_lt hlt), List.getElem?_eq_getElem hlt]
          refine ⟨_, rfl, List.forall_mem_cons.mpr ⟨?_, List.forall_mem_singleton.mpr ?_⟩⟩
          · exact List.mem_map_of_mem (List.getElem_mem _)
          · exact List.mem_map_of_mem (List.getElem_mem _)

/-- The share of each child of an interpolation at a key value. -/
def shares (channel : String) (cs : List (Rat × β)) (x : Rat) : List (β × Rat) :=
  (bracket channel cs x).toOption.getD []

theorem bracket_eq (channel : String) (cs : List (Rat × β)) (x : Rat) :
    bracket channel cs x = .ok (shares channel cs x) := by
  obtain ⟨ss, hss, -⟩ := exists_bracket channel cs x
  rw [shares, hss]
  rfl

theorem mem_of_mem_shares {channel : String} {cs : List (Rat × β)} {x : Rat} {s : β × Rat}
    (h : s ∈ shares channel cs x) : s.1 ∈ cs.map Prod.snd := by
  obtain ⟨ss, hss, hmem⟩ := exists_bracket channel cs x
  rw [shares, hss] at h
  exact hmem s h

theorem shares_map (channel : String) (f : β → γ) (cs : List (Rat × β)) (x : Rat) :
    shares channel (cs.map fun c => (c.1, f c.2)) x
      = (shares channel cs x).map fun s => (f s.1, s.2) := by
  rw [shares, bracket_map, bracket_eq]
  rfl

end

/-! ### Weighted leaves -/

/-- The clips of leaves with their weights. -/
abbrev Paths := List (String × Rat)

def Paths.scale (w : Rat) (ps : Paths) : Paths := ps.map fun p => (p.1, w * p.2)

theorem Paths.scale_scale (v w : Rat) (ps : Paths) : scale v (scale w ps) = scale (v * w) ps := by
  rw [scale, scale, List.map_map]
  apply List.map_congr_left
  intro p _
  rw [Function.comp_apply, mul_assoc]

@[simp] theorem Paths.scale_one (ps : Paths) : scale 1 ps = ps := by
  simp [scale]

theorem Paths.exists_of_mem_scale {w : Rat} {ps : Paths} {p : String × Rat}
    (h : p ∈ scale w ps) : ∃ q ∈ ps, q.1 = p.1 := by
  obtain ⟨q, hq, rfl⟩ := List.mem_map.mp h
  exact ⟨q, hq, rfl⟩

theorem Paths.scale_flatMap {β : Type} (w : Rat) (f : β → Paths) (xs : List β) :
    scale w (xs.flatMap f) = xs.flatMap fun x => scale w (f x) := List.map_flatMap

namespace Node

mutual

/-- The leaves that play, each with the product of the weights on the way to it. -/
def paths (value : String → Rat) : Node Rat → Paths
  | leaf clip => [(clip, 1)]
  | interp _ channel cs =>
    (shares channel (pathsInterp value cs) (value channel)).flatMap fun s => Paths.scale s.2 s.1
  | sum _ cs => pathsSum value cs

def pathsInterp (value : String → Rat) : List (Rat × Node Rat) → List (Rat × Paths)
  | [] => []
  | (threshold, n) :: cs => (threshold, paths value n) :: pathsInterp value cs

def pathsSum (value : String → Rat) : List (String × Node Rat) → Paths
  | [] => []
  | (channel, n) :: cs => Paths.scale (value channel) (paths value n) ++ pathsSum value cs

end

@[simp] theorem paths_leaf (value : String → Rat) (clip : String) :
    (leaf clip).paths value = [(clip, 1)] := rfl

@[simp] theorem paths_interp (value : String → Rat) (name channel : String)
    (cs : List (Rat × Node Rat)) : (interp name channel cs).paths value
      = (shares channel cs (value channel)).flatMap fun s => Paths.scale s.2 (s.1.paths value) := by
  have hmap (cs : List (Rat × Node Rat)) :
      pathsInterp value cs = cs.map fun c => (c.1, c.2.paths value) := by
    induction cs with
    | nil => rfl
    | cons c cs ih => rw [pathsInterp, ih, List.map_cons]
  rw [paths, hmap, shares_map, List.flatMap_map]

@[simp] theorem paths_sum (value : String → Rat) (name : String) (cs : List (String × Node Rat)) :
    (sum name cs).paths value
      = cs.flatMap fun c => Paths.scale (value c.1) (c.2.paths value) := by
  rw [paths]
  induction cs with
  | nil => rfl
  | cons c cs ih => rw [pathsSum, ih, List.flatMap_cons]

/-- Only leaves of the tree play. -/
theorem mem_clips_of_mem_paths {value : String → Rat} {n : Node Rat} {p : String × Rat}
    (h : p ∈ n.paths value) : p.1 ∈ n.clips := by
  induction n using Node.induction generalizing p with
  | leaf clip =>
    rw [List.mem_singleton.mp h]
    exact List.mem_singleton_self clip
  | interp name channel cs ih =>
    rw [paths_interp] at h
    obtain ⟨s, hs, h⟩ := List.mem_flatMap.mp h
    obtain ⟨c, hc, heq⟩ := List.mem_map.mp (mem_of_mem_shares hs)
    obtain ⟨q, hq, hname⟩ := Paths.exists_of_mem_scale h
    rw [clips_interp, ← hname]
    exact List.mem_flatMap.mpr ⟨c, hc, ih c hc (heq ▸ hq)⟩
  | sum name cs ih =>
    rw [paths_sum] at h
    obtain ⟨c, hc, h⟩ := List.mem_flatMap.mp h
    obtain ⟨q, hq, hname⟩ := Paths.exists_of_mem_scale h
    rw [clips_sum, ← hname]
    exact List.mem_flatMap.mpr ⟨c, hc, ih c hc hq⟩

end Node

/-! ### Contributions -/

/-- What a weighted leaf adds. -/
def heard (h : Host Rat) (p : String × Rat) : Option (String × Rat) :=
  if p.2 = 0 then none else (h.resolve? p.1).map fun c => (c.target, p.2 * c.curve.sample 0)

theorem heard_scale_zero (h : Host Rat) (ps : Paths) :
    (Paths.scale 0 ps).filterMap (heard h) = [] := by
  simp [Paths.scale, heard]

theorem mapM_eq_ok {β γ ε : Type} {f : β → Except ε γ} {g : β → γ} {xs : List β}
    (h : ∀ x ∈ xs, f x = .ok (g x)) : xs.mapM f = .ok (xs.map g) := by
  induction xs with
  | nil => rfl
  | cons x xs ih =>
    obtain ⟨hx, hxs⟩ := List.forall_mem_cons.mp h
    rw [List.mapM_cons, hx, ih hxs]
    rfl

/-- Every tree plays, and what it adds comes from its weighted leaves. -/
theorem Node.play_eq (h : Host Rat) (value : String → Rat) (n : Node Rat) (w : Rat) :
    n.play h value w = .ok ((Paths.scale w (n.paths value)).filterMap (heard h)) := by
  induction n using Node.induction generalizing w with
  | leaf clip =>
    by_cases hw : w = 0
    · rw [hw, heard_scale_zero, play, if_pos (Scalar.same_iff.mpr rfl)]
    · rw [play, if_neg fun hsame => hw (Scalar.same_iff.mp hsame)]
      cases hc : h.resolve? clip <;> simp [Paths.scale, heard, hw, hc]
  | interp name channel cs ih =>
    by_cases hw : w = 0
    · rw [hw, heard_scale_zero, play, if_pos (Scalar.same_iff.mpr rfl)]
    · have hparts : ∀ s ∈ shares channel cs (value channel), s.1.play h value (w * s.2)
          = .ok ((Paths.scale (w * s.2) (s.1.paths value)).filterMap (heard h)) := by
        intro s hs
        obtain ⟨c, hc, heq⟩ := List.mem_map.mp (mem_of_mem_shares hs)
        rw [← heq]
        exact ih c hc _
      have hmap : ((shares channel cs (value channel)).map fun s =>
          (s.1.play h value, s.2)).mapM (fun s => s.1 (w * s.2))
            = .ok ((shares channel cs (value channel)).map fun s =>
              (Paths.scale (w * s.2) (s.1.paths value)).filterMap (heard h)) := by
        rw [List.mapM_map]
        exact mapM_eq_ok hparts
      rw [play, if_neg fun hsame => hw (Scalar.same_iff.mp hsame), playInterp_eq, bracket_eq,
        shares_map, paths_interp, Paths.scale_flatMap, List.filterMap_flatMap]
      simp only [Paths.scale_scale]
      change ((List.mapM _ _ : Except Unbracketed _) >>= fun parts => pure parts.flatten) = _
      rw [hmap]
      rfl
  | sum name cs ih =>
    by_cases hw : w = 0
    · rw [hw, heard_scale_zero, play, if_pos (Scalar.same_iff.mpr rfl)]
    · rw [play, if_neg fun hsame => hw (Scalar.same_iff.mp hsame), paths_sum, Paths.scale_flatMap]
      simp only [Paths.scale_scale]
      clear hw
      induction cs with
      | nil => rfl
      | cons c cs ihcs =>
        obtain ⟨hc, hcs⟩ := List.forall_mem_cons.mp ih
        rw [playSum, hc, ihcs hcs, List.flatMap_cons, List.filterMap_append]
        rfl

/-! ### Written channels -/

/-- What a leaf of a weight one adds to a channel. -/
def gain (h : Host Rat) (t clip : String) : Rat :=
  match h.resolve? clip with
  | none => 0
  | some c => if c.target = t then c.curve.sample 0 else 0

namespace Paths

/-- What weighted leaves add to a channel together. -/
def level (h : Host Rat) (t : String) : Paths → Rat
  | [] => 0
  | p :: ps => p.2 * gain h t p.1 + level h t ps

/-- Whether one of the leaves that play is for the channel. -/
def reaches (h : Host Rat) (t : String) (ps : Paths) : Bool :=
  ps.any fun p => decide (p.2 ≠ 0) && (h.resolve? p.1).any fun c => c.target = t

variable {h : Host Rat} {t : String}

theorem level_cons (p : String × Rat) (ps : Paths) :
    level h t (p :: ps) = p.2 * gain h t p.1 + level h t ps := rfl

theorem reaches_cons (p : String × Rat) (ps : Paths) : reaches h t (p :: ps)
    = ((decide (p.2 ≠ 0) && (h.resolve? p.1).any fun c => c.target = t) || reaches h t ps) :=
  List.any_cons

theorem level_eq_zero {ps : Paths} (hnot : reaches h t ps = false) : level h t ps = 0 := by
  induction ps with
  | nil => rfl
  | cons p ps ih =>
    rw [reaches_cons, Bool.or_eq_false_iff] at hnot
    rw [level_cons, ih hnot.2, add_zero, mul_eq_zero]
    by_cases hp : p.2 = 0
    · exact .inl hp
    · right
      cases hc : h.resolve? p.1 with
      | none => simp [gain, hc]
      | some c =>
        have htarget : c.target ≠ t := by simpa [hp, hc] using hnot.1
        simp [gain, hc, htarget]

@[simp] theorem level_append (ps qs : Paths) :
    level h t (ps ++ qs) = level h t ps + level h t qs := by
  induction ps with
  | nil => exact (zero_add _).symm
  | cons p ps ih => rw [List.cons_append, level_cons, ih, level_cons, add_assoc]

@[simp] theorem level_scale (w : Rat) (ps : Paths) :
    level h t (scale w ps) = w * level h t ps := by
  induction ps with
  | nil => exact (mul_zero w).symm
  | cons p ps ih =>
    rw [level_cons, mul_add, ← ih, ← mul_assoc]
    exact level_cons _ _

@[simp] theorem reaches_append (ps qs : Paths) :
    reaches h t (ps ++ qs) = (reaches h t ps || reaches h t qs) := List.any_append

theorem reaches_scale {w : Rat} (hw : w ≠ 0) (ps : Paths) :
    reaches h t (scale w ps) = reaches h t ps := by
  simp [reaches, scale, hw, Function.comp_def]

end Paths

namespace Playback

/-- A channel that leaves add to has their sum, and any other one is not written. -/
theorem get?_total (h : Host Rat) (t : String) (ps : Paths) :
    (total (ps.filterMap (heard h))).get? t
      = if Paths.reaches h t ps then some (Paths.level h t ps) else none := by
  have general : ∀ (ps : Paths) (table : Table Rat), ((ps.filterMap (heard h)).foldl
      (fun t c => t.insert c.1 ((t.get? c.1).getD 0 + c.2)) table).get? t
        = if Paths.reaches h t ps then some ((table.get? t).getD 0 + Paths.level h t ps)
          else table.get? t := by
    intro ps
    induction ps with
    | nil => exact fun table => rfl
    | cons p ps ih =>
      intro table
      rw [List.filterMap_cons, Paths.level_cons, Paths.reaches_cons]
      by_cases hp : p.2 = 0
      · simp [heard, hp, ih]
      · cases hc : h.resolve? p.1 with
        | none => simp [heard, gain, hp, hc, ih]
        | some c =>
          by_cases ht : c.target = t
          · simpa [heard, gain, hp, hc, ih, ht, add_assoc] using Paths.level_eq_zero
          · simp [heard, gain, hp, hc, ih, ht, Table.get?_insert, Ne.symm ht]
  rw [total, general]
  simp

/-- The leaves that play in a frame: those of the first states of all layers. -/
def paths (p : Playback Rat) : Paths :=
  p.host.layers.flatMap fun l =>
    ((l.states.head?.bind State.motion).map (Node.paths p.get)).getD []

theorem contributions_eq (p : Playback Rat) :
    p.contributions = .ok (p.paths.filterMap (heard p.host)) := by
  rw [contributions, mapM_eq_ok (g := fun l => (((l.states.head?.bind State.motion).map
    (Node.paths p.get)).getD []).filterMap (heard p.host)), paths, List.filterMap_flatMap]
  · rfl
  · intro l _
    cases l.states.head?.bind State.motion with
    | none => rfl
    | some motion => exact (motion.play_eq p.host p.get 1).trans (by rw [Paths.scale_one]; rfl)

variable {α : Type} [Scalar α]

theorem host_foldl_set (p : Playback α) (es : List (String × α)) :
    (es.foldl (fun p w => p.set w.1 w.2) p).host = p.host := by
  induction es generalizing p with
  | nil => rfl
  | cons e es ih => exact ih _

theorem get_set (p : Playback α) (n t : String) (v : α) :
    (p.set n v).get t = if t = n then v else p.get t := by
  rw [get, set, Table.get?_insert]
  split <;> rfl

/-- A channel that is set to one value only has this value afterwards. -/
theorem get_foldl_set_eq {ws : List (String × α)} {p : Playback α} {t : String} {v : α}
    (hws : ∀ w ∈ ws, w.1 = t → w.2 = v) (h : t ∈ ws.map Prod.fst ∨ p.get t = v) :
    (ws.foldl (fun p w => p.set w.1 w.2) p).get t = v := by
  induction ws generalizing p with
  | nil => exact h.resolve_left nofun
  | cons w ws ih =>
    obtain ⟨hw, hws⟩ := List.forall_mem_cons.mp hws
    refine ih hws ?_
    rw [get_set]
    by_cases ht : t = w.1
    · exact .inr ((if_pos ht).trans (hw ht.symm))
    · rw [if_neg ht]
      exact h.imp_left fun hmem => (List.mem_cons.mp hmem).resolve_left ht

theorem get_foldl_set_of_ne {ws : List (String × α)} {t : String} (h : ∀ w ∈ ws, w.1 ≠ t)
    (p : Playback α) : (ws.foldl (fun p w => p.set w.1 w.2) p).get t = p.get t :=
  get_foldl_set_eq (fun w hw heq => absurd heq (h w hw)) (.inr rfl)

/-- Written channels have their new values, and all others keep theirs. -/
theorem get_foldl_set (p : Playback α) (writes : Table α) (t : String) :
    (writes.entries.foldl (fun p w => p.set w.1 w.2) p).get t
      = (writes.get? t).getD (p.get t) := by
  cases hget : writes.get? t with
  | none =>
    apply get_foldl_set_of_ne
    rintro w hw rfl
    rw [Table.mem_entries.mp hw] at hget
    cases hget
  | some v =>
    apply get_foldl_set_eq
    · rintro w hw rfl
      exact Option.some.inj ((Table.mem_entries.mp hw).symm.trans hget)
    · exact .inl (List.mem_map_of_mem (Table.mem_entries.mpr hget))

/-- A frame never fails, and writes what the leaves that play add to each channel. -/
theorem step_eq (p : Playback Rat) : ∃ writes q, p.step = .ok (writes, q) ∧ q.host = p.host ∧
    ∀ t, writes.get? t = (if Paths.reaches p.host t p.paths
        then some (Paths.level p.host t p.paths) else none) ∧
      q.get t = (writes.get? t).getD (p.get t) := by
  rw [step, contributions_eq]
  exact ⟨_, _, rfl, host_foldl_set _ _, fun t => ⟨get?_total p.host t p.paths, get_foldl_set _ _ t⟩⟩

end Playback

end BlendGraph
