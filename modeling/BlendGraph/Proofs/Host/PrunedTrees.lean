import BlendGraph.Proofs.Host.TreeOutlines
import BlendGraph.Proofs.Removal.RemainingHost

/-!
# Pruning

Each node of a tree has a lineage: the nodes above it, from the root on. Pruning keeps the nodes
that do not pass the test and have no ancestor that does, each in its place, and counts those that
pass it below ancestors that do not.
-/

set_option autoImplicit false

namespace BlendGraph

variable {α β : Type}

namespace Node

/-- A node of a tree with the nodes above it, from the root on, each with what it keeps for the next
one. -/
structure Lineage (α : Type) where
  above : List (Node α × Edge α)
  node : Node α

namespace Lineage

variable (cut : Node α → Bool)

/-- The lineage in a tree in which one more parent is above the root. -/
def below (parent : Node α) (edge : Edge α) (d : Lineage α) : Lineage α :=
  ⟨(parent, edge) :: d.above, d.node⟩

/-- Whether an ancestor passes the test. -/
def covered (d : Lineage α) : Bool := d.above.any fun a => cut a.1

/-- Whether neither the node nor an ancestor passes the test. -/
def spared (d : Lineage α) : Bool := !cut d.node && !d.covered cut

/-- Whether the node passes the test and no ancestor does. -/
def topmost (d : Lineage α) : Bool := cut d.node && !d.covered cut

def prune (d : Lineage α) : Lineage α :=
  ⟨d.above.map fun a => (a.1.prune cut, a.2), d.node.prune cut⟩

/-- What is met on the way to the node: the ancestors and the node without their other children. -/
def trail (d : Lineage α) : List (Head × Edge α) × Head :=
  (d.above.map fun a => (a.1.head, a.2), d.node.head)

variable {cut} {parent : Node α} {edge : Edge α} {d : Lineage α}

@[simp] theorem node_below : (d.below parent edge).node = d.node := rfl

@[simp] theorem covered_below :
    (d.below parent edge).covered cut = (cut parent || d.covered cut) := List.any_cons

@[simp] theorem node_prune : (d.prune cut).node = d.node.prune cut := rfl

@[simp] theorem trail_prune : (d.prune cut).trail = d.trail := by
  simp [trail, prune]

theorem prune_below :
    (d.below parent edge).prune cut = (d.prune cut).below (parent.prune cut) edge := rfl

/-- Below a parent that passes the test nothing is spared and nothing is topmost. -/
theorem of_cut (h : cut parent = true) :
    (d.below parent edge).spared cut = false ∧ (d.below parent edge).topmost cut = false := by
  simp [spared, topmost, h]

theorem cut_of_spared (h : d.spared cut = true) : cut d.node = false := by
  rw [spared, Bool.and_eq_true, Bool.not_eq_true'] at h
  exact h.1

theorem spared_below (h : cut parent = false) :
    (d.below parent edge).spared cut = d.spared cut := by
  simp [spared, h]

theorem topmost_below (h : cut parent = false) :
    (d.below parent edge).topmost cut = d.topmost cut := by
  simp [topmost, h]

end Lineage

/-! ### The lineages of a tree -/

mutual

/-- The nodes of the tree in the order of a walk, with their lineages. -/
def lineages : Node α → List (Lineage α)
  | leaf clip => [⟨[], leaf clip⟩]
  | interp name channel cs =>
    ⟨[], interp name channel cs⟩ :: lineagesInterp (interp name channel cs) cs
  | sum name cs => ⟨[], sum name cs⟩ :: lineagesSum (sum name cs) cs

def lineagesInterp (parent : Node α) : List (α × Node α) → List (Lineage α)
  | [] => []
  | (threshold, n) :: cs =>
    (lineages n).map (.below parent (.threshold threshold)) ++ lineagesInterp parent cs

def lineagesSum (parent : Node α) : List (String × Node α) → List (Lineage α)
  | [] => []
  | (weight, n) :: cs =>
    (lineages n).map (.below parent (.weight weight)) ++ lineagesSum parent cs

end

/-- The lineages of a child and of the nodes below it. -/
def descent (parent : Node α) (edge : β → Edge α) (c : β × Node α) : List (Lineage α) :=
  c.2.lineages.map (.below parent (edge c.1))

theorem lineagesInterp_eq (parent : Node α) (cs : List (α × Node α)) :
    lineagesInterp parent cs = cs.flatMap (descent parent .threshold) := by
  induction cs with
  | nil => rfl
  | cons c cs ih => rw [lineagesInterp, ih]; rfl

theorem lineagesSum_eq (parent : Node α) (cs : List (String × Node α)) :
    lineagesSum parent cs = cs.flatMap (descent parent .weight) := by
  induction cs with
  | nil => rfl
  | cons c cs ih => rw [lineagesSum, ih]; rfl

theorem lineages_leaf (clip : String) : (leaf clip : Node α).lineages = [⟨[], leaf clip⟩] := by
  rw [lineages]

theorem lineages_interp (name channel : String) (cs : List (α × Node α)) :
    (interp name channel cs).lineages = ⟨[], interp name channel cs⟩
      :: cs.flatMap (descent (interp name channel cs) .threshold) := by
  rw [lineages, lineagesInterp_eq]

theorem lineages_sum (name : String) (cs : List (String × Node α)) :
    (sum name cs).lineages = ⟨[], sum name cs⟩ :: cs.flatMap (descent (sum name cs) .weight) := by
  rw [lineages, lineagesSum_eq]

/-- The root comes first and is above every other node. -/
theorem exists_lineages_eq (n : Node α) : ∃ below, n.lineages = ⟨[], n⟩ :: below ∧
    ∀ d ∈ below, ∃ edge d', d = Lineage.below n edge d' := by
  have hdescents {β : Type} {parent : Node α} {edge : β → Edge α} {cs : List (β × Node α)} :
      ∀ d ∈ cs.flatMap (descent parent edge), ∃ edge d', d = Lineage.below parent edge d' := by
    intro d hd
    obtain ⟨c, -, hd⟩ := List.mem_flatMap.mp hd
    obtain ⟨d', -, rfl⟩ := List.mem_map.mp hd
    exact ⟨_, d', rfl⟩
  cases n with
  | leaf clip => exact ⟨[], lineages_leaf clip, nofun⟩
  | interp name channel cs => exact ⟨_, lineages_interp name channel cs, hdescents⟩
  | sum name cs => exact ⟨_, lineages_sum name cs, hdescents⟩

/-- Lineages are those of the nodes that a walk visits. -/
theorem map_node_lineages (n : Node α) : n.lineages.map Lineage.node = n.walk := by
  have hdescent {β : Type} {parent : Node α} {edge : β → Edge α} {c : β × Node α}
      (ih : c.2.lineages.map Lineage.node = c.2.walk) :
      (descent parent edge c).map Lineage.node = c.2.walk := by
    rw [descent, List.map_map, ← ih]
    rfl
  induction n using Node.induction with
  | leaf clip => rw [lineages_leaf]; rfl
  | interp name channel cs ih =>
    rw [lineages_interp, walk, walkInterp_eq, List.map_cons, List.map_flatMap]
    congr 1
    exact List.flatMap_congr fun c hc => hdescent (ih c hc)
  | sum name cs ih =>
    rw [lineages_sum, walk, walkSum_eq, List.map_cons, List.map_flatMap]
    congr 1
    exact List.flatMap_congr fun c hc => hdescent (ih c hc)

/-! ### Pruned trees -/

theorem name_prune (cut : Node α → Bool) (n : Node α) : (n.prune cut).name = n.name := by
  cases n <;> rfl

variable {cut : Node α → Bool}

theorem filter_spared_of_cut {n : Node α} (h : cut n = true) :
    n.lineages.filter (Lineage.spared cut) = [] := by
  obtain ⟨below, hlineages, hbelow⟩ := n.exists_lineages_eq
  rw [hlineages, List.filter_eq_nil_iff, List.forall_mem_cons]
  refine ⟨by simp [Lineage.spared, h], fun d hd => ?_⟩
  obtain ⟨edge, d', rfl⟩ := hbelow d hd
  simp [(Lineage.of_cut h).1]

theorem countP_topmost_of_cut {n : Node α} (h : cut n = true) :
    n.lineages.countP (Lineage.topmost cut) = 1 := by
  obtain ⟨below, hlineages, hbelow⟩ := n.exists_lineages_eq
  have hnone : below.countP (Lineage.topmost cut) = 0 := by
    rw [List.countP_eq_zero]
    intro d hd
    obtain ⟨edge, d', rfl⟩ := hbelow d hd
    simp [(Lineage.of_cut h).2]
  rw [hlineages, List.countP_cons, hnone]
  simp [Lineage.topmost, Lineage.covered, h]

section

variable {parent : Node α} {edge : β → Edge α} {cs : List (β × Node α)}

theorem lineages_prune_children (edge : β → Edge α) (hparent : cut parent = false)
    (ih : ∀ c ∈ cs, cut c.2 = false → (c.2.prune cut).lineages
      = (c.2.lineages.filter (Lineage.spared cut)).map (Lineage.prune cut)) :
    ((cs.filter fun c => !cut c.2).map fun c => (c.1, c.2.prune cut)).flatMap
        (descent (parent.prune cut) edge)
      = ((cs.flatMap (descent parent edge)).filter (Lineage.spared cut)).map
        (Lineage.prune cut) := by
  have hfilter (c : β × Node α) : (descent parent edge c).filter (Lineage.spared cut)
      = (c.2.lineages.filter (Lineage.spared cut)).map (.below parent (edge c.1)) := by
    rw [descent, List.filter_map]
    congr 1
    exact List.filter_congr fun d _ => Lineage.spared_below hparent
  induction cs with
  | nil => rfl
  | cons c cs ihs =>
    obtain ⟨hc, hcs⟩ := List.forall_mem_cons.mp ih
    rw [List.flatMap_cons, List.filter_append, List.map_append, ← ihs hcs, hfilter,
      List.filter_cons]
    cases hcut : cut c.2 with
    | true => simp [filter_spared_of_cut hcut]
    | false =>
      simp only [Bool.not_false, if_true, List.map_cons, List.flatMap_cons]
      congr 1
      rw [descent, hc hcut, List.map_map, List.map_map]
      exact List.map_congr_left fun d _ => Lineage.prune_below.symm

theorem countP_topmost_children (hparent : cut parent = false)
    (ih : ∀ c ∈ cs, (if cut c.2 then 1 else c.2.pruneCount cut)
      = c.2.lineages.countP (Lineage.topmost cut)) :
    (cs.flatMap (descent parent edge)).countP (Lineage.topmost cut)
      = tally (fun c => if cut c.2 then 1 else c.2.pruneCount cut) cs := by
  rw [countP_flatMap_eq_tally, tally_congr ih]
  apply tally_congr
  intro c _
  rw [descent, List.countP_map]
  exact List.countP_congr fun d _ => by rw [Function.comp_apply, Lineage.topmost_below hparent]

end

/-- Below a root that stays, the nodes that are left are those that are spared. -/
theorem lineages_prune {n : Node α} (h : cut n = false) : (n.prune cut).lineages
    = (n.lineages.filter (Lineage.spared cut)).map (Lineage.prune cut) := by
  have hroot {n : Node α} (h : cut n = false) :
      Lineage.spared cut ⟨[], n⟩ = true := by simp [Lineage.spared, Lineage.covered, h]
  induction n using Node.induction with
  | leaf clip =>
    rw [prune, lineages_leaf, List.filter_cons_of_pos (hroot h)]
    rfl
  | interp name channel cs ih =>
    have hchildren := lineages_prune_children .threshold h ih
    rw [prune, pruneInterp_eq] at hchildren ⊢
    rw [lineages_interp, hchildren, lineages_interp, List.filter_cons_of_pos (hroot h),
      List.map_cons, Lineage.prune, prune, pruneInterp_eq]
    rfl
  | sum name cs ih =>
    have hchildren := lineages_prune_children .weight h ih
    rw [prune, pruneSum_eq] at hchildren ⊢
    rw [lineages_sum, hchildren, lineages_sum, List.filter_cons_of_pos (hroot h),
      List.map_cons, Lineage.prune, prune, pruneSum_eq]
    rfl

/-- Subtrees are counted by their roots, the topmost nodes that pass the test. -/
theorem pruneCount_eq_countP (n : Node α) : (if cut n then 1 else n.pruneCount cut)
    = n.lineages.countP (Lineage.topmost cut) := by
  induction n using Node.induction with
  | leaf clip =>
    cases h : cut (leaf clip) <;>
      simp [lineages_leaf, pruneCount, Lineage.topmost, Lineage.covered, h]
  | interp name channel cs ih =>
    cases h : cut (interp name channel cs) with
    | true => exact (countP_topmost_of_cut h).symm
    | false =>
      rw [lineages_interp, List.countP_cons, countP_topmost_children h ih, pruneCount,
        pruneCountInterp_eq]
      simp [Lineage.topmost, h]
  | sum name cs ih =>
    cases h : cut (sum name cs) with
    | true => exact (countP_topmost_of_cut h).symm
    | false =>
      rw [lineages_sum, List.countP_cons, countP_topmost_children h ih, pruneCount,
        pruneCountSum_eq]
      simp [Lineage.topmost, h]

end Node

open Node (Lineage)

/-! ### Pruned states -/

namespace State

/-- The nodes of the motion in the order of a walk; none without a motion. -/
def walk (s : State α) : List (Node α) := s.motion.toList.flatMap Node.walk

/-- The nodes of the motion with their lineages. -/
def lineages (s : State α) : List (Lineage α) := s.motion.toList.flatMap Node.lineages

theorem map_node_lineages (s : State α) : s.lineages.map Lineage.node = s.walk := by
  rw [lineages, List.map_flatMap]
  exact List.flatMap_congr fun m _ => m.map_node_lineages

theorem lineages_prune (cut : Node α → Bool) (s : State α) : (s.prune cut).lineages
    = (s.lineages.filter (Lineage.spared cut)).map (Lineage.prune cut) := by
  cases hm : s.motion with
  | none => simp [lineages, prune, hm]
  | some m =>
    cases hcut : cut m with
    | true => simp [lineages, prune, hm, hcut, Node.filter_spared_of_cut hcut]
    | false => simp [lineages, prune, hm, hcut, Node.lineages_prune hcut]

theorem pruneCount_eq_countP (cut : Node α → Bool) (s : State α) :
    s.pruneCount cut = s.lineages.countP (Lineage.topmost cut) := by
  rw [pruneCount, lineages]
  cases s.motion with
  | none => rfl
  | some m => simpa using m.pruneCount_eq_countP

/-- A walk visits the nodes that are spared, with what is left below them. -/
theorem walk_prune (cut : Node α → Bool) (s : State α) : (s.prune cut).walk
    = (s.lineages.filter (Lineage.spared cut)).map fun d => d.node.prune cut := by
  rw [← map_node_lineages, lineages_prune, List.map_map]
  rfl

/-- The second state is the first one without the nodes that pass the test or are below one that
does. -/
structure Without (cut : Node α → Bool) (s t : State α) : Prop where
  others : t = { s with motion := t.motion }
  lineages : s.lineages.map Lineage.node = s.walk
  /-- The walk is the former one without those nodes. -/
  walk : t.walk.map Node.head
    = (s.lineages.filter (Lineage.spared cut)).map fun d => d.node.head
  /-- Each node is reached by the way on which it was, with the same thresholds and weights. -/
  trails : t.lineages.map Lineage.trail
    = (s.lineages.filter (Lineage.spared cut)).map Lineage.trail
  /-- A node that is left did not pass the test, as it was before. -/
  unmatched : List.Forall₂ (fun k d => k = d.node.prune cut ∧ cut d.node = false) t.walk
    (s.lineages.filter (Lineage.spared cut))

theorem without_prune (cut : Node α → Bool) (s : State α) : s.Without cut (s.prune cut) := by
  constructor
  case others => rfl
  case lineages => exact s.map_node_lineages
  case walk =>
    rw [walk_prune, List.map_map]
    simp only [Function.comp_def, Node.head_prune]
  case trails =>
    rw [lineages_prune, List.map_map]
    simp only [Function.comp_def, Lineage.trail_prune]
  case unmatched =>
    rw [walk_prune, List.forall₂_map_left_iff, List.forall₂_same]
    exact fun d hd => ⟨rfl, Lineage.cut_of_spared (List.mem_filter.mp hd).2⟩

end State

/-! ### Pruned hosts -/

/-- The second layer is the first one with its states pruned, one for one. -/
structure Layer.Without (cut : Node α → Bool) (l k : Layer α) : Prop where
  name : k.name = l.name
  states : List.Forall₂ (State.Without cut) l.states k.states

namespace Host

variable [Scalar α]

/-- The second host is the first one with its layers pruned, one for one. -/
structure Without (cut : Node α → Bool) (h g : Host α) : Prop where
  others : g = { h with layers := g.layers }
  layers : List.Forall₂ (Layer.Without cut) h.layers g.layers

/-- Pruning takes out the nodes that pass the test with all that is below them, and nothing else,
and counts the topmost of them. Where the test goes by the name, nothing is left to be taken out. -/
theorem without_pruneNodes (h : Host α) (cut : Node α → Bool) :
    h.Without cut (h.pruneNodes cut).1 ∧
    (h.pruneNodes cut).2 = (h.states.flatMap State.lineages).countP (Lineage.topmost cut) ∧
    ((∀ n m : Node α, n.name = m.name → cut n = cut m) →
      ((h.pruneNodes cut).1.pruneNodes cut).2 = 0) := by
  refine ⟨⟨rfl, ?layers⟩, ?count, fun named => ?again⟩
  case layers =>
    rw [pruneNodes, List.forall₂_map_right_iff, List.forall₂_same]
    intro l _
    refine ⟨rfl, ?_⟩
    rw [List.forall₂_map_right_iff, List.forall₂_same]
    exact fun s _ => s.without_prune cut
  case count =>
    rw [pruneNodes, countP_flatMap_eq_tally]
    exact tally_congr fun s _ => s.pruneCount_eq_countP cut
  case again =>
    rw [pruneNodes_snd_eq_zero_iff]
    intro m hm k hk
    obtain ⟨t, ht, hmotion⟩ := List.mem_filterMap.mp hm
    obtain ⟨l, hl, ht⟩ := List.mem_flatMap.mp ht
    obtain ⟨l', -, rfl⟩ := List.mem_map.mp hl
    obtain ⟨s, -, rfl⟩ := List.mem_map.mp ht
    have hwalk : k ∈ (s.prune cut).walk := by
      rw [State.walk, hmotion]
      simpa using hk
    rw [State.walk_prune] at hwalk
    obtain ⟨d, hd, rfl⟩ := List.mem_map.mp hwalk
    rw [named _ d.node (Node.name_prune cut d.node)]
    exact Lineage.cut_of_spared (List.mem_filter.mp hd).2

end Host

/-- A host with a tagged node below a tagged one and a tagged root. -/
def Sample.overgrown : Host Float32 :=
  { Host.empty "demo" with
    layers := [⟨"Face", [.playing "Open" (.sum "Mix"
        [("Jaw", .interp "OSCm_Jaw" "Lips" [(0, .leaf "OSCm_Open"), (1, .leaf "Puff")]),
          ("Cheek", .leaf "Puff")]),
      .playing "Shut" (.sum "OSCm_Root" [("Jaw", .leaf "Puff")])]⟩] }

theorem Host.without_pruneNodes_sample :
    (∀ n m : Node Float32, n.name = m.name →
      Namespace.tags ⟨"OSCm"⟩ n.name = Namespace.tags ⟨"OSCm"⟩ m.name) ∧
    (Sample.overgrown.pruneNodes fun n => Namespace.tags ⟨"OSCm"⟩ n.name).2 = 2 ∧
    ((Sample.overgrown.pruneNodes fun n => Namespace.tags ⟨"OSCm"⟩ n.name).1.pruneNodes
      fun n => Namespace.tags ⟨"OSCm"⟩ n.name).2 = 0 := by
  have named (n m : Node Float32) (h : n.name = m.name) :
      Namespace.tags ⟨"OSCm"⟩ n.name = Namespace.tags ⟨"OSCm"⟩ m.name := by rw [h]
  obtain ⟨-, hcount, hagain⟩ := Host.without_pruneNodes Sample.overgrown
    fun n => Namespace.tags ⟨"OSCm"⟩ n.name
  exact ⟨named, hcount.trans (by decide +kernel), hagain named⟩

end BlendGraph
