import BlendGraph.Proofs.Host.Redirection

/-!
# Outlines of motion trees

The outline of a tree lists its nodes in the order of a walk, each by what is met on the way from
the root to it. It tells trees with the same head apart. Pruning takes the nodes behind a cut out of
the outline and moves no other one.
-/

set_option autoImplicit false

namespace BlendGraph

variable {α β γ : Type}

namespace Node

/-- A node without its children. -/
inductive Head where
  | leaf (clip : String)
  | interp (name channel : String)
  | sum (name : String)
  deriving DecidableEq, Repr

/-- What a parent keeps for a child. -/
inductive Edge (α : Type) where
  | threshold (value : α)
  | weight (channel : String)
  deriving DecidableEq, Repr

/-- A step from a parent down to a child. -/
structure Link (α : Type) where
  edge : Edge α
  head : Head
  deriving DecidableEq, Repr

def Head.name : Head → String
  | leaf clip => clip
  | interp name _ => name
  | sum name => name

def Head.mapChannels (f : String → String) : Head → Head
  | leaf clip => leaf clip
  | interp name channel => interp name (f channel)
  | sum name => sum name

def Edge.mapChannels (f : String → String) : Edge α → Edge α
  | threshold value => threshold value
  | weight channel => weight (f channel)

def Link.mapChannels (f : String → String) (l : Link α) : Link α :=
  ⟨l.edge.mapChannels f, l.head.mapChannels f⟩

def head : Node α → Head
  | leaf clip => .leaf clip
  | interp name channel _ => .interp name channel
  | sum name _ => .sum name

@[simp] theorem name_head (n : Node α) : n.head.name = n.name := by
  cases n <;> rfl

@[simp] theorem head_mapChannels (f : String → String) (n : Node α) :
    (n.mapChannels f).head = n.head.mapChannels f := by
  cases n <;> rfl

mutual

/-- The way from the root to each node. -/
def outline : Node α → List (List (Link α))
  | leaf _ => [[]]
  | interp _ _ cs => [] :: outlineInterp cs
  | sum _ cs => [] :: outlineSum cs

def outlineInterp : List (α × Node α) → List (List (Link α))
  | [] => []
  | (threshold, n) :: cs =>
    (outline n).map (⟨.threshold threshold, n.head⟩ :: ·) ++ outlineInterp cs

def outlineSum : List (String × Node α) → List (List (Link α))
  | [] => []
  | (weight, n) :: cs => (outline n).map (⟨.weight weight, n.head⟩ :: ·) ++ outlineSum cs

end

/-- The ways to a child and to the nodes below it. -/
def branch (edge : β → Edge α) (c : β × Node α) : List (List (Link α)) :=
  c.2.outline.map (⟨edge c.1, c.2.head⟩ :: ·)

@[simp] theorem outlineInterp_eq (cs : List (α × Node α)) :
    outlineInterp cs = cs.flatMap (branch .threshold) := by
  induction cs with
  | nil => rfl
  | cons c cs ih => rw [outlineInterp, ih]; rfl

@[simp] theorem outlineSum_eq (cs : List (String × Node α)) :
    outlineSum cs = cs.flatMap (branch .weight) := by
  induction cs with
  | nil => rfl
  | cons c cs ih => rw [outlineSum, ih]; rfl

theorem outline_leaf (clip : String) : (leaf clip : Node α).outline = [[]] := by
  rw [outline]

theorem outline_interp (name channel : String) (cs : List (α × Node α)) :
    (interp name channel cs).outline = [] :: cs.flatMap (branch .threshold) := by
  rw [outline, outlineInterp_eq]

theorem outline_sum (name : String) (cs : List (String × Node α)) :
    (sum name cs).outline = [] :: cs.flatMap (branch .weight) := by
  rw [outline, outlineSum_eq]

/-! ### Trees from outlines -/

theorem ne_nil_of_mem_branch {edge : β → Edge α} {cs : List (β × Node α)} :
    ∀ way ∈ cs.flatMap (branch edge), way ≠ [] := by
  intro way hway
  obtain ⟨c, -, hway⟩ := List.mem_flatMap.mp hway
  obtain ⟨rest, -, rfl⟩ := List.mem_map.mp hway
  exact List.cons_ne_nil _ _

/-- The way to the root is the only empty one. -/
theorem exists_outline_eq (n : Node α) :
    ∃ below, n.outline = [] :: below ∧ ∀ way ∈ below, way ≠ [] := by
  cases n with
  | leaf clip => exact ⟨[], outline_leaf clip, nofun⟩
  | interp name channel cs => exact ⟨_, outline_interp name channel cs, ne_nil_of_mem_branch⟩
  | sum name cs => exact ⟨_, outline_sum name cs, ne_nil_of_mem_branch⟩

end Node

/-- Blocks that each begin with a marked element and have no other one are found again when they are
put together. -/
theorem eq_of_flatMap_blocks (mark : γ → Bool) {block : β → List γ}
    (marked : ∀ x, ∃ first rest, block x = first :: rest ∧ mark first = true ∧
      ∀ y ∈ rest, mark y = false) {xs ys : List β}
    (apart : ∀ x ∈ xs, ∀ y, block x = block y → x = y)
    (h : xs.flatMap block = ys.flatMap block) : xs = ys := by
  -- what follows the first element of a block is unmarked up to the next block
  have htake (x : β) (first : γ) (rest : List γ) (hx : block x = first :: rest)
      (hrest : ∀ y ∈ rest, mark y = false) (zs : List β) :
      (rest ++ zs.flatMap block).takeWhile (fun y => !mark y) = rest := by
    have hnext : (zs.flatMap block).takeWhile (fun y => !mark y) = [] := by
      cases zs with
      | nil => rfl
      | cons z zs =>
        obtain ⟨first, rest, hz, hfirst, -⟩ := marked z
        rw [List.flatMap_cons, hz, List.cons_append, List.takeWhile_cons, hfirst]
        rfl
    rw [List.takeWhile_append_of_pos fun y hy => by rw [hrest y hy]; rfl, hnext, List.append_nil]
  induction xs generalizing ys with
  | nil =>
    cases ys with
    | nil => rfl
    | cons y ys =>
      obtain ⟨first, rest, hy, -⟩ := marked y
      rw [List.flatMap_cons, hy] at h
      cases h
  | cons x xs ih =>
    obtain ⟨first, rest, hx, -, hrest⟩ := marked x
    cases ys with
    | nil =>
      rw [List.flatMap_cons, hx] at h
      cases h
    | cons y ys =>
      obtain ⟨first', rest', hy, -, hrest'⟩ := marked y
      rw [List.flatMap_cons, List.flatMap_cons, hx, hy, List.cons_append, List.cons_append,
        List.cons.injEq] at h
      obtain ⟨rfl, htail⟩ := h
      have hrests : rest = rest' := by
        have hboth := congrArg (List.takeWhile fun y => !mark y) htail
        rwa [htake x _ _ hx hrest, htake y _ _ hy hrest'] at hboth
      subst hrests
      rw [apart x (List.mem_cons_self ..) y (hx.trans hy.symm),
        ih (fun z hz => apart z (List.mem_cons_of_mem _ hz)) (List.append_cancel_left htail)]

namespace Node

/-- Children are found again in the outline of their parent, where the way to each of them is a
single link. -/
theorem eq_of_flatMap_branch {edge : β → Edge α} (inj : ∀ x y, edge x = edge y → x = y)
    {cs ds : List (β × Node α)}
    (apart : ∀ c ∈ cs, ∀ n : Node α, c.2.head = n.head → c.2.outline = n.outline → c.2 = n)
    (h : cs.flatMap (branch edge) = ds.flatMap (branch edge)) : cs = ds := by
  refine eq_of_flatMap_blocks (fun way => way.length == 1) (fun c => ?_)
    (fun c hc d hcd => ?_) h
  · obtain ⟨below, houtline, hbelow⟩ := c.2.exists_outline_eq
    refine ⟨_, _, by rw [branch, houtline, List.map_cons], rfl, fun way hway => ?_⟩
    obtain ⟨rest, hrest, rfl⟩ := List.mem_map.mp hway
    have hlength : rest.length ≠ 0 := fun hzero =>
      hbelow rest hrest (List.length_eq_zero_iff.mp hzero)
    simpa using hlength
  · have hlink : edge c.1 = edge d.1 ∧ c.2.head = d.2.head := by
      obtain ⟨below, houtline, -⟩ := c.2.exists_outline_eq
      obtain ⟨below', houtline', -⟩ := d.2.exists_outline_eq
      rw [branch, branch, houtline, houtline', List.map_cons, List.map_cons] at hcd
      simpa using (List.cons.inj hcd).1
    have houtline : c.2.outline = d.2.outline := by
      rw [branch, branch, hlink.1, hlink.2] at hcd
      exact List.map_injective_iff.mpr (List.cons_injective) hcd
    exact Prod.ext (inj _ _ hlink.1) (apart c hc d.2 hlink.2 houtline)

/-- Trees of one head are told apart by their outlines. -/
theorem eq_of_outline {n m : Node α} (hhead : n.head = m.head) (h : n.outline = m.outline) :
    n = m := by
  induction n using Node.induction generalizing m with
  | leaf clip =>
    cases m with
    | leaf clip' => rw [Head.leaf.inj hhead]
    | interp _ _ _ | sum _ _ => cases hhead
  | interp name channel cs ih =>
    cases m with
    | leaf _ | sum _ _ => cases hhead
    | interp name' channel' ds =>
      obtain ⟨rfl, rfl⟩ := Head.interp.inj hhead
      rw [outline_interp, outline_interp, List.cons.injEq] at h
      rw [eq_of_flatMap_branch (fun _ _ => Edge.threshold.inj) (fun c hc n => ih c hc) h.2]
  | sum name cs ih =>
    cases m with
    | leaf _ | interp _ _ _ => cases hhead
    | sum name' ds =>
      obtain rfl := Head.sum.inj hhead
      rw [outline_sum, outline_sum, List.cons.injEq] at h
      rw [eq_of_flatMap_branch (fun _ _ => Edge.weight.inj) (fun c hc n => ih c hc) h.2]

/-! ### Pruned and redirected trees -/

/-- Whether no node on the way passes the test. -/
def Link.clear (test : String → Bool) (way : List (Link α)) : Bool :=
  way.all fun l => !test l.head.name

@[simp] theorem head_prune (cut : Node α → Bool) (n : Node α) : (n.prune cut).head = n.head := by
  cases n <;> rfl

theorem branch_prune {test : String → Bool} {edge : β → Edge α} {c : β × Node α}
    (ih : (c.2.prune fun k => test k.name).outline = c.2.outline.filter (Link.clear test)) :
    (branch edge c).filter (Link.clear test)
      = if test c.2.name then [] else branch edge (c.1, c.2.prune fun k => test k.name) := by
  have hcons (way : List (Link α)) : Link.clear test (⟨edge c.1, c.2.head⟩ :: way)
      = (!test c.2.name && Link.clear test way) := by
    simp [Link.clear]
  rw [branch, branch, List.filter_map, head_prune, ih]
  cases htest : test c.2.name <;> simp [Function.comp_def, hcons, htest]

theorem flatMap_branch_prune {test : String → Bool} {edge : β → Edge α} {cs : List (β × Node α)}
    (ih : ∀ c ∈ cs, (c.2.prune fun k => test k.name).outline
      = c.2.outline.filter (Link.clear test)) :
    ((cs.filter fun c => !test c.2.name).map fun c =>
        (c.1, c.2.prune fun k => test k.name)).flatMap (branch edge)
      = (cs.flatMap (branch edge)).filter (Link.clear test) := by
  induction cs with
  | nil => rfl
  | cons c cs ihs =>
    obtain ⟨hc, hcs⟩ := List.forall_mem_cons.mp ih
    rw [List.flatMap_cons, List.filter_append, branch_prune hc, ← ihs hcs, List.filter_cons]
    cases htest : test c.2.name <;> simp

/-- Pruning keeps the nodes to which the way is clear. -/
theorem outline_prune (test : String → Bool) (n : Node α) :
    (n.prune fun k => test k.name).outline = n.outline.filter (Link.clear test) := by
  induction n using Node.induction with
  | leaf clip => rw [prune, outline_leaf]; rfl
  | interp name channel cs ih =>
    rw [prune, pruneInterp_eq, outline_interp, outline_interp, flatMap_branch_prune ih]
    rfl
  | sum name cs ih =>
    rw [prune, pruneSum_eq, outline_sum, outline_sum, flatMap_branch_prune ih]
    rfl

theorem branch_mapChannels {f : String → String} {edge : β → Edge α} {g : β → β}
    (hedge : ∀ x, edge (g x) = (edge x).mapChannels f) {c : β × Node α}
    (ih : (c.2.mapChannels f).outline = c.2.outline.map (List.map (Link.mapChannels f))) :
    branch edge (g c.1, c.2.mapChannels f)
      = (branch edge c).map (List.map (Link.mapChannels f)) := by
  simp [branch, ih, hedge, Link.mapChannels]

/-- Replacing names moves no node. -/
theorem outline_mapChannels (f : String → String) (n : Node α) :
    (n.mapChannels f).outline = n.outline.map (List.map (Link.mapChannels f)) := by
  induction n using Node.induction with
  | leaf clip => rfl
  | interp name channel cs ih =>
    rw [mapChannels, mapChannelsInterp_eq, outline_interp, outline_interp, List.map_cons,
      List.flatMap_map, List.map_flatMap]
    congr 1
    apply List.flatMap_congr
    intro c hc
    exact branch_mapChannels (g := fun t => t) (fun _ => rfl) (ih c hc)
  | sum name cs ih =>
    rw [mapChannels, mapChannelsSum_eq, outline_sum, outline_sum, List.map_cons,
      List.flatMap_map, List.map_flatMap]
    congr 1
    apply List.flatMap_congr
    intro c hc
    exact branch_mapChannels (g := f) (fun _ => rfl) (ih c hc)

/-- The second tree is the first one without the subtrees whose root passes the test, with names
replaced: same head, and of the outline the ways that are clear. -/
structure Pared (test : String → Bool) (f : String → String) (n m : Node α) : Prop where
  head : m.head = n.head.mapChannels f
  outline : m.outline
    = (n.outline.filter (Link.clear test)).map (List.map (Link.mapChannels f))

theorem pared_iff {test : String → Bool} {f : String → String} {n m : Node α} :
    Pared test f n m ↔ m = (n.prune fun k => test k.name).mapChannels f := by
  have hpared : Pared test f n ((n.prune fun k => test k.name).mapChannels f) :=
    ⟨by rw [head_mapChannels, head_prune], by rw [outline_mapChannels, outline_prune]⟩
  constructor
  · intro h
    exact eq_of_outline (h.head.trans hpared.head.symm) (h.outline.trans hpared.outline.symm)
  · rintro rfl
    exact hpared

end Node

end BlendGraph
