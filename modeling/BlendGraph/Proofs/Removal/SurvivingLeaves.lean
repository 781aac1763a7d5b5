import BlendGraph.Proofs.Removal.RemainingHost

/-!
# What surviving leaves play

A leaf finds its clip by the name that it is stored under, and a removal decides by the clip's own
name whether a leaf plays it. The two agree where clips are stored under their own names. Elsewhere
a removal can take the clip of a leaf that it leaves.
-/

set_option autoImplicit false

namespace BlendGraph

variable {α : Type}

theorem Node.clips_prune_subset (cut : Node α → Bool) (n : Node α) :
    (n.prune cut).clips ⊆ n.clips := by
  induction n using Node.induction with
  | leaf clip => exact List.Subset.refl _
  | interp name channel cs ih =>
    rw [prune, pruneInterp_eq, clips_interp, clips_interp, List.flatMap_map]
    intro k hk
    obtain ⟨c, hc, hk⟩ := List.mem_flatMap.mp hk
    have hc := List.mem_of_mem_filter hc
    exact List.mem_flatMap.mpr ⟨c, hc, ih c hc hk⟩
  | sum name cs ih =>
    rw [prune, pruneSum_eq, clips_sum, clips_sum, List.flatMap_map]
    intro k hk
    obtain ⟨c, hc, hk⟩ := List.mem_flatMap.mp hk
    have hc := List.mem_of_mem_filter hc
    exact List.mem_flatMap.mpr ⟨c, hc, ih c hc hk⟩

variable [Scalar α]

namespace Host

/-- The names that the leaves of the host use. -/
def leaves (h : Host α) : List String := h.motions.flatMap Node.clips

theorem contains_referencedClips_iff {h : Host α} {n : String} :
    h.referencedClips.contains n = true ↔ n ∈ h.leaves := by
  rw [contains_referencedClips, leaves, List.mem_flatMap]

end Host

/-- A host whose leaf plays a clip that is stored under another name than its own. -/
def Sample.aliased : Host Float32 :=
  { Host.empty "demo" with
    layers := [⟨"Face", [.playing "Open" (.leaf "Open")]⟩]
    clips := .ofList [("Open", ⟨ClipName.smoother "Jaw" (1 : Float32) "demo", "Jaw",
      ⟨⟨0, 1⟩, [], by decide +kernel⟩⟩)] }

namespace Removal

variable {ns : Namespace} {g h : Host α} {k : String} {c : Clip α}

theorem leaves_removeAll_subset (h : Host α) (hroot : ns.root ≠ "") :
    (removeAll h ns.root).1.leaves ⊆ h.leaves := by
  intro k hk
  obtain ⟨m, hm, hk⟩ := List.mem_flatMap.mp hk
  rw [removeAll_fst h hroot] at hm
  obtain ⟨m, hmotion, -, rfl⟩ := exists_of_mem_remaining hm
  rw [Node.clips_mapChannels] at hk
  exact List.mem_flatMap.mpr ⟨m, hmotion, Node.clips_prune_subset _ m hk⟩

/-- A clip stays unless it is generated and no leaf that stays uses its own name. -/
theorem resolve?_removeAll (h : Host α) (hroot : ns.root ≠ "") :
    (removeAll h ns.root).1.resolve? k = some c ↔
      h.resolve? k = some c ∧ (c.name ∈ (removeAll h ns.root).1.leaves ∨
        ClipName.isGenerated c.name h.id = false) := by
  have hleaves : (Host.referencedClips { h with layers := remaining ns h.layers }).contains c.name
      = true ↔ c.name ∈ (removeAll h ns.root).1.leaves := by
    rw [Host.contains_referencedClips_iff, removeAll_fst h hroot]
    rfl
  rw [← hleaves, removeAll_fst h hroot, Host.resolve?, Table.get?_filter,
    Option.filter_eq_some_iff]
  apply and_congr_right
  intro _
  rw [Bool.not_eq_true', Bool.and_eq_false_iff, Bool.not_eq_false']

/-- If only some clips stay, names resolve as before if and only if they name such clips. -/
theorem resolve?_eq_iff {P : Clip α → Prop}
    (hstays : ∀ c, g.resolve? k = some c ↔ h.resolve? k = some c ∧ P c) :
    g.resolve? k = h.resolve? k ↔ ∀ c, h.resolve? k = some c → P c := by
  constructor
  · intro hsame c hc
    exact ((hstays c).mp (hsame.trans hc)).2
  · intro hall
    apply Option.ext
    intro c
    rw [hstays c, and_iff_left_iff_imp]
    exact hall c

/-- The leaves that a removal leaves were there before, and they play what they have played if and
only if their clips are not generated, or are used under their own names by leaves that stay. Where
clips are stored under their own names this is so. -/
theorem surviving_leaves (h : Host α) (root : String) : ∃ g report, removeAll h root = (g, report) ∧
    g.leaves ⊆ h.leaves ∧
    (∀ k c, g.resolve? k = some c ↔ h.resolve? k = some c ∧
      (root = "" ∨ c.name ∈ g.leaves ∨ ClipName.isGenerated c.name h.id = false)) ∧
    ((∀ k ∈ g.leaves, g.resolve? k = h.resolve? k) ↔
      ∀ k ∈ g.leaves, ∀ c, h.resolve? k = some c →
        root = "" ∨ c.name ∈ g.leaves ∨ ClipName.isGenerated c.name h.id = false) ∧
    ((∀ k ∈ g.leaves, ∀ c, h.resolve? k = some c → c.name = k) →
      ∀ k ∈ g.leaves, g.resolve? k = h.resolve? k) := by
  have hremoved : (removeAll h root).1.leaves ⊆ h.leaves ∧
      ∀ k c, (removeAll h root).1.resolve? k = some c ↔ h.resolve? k = some c ∧
        (root = "" ∨ c.name ∈ (removeAll h root).1.leaves ∨
          ClipName.isGenerated c.name h.id = false) := by
    by_cases hroot : root = ""
    · simp [hroot, removeAll]
    · have hnamed : (⟨root⟩ : Namespace).root ≠ "" := hroot
      simp only [hroot, false_or]
      exact ⟨leaves_removeAll_subset h hnamed, fun k c => resolve?_removeAll h hnamed⟩
  obtain ⟨hsubset, hstays⟩ := hremoved
  have hsame (k : String) := resolve?_eq_iff (hstays k)
  refine ⟨(removeAll h root).1, (removeAll h root).2, rfl, hsubset, hstays,
    forall₂_congr fun k _ => hsame k, fun hown k hk => ?_⟩
  rw [hsame k]
  intro c hc
  rw [hown k hk c hc]
  exact .inr (.inl hk)

/-- The leaf stays, and its clip goes. -/
theorem leaf_silenced : ∃ g report, removeAll Sample.aliased "OSCm" = (g, report) ∧
    "Open" ∈ g.leaves ∧ (Sample.aliased.resolve? "Open").isSome = true ∧
    (g.resolve? "Open").isSome = false :=
  ⟨_, _, rfl, by decide +kernel, by decide +kernel, by decide +kernel⟩

end Removal

end BlendGraph
