import BlendGraph.Proofs.Host.ChannelFlags
import BlendGraph.Proofs.Host.Redirection
import BlendGraph.Proofs.Naming.GeneratedNames
import BlendGraph.Removal

/-!
# Clean hosts

A host is clean for a root if nothing in it looks as if it were generated under the root. A removal
leaves such things alone.
-/

set_option autoImplicit false

namespace BlendGraph

variable {α : Type}

theorem State.prune_eq_self {cut : Node α → Bool} {s : State α}
    (h : ∀ m, s.motion = some m → ∀ n ∈ m.walk, cut n = false) : s.prune cut = s := by
  have hmotion : (s.motion.bind fun m => if cut m then none else some (m.prune cut))
      = s.motion := by
    cases hm : s.motion with
    | none => rfl
    | some m =>
      rw [Option.bind_some, h m hm m (Node.mem_walk_self m), Node.prune_eq_self (h m hm)]
      rfl
  rw [State.prune, hmotion]

variable [Scalar α]

namespace Host

theorem mem_motions {h : Host α} {l : Layer α} (hl : l ∈ h.layers) {s : State α}
    (hs : s ∈ l.states) {m : Node α} (hm : s.motion = some m) : m ∈ h.motions :=
  List.mem_filterMap.mpr ⟨s, List.mem_flatMap.mpr ⟨l, hl, hs⟩, hm⟩

theorem pruneNodes_eq_self {h : Host α} {cut : Node α → Bool}
    (hc : ∀ m ∈ h.motions, ∀ n ∈ m.walk, cut n = false) : (h.pruneNodes cut).1 = h := by
  have hlayers : ∀ l ∈ h.layers, { l with states := l.states.map (State.prune cut) } = l := by
    intro l hl
    have hstates : ∀ s ∈ l.states, s.prune cut = s := by
      intro s hs
      exact State.prune_eq_self fun m hm => hc m (mem_motions hl hs hm)
    rw [List.map_congr_left hstates, List.map_id']
  rw [pruneNodes, List.map_congr_left hlayers, List.map_id']

/-- Replacing channels leaves the names of the nodes. -/
theorem mem_motions_redirect {h : Host α} {f : String → Option String} {m : Node α}
    (hm : m ∈ (h.redirect f).1.motions) :
    ∃ m' ∈ h.motions, m = m'.mapChannels (replaced f) := by
  obtain ⟨s, hs, hm⟩ := List.mem_filterMap.mp hm
  obtain ⟨l, hl, hs⟩ := List.mem_flatMap.mp hs
  obtain ⟨l', hl', rfl⟩ := List.mem_map.mp hl
  obtain ⟨s', hs', rfl⟩ := List.mem_map.mp hs
  obtain ⟨m', hm', rfl⟩ := Option.map_eq_some_iff.mp hm
  exact ⟨m', mem_motions hl' hs' hm', rfl⟩

theorem contains_referencedClips {h : Host α} {n : String} :
    h.referencedClips.contains n = true ↔ ∃ m ∈ h.motions, n ∈ m.clips := by
  simp [referencedClips, Table.contains_ofList]

end Host

/-- Nothing in the host looks as if it were generated under the root. -/
structure Host.Clean (ns : Namespace) (h : Host α) : Prop where
  layers : ∀ l ∈ h.layers, ns.tags l.name = false
  nodes : ∀ m ∈ h.motions, ∀ n ∈ m.walk, ns.tags n.name = false
  channels : ∀ c ∈ h.channels, ns.generates c.name = false
  references : ∀ r ∈ h.references, ∀ start ∈ ns.starts, Text.startsWith r.channel start = false
  overrides : h.overrides.get? ns.root = none
  id : h.id ≠ ""
  clipKeys : ∀ k ∈ h.clips.keys, ClipName.isGenerated k h.id = false
  clipNames : ∀ c ∈ h.clips.values, ClipName.isGenerated c.name h.id = false
  leaves : ∀ m ∈ h.motions, ∀ k ∈ m.clips, ClipName.isGenerated k h.id = false

namespace Removal

/-! ### References -/

theorem strip?_eq_none {start text : String} (h : Text.startsWith text start = false) :
    Text.strip? start text = none := by
  rw [Option.eq_none_iff_forall_ne_some]
  intro rest hrest
  have hstart : Text.startsWith text start = true := by
    rw [Text.strip?_eq_some_iff] at hrest
    simp [hrest]
  rw [hstart] at h
  cases h

theorem rawName?_eq_none {ns : Namespace} {n : String}
    (h : ∀ start ∈ ns.starts, Text.startsWith n start = false) : rawName? ns n = none :=
  List.findSome?_eq_none_iff.mpr fun start hs => strip?_eq_none (h start hs)

/-- The start of smoothed channels is the first one that is taken off. -/
theorem rawName?_proxy (ns : Namespace) (n : String) : rawName? ns (ns.proxy n) = some n := by
  have hstrip : Text.strip? (ns.start "Proxy") (ns.proxy n) = some n := by
    rw [Text.strip?_eq_some_iff, Namespace.start, Namespace.proxy, Namespace.channel,
      Namespace.channel, String.append_empty]
  simp [rawName?, Namespace.starts, hstrip]

/-- References that were redirected to smoothed channels are turned back. -/
theorem redirect_rawName? {ns : Namespace} {h : Host α} (clean : h.Clean ns)
    {f : String → Option String} (hf : ∀ n m, f n = some m → m = ns.proxy n) :
    ((h.redirect f).1.redirect (rawName? ns)).1.layers = h.layers ∧
      ((h.redirect f).1.redirect (rawName? ns)).2 = (h.redirect f).2 := by
  have hraw : ∀ r ∈ h.references, rawName? ns r.channel = none := by
    intro r hr
    exact rawName?_eq_none (clean.references r hr)
  constructor
  · rw [Host.layers_redirect, Host.layers_redirect, List.map_map]
    refine (List.map_congr_left fun l hl => ?_).trans (List.map_id' _)
    rw [Function.comp_apply, Layer.mapChannels_mapChannels]
    refine (Layer.mapChannels_congr fun r hr => ?_).trans (Layer.mapChannels_id l)
    have hr := hraw r (List.mem_flatMap.mpr ⟨l, hl, hr⟩)
    cases hm : f r.channel with
    | none => simp [Host.replaced, hm, hr]
    | some m => simp [Host.replaced, hm, hf _ m hm, rawName?_proxy]
  · rw [Host.redirect_snd, Host.redirect_snd, Host.references_redirect, List.countP_map]
    apply List.countP_congr
    intro r hr
    have hr := hraw r hr
    cases hm : f r.channel with
    | none => simp [Host.replaced, hm, hr]
    | some m => simp [Host.replaced, hm, hf _ m hm, rawName?_proxy]

/-! ### Flags -/

theorem restoreFlags_fst (h : Host α) (fs : List (String × Bool)) :
    (restoreFlags h fs).1 = { h with channels := Host.setAll fs h.channels } := by
  induction fs generalizing h with
  | nil => rfl
  | cons f fs ih => rw [restoreFlags, ih]; rfl

end Removal

end BlendGraph
