import BlendGraph.Proofs.Compile.ClosedLayers
import BlendGraph.Proofs.Compile.Substitution

/-!
# Filters behind filters

A compilation takes the generated layer of its own root out before it renames, but not those of
other roots. If it redirects a channel that such a layer reads, the filter there reads the smoothed
channel from then on: two filters stand one behind the other.
-/

set_option autoImplicit false

namespace BlendGraph

variable {α : Type}

/-! ### Fixed layers -/

/-- A layer stays as it is if and only if no name at its references is replaced. -/
theorem Layer.mapChannels_eq_self_iff {f : String → String} {l : Layer α} :
    l.mapChannels f = l ↔ ∀ n ∈ l.references.map Reference.channel, f n = n := by
  constructor
  · intro heq n hn
    have hchannels : (l.references.map Reference.channel).map f
        = l.references.map Reference.channel := by
      conv => rhs; rw [← heq, references_mapChannels]
      rw [List.map_map, List.map_map]
      rfl
    exact List.map_inj_left.mp (hchannels.trans (List.map_id' _).symm) n hn
  · intro hfixed
    refine (mapChannels_congr fun r hr => ?_).trans (mapChannels_id l)
    exact hfixed _ (List.mem_map_of_mem hr)

theorem Namespace.layer_ne {a b : Namespace} (hroots : a.root ≠ b.root) : a.layer ≠ b.layer := by
  intro heq
  apply hroots
  apply String.toList_injective
  simpa [layer] using congrArg String.toList heq

variable [Scalar α]

namespace Filter

variable [LawfulScalar α]

/-- Replacing names in a blend replaces the one it is keyed by. -/
theorem mapChannels_blend (f : String → String) (host parameter name key : String) :
    (blend host parameter name key : Node α).mapChannels f = blend host parameter name (f key) := by
  rw [blend, blend, Node.withThreshold_pair LawfulScalar.neg_one_le_one,
    Node.withThreshold_pair LawfulScalar.neg_one_le_one]
  rfl

theorem mapChannels_tree (f : String → String) (ns : Namespace) (host parameter : String)
    (o : Observer) (c : FilterChannels) : (tree ns host parameter o c : Node α).mapChannels f
      = .interp (ns.filterRoot parameter) (f (c.coefficient o))
        [(0, blend host parameter (ns.filterInput parameter) (f c.raw)),
          (1, blend host parameter (ns.filterDriver parameter) (f c.proxy))] := by
  rw [tree_eq, Node.mapChannels, Node.mapChannelsInterp_eq, List.map_cons, List.map_singleton,
    mapChannels_blend, mapChannels_blend]

end Filter

namespace Compile

/-! ### Layers of other roots -/

omit [Scalar α] in
theorem smoothed_eq_self_iff {ns : Namespace} {ps : List (Parameter α)} {n : String} :
    smoothed ns ps n = n ↔ ∀ p ∈ ps, p.redirect = true → p.name ≠ n := by
  rw [smoothed_eq]
  split
  · next hmem =>
    obtain ⟨p, hp, hname⟩ := List.mem_map.mp hmem
    obtain ⟨hp, hredirect⟩ := List.mem_filter.mp hp
    exact iff_of_false (ns.proxy_ne n) fun hall => hall p hp hredirect hname
  · next hmem =>
    refine iff_of_true rfl fun p hp hredirect hname => hmem ?_
    exact List.mem_map.mpr ⟨p, List.mem_filter.mpr ⟨hp, hredirect⟩, hname⟩

variable {h g k : Host α} {s t : List (Parameter α)} {o o' : CompileOptions}
  {r r' : CompileReport}

/-- The generated layer is the only one of its name. -/
theorem layer?_compile (hc : compile h s o = .ok (g, r)) :
    g.layer? o.names.layer = some (generated o.names h.id o.hideBits s) := by
  obtain ⟨b, cs, hv, -, rfl, -⟩ := compile_ok_iff.mp hc
  rw [outcome_fst (root_ne_of_validate hv) (admits_of_validate hv), Host.layer?, List.find?_append]
  have hkept : ((h.layers.filter fun l => !(l.name == o.names.layer)).map
      (Layer.mapChannels (smoothed o.names s))).find? (fun l => l.name == o.names.layer)
        = none := by
    simp
  rw [hkept]
  simp [generated]

/-- A compilation treats the layers of other names alike, generated or not. -/
theorem layer?_compile_of_ne (hc : compile h s o = .ok (g, r)) {n : String}
    (hn : n ≠ o.names.layer) :
    g.layer? n = (h.layer? n).map (Layer.mapChannels (smoothed o.names s)) := by
  obtain ⟨b, cs, hv, -, rfl, -⟩ := compile_ok_iff.mp hc
  rw [outcome_fst (root_ne_of_validate hv) (admits_of_validate hv), Host.layer?, Host.layer?,
    List.find?_append, List.find?_map, List.find?_filter]
  have hnew : [generated o.names h.id o.hideBits s].find? (fun l => l.name == n) = none := by
    simp [generated, Ne.symm hn]
  have htest : (fun l : Layer α => decide ((!(l.name == o.names.layer)) = true ∧
      ((fun l : Layer α => l.name == n) ∘ Layer.mapChannels (smoothed o.names s)) l = true))
      = fun l => l.name == n := by
    funext l
    by_cases hl : l.name = n <;> simp [hl, hn]
  rw [hnew, htest, Option.or_none]

variable [LawfulScalar α]

/-- What a second compilation under another root does to the layer of the first one: it renames the
references there like all others, so that a filter reads the channel that the second one smooths its
raw channel to. The layer stays as it was if and only if no parameter that the second list redirects
is a channel that the first one created or reused. -/
theorem compile_beside_iff (hroots : o.names.root ≠ o'.names.root)
    (hs : compile h s o = .ok (g, r)) (ht : compile g t o' = .ok (k, r')) :
    g.layer? o.names.layer = some (generated o.names h.id o.hideBits s) ∧
    ∃ l m, k.layer? o.names.layer = some l ∧
      l = ⟨o.names.layer, [.playing Namespace.stateName m]⟩ ∧
      Layer.Redirected (smoothed o'.names t) (generated o.names h.id o.hideBits s) l ∧
      (l = generated o.names h.id o.hideBits s ↔
        ∀ q ∈ t, q.redirect = true → q.name ∉ r.created ∧ q.name ∉ r.reused) ∧
      ∀ p ∈ s, ∀ v : Observer, .interp (o.names.filterRoot p.name)
          (smoothed o'.names t (o.names.coefficient v p.name))
          [(0, Filter.blend h.id p.name (o.names.filterInput p.name) (smoothed o'.names t p.name)),
          (1, Filter.blend h.id p.name (o.names.filterDriver p.name)
            (smoothed o'.names t (o.names.proxy p.name)))] ∈ m.walk := by
  refine ⟨layer?_compile hs, _, (motion o.names h.id o.hideBits s).mapChannels
    (smoothed o'.names t), ?layer, rfl, Layer.redirected_iff.mpr rfl, ?kept, ?filters⟩
  case layer =>
    rw [layer?_compile_of_ne ht (Namespace.layer_ne hroots), layer?_compile hs]
    rfl
  case kept =>
    obtain ⟨b, cs, hv, -, -, rfl⟩ := compile_ok_iff.mp hs
    change (generated o.names h.id o.hideBits s).mapChannels (smoothed o'.names t) = _ ↔ _
    rw [Layer.mapChannels_eq_self_iff, channels_generated]
    -- the layer reads what its compilation requested, and it requested what it created or reused
    simp only [mem_channels_motion (admits_of_validate hv), ← not_or, mem_requested_iff,
      smoothed_eq_self_iff]
    exact ⟨fun hall q hq hredirect hmem => hall q.name hmem q hq hredirect rfl,
      fun hall n hn q hq hredirect heq => hall q hq hredirect (heq ▸ hn)⟩
  case filters =>
    intro p hp v
    have hfilter := List.mem_map_of_mem (f := Node.mapChannels (smoothed o'.names t))
      (filter_mem_walk_motion o.names h.id o.hideBits hp v)
    rw [← Node.walk_mapChannels, Filter.mapChannels_tree] at hfilter
    cases v <;> exact hfilter

/-! ### Two roots -/

omit [LawfulScalar α] in
/-- The names that a generated layer has in it, its own, and those of the channels it reads. -/
def generatedNames (ns : Namespace) (host : String) (hidden : Bool) (ps : List (Parameter α)) :
    List String :=
  ns.layer :: Namespace.stateName :: (motion ns host hidden ps).walk.map Node.name
    ++ (motion ns host hidden ps).channels

end Compile

namespace Sample

def left : CompileOptions := ⟨⟨"Left"⟩, false, 256⟩

def right : CompileOptions := ⟨⟨"Right"⟩, false, 256⟩

end Sample

namespace Compile

theorem compile_beside_sample : ∃ g r k r',
    compile Sample.host Sample.parameters Sample.left = .ok (g, r) ∧
    compile g [.ofName "Cheek"] Sample.right = .ok (k, r') ∧
    k.layer? "_Left_Gen" = g.layer? "_Left_Gen" := by
  have hrequested : (compile Sample.host Sample.parameters Sample.left).toOption.any
      fun x => decide ("Cheek" ∉ x.2.created ∧ "Cheek" ∉ x.2.reused) := by
    decide +kernel
  have hok : (validate [Parameter.ofName (α := Float32) "Cheek"] Sample.right).isOk = true := by
    decide +kernel
  obtain ⟨b, hv⟩ := exists_of_isOk hok
  obtain ⟨⟨g, r⟩, hs, hrequested⟩ := exists_of_any_toOption hrequested
  obtain ⟨cs, r', -, ht⟩ := exists_compile (h := g) hv
  obtain ⟨hg, l, m, hk, -, -, hkept, -⟩ := compile_beside_iff (by decide) hs ht
  have hl := hkept.mpr fun q hq _ => by
    obtain rfl := List.mem_singleton.mp hq
    exact of_decide_eq_true hrequested
  exact ⟨g, r, _, r', hs, ht, by rw [hl, ← hg] at hk; exact hk⟩

/-- Both roots smooth `Jaw`: the filter of the first one reads what the second one has smoothed. -/
theorem filters_chained : ∃ g r k r',
    compile Sample.host [.ofName "Jaw"] Sample.left = .ok (g, r) ∧
    compile g [.ofName "Jaw"] Sample.right = .ok (k, r') ∧
    (∀ n ∈ generatedNames (α := Float32) ⟨"Left"⟩ "demo" false [.ofName "Jaw"],
      Sample.right.names.tags n = false) ∧
    (∀ n ∈ generatedNames (α := Float32) ⟨"Right"⟩ "demo" false [.ofName "Jaw"],
      Sample.left.names.tags n = false) ∧
    (k.layer? "_Left_Gen").map Layer.references ≠ (g.layer? "_Left_Gen").map Layer.references ∧
    ∃ x ∈ k.references, x.layer = "_Left_Gen" ∧ x.channel = "Right/Proxy/Jaw" := by
  have hchained : (compile Sample.host [.ofName "Jaw"] Sample.left).toOption.any fun x =>
      (compile x.1 [.ofName "Jaw"] Sample.right).toOption.any fun y => decide (
        (y.1.layer? "_Left_Gen").map Layer.references
          ≠ (x.1.layer? "_Left_Gen").map Layer.references
        ∧ ∃ z ∈ y.1.references, z.layer = "_Left_Gen" ∧ z.channel = "Right/Proxy/Jaw") := by
    decide +kernel
  obtain ⟨⟨g, r⟩, hs, hrest⟩ := exists_of_any_toOption hchained
  obtain ⟨⟨k, r'⟩, ht, hrest⟩ := exists_of_any_toOption hrest
  obtain ⟨hlayers, hread⟩ := of_decide_eq_true hrest
  exact ⟨g, r, k, r', hs, ht, by decide +kernel, by decide +kernel, hlayers, hread⟩

end Compile

end BlendGraph
