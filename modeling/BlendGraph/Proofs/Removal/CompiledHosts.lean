import BlendGraph.Proofs.Compile.GeneratedClips
import BlendGraph.Proofs.Compile.Recompilation
import BlendGraph.Proofs.Removal.CleanHosts

/-!
# Hosts between compilations and removal

The invariant says how a host in the middle of a run of compilations under one root comes from the
clean one at its beginning. A removal needs to know no more.
-/

set_option autoImplicit false

namespace BlendGraph

variable {α : Type} [Scalar α]

/-! ### The invariant -/

/-- What compilations have done to a host, apart from the layer and the clips. -/
structure Trace (α : Type) where
  /-- The redirected channels with their new names. -/
  redirected : String → Option String
  /-- The channels that were there, with the flags they have now. -/
  kept : List (Channel α)
  /-- The channels behind them. -/
  added : List (Channel α)

/-- The trace of one more compilation. -/
def Trace.compiled (t : Trace α) (g : Host α) (ps : List (Parameter α)) (o : CompileOptions) :
    Trace α where
  redirected n := (t.redirected n).or ((Compile.renamesOf o.names ps).lookup n)
  kept := Host.setAll (Compile.registry g ps o).flags.entries t.kept
  added := Host.setAll (Compile.registry g ps o).flags.entries t.added
    ++ (Compile.registry g ps o).created

theorem Trace.map_name_added_compiled (t : Trace α) (g : Host α) (ps : List (Parameter α))
    (o : CompileOptions) : (t.compiled g ps o).added.map Channel.name
      = t.added.map Channel.name ++ (Compile.registry g ps o).created.map Channel.name := by
  rw [Trace.compiled, List.map_append, Host.map_name_setAll]

/-- The second host comes from the first one by compilations under the namespace, which requested
the given plain channels. -/
structure Laden (ns : Namespace) (h : Host α) (plain : List String) (t : Trace α) (g : Host α) :
    Prop where
  id : g.id = h.id
  layers : (g.layers.filter fun l => !(l.name == ns.layer)) = (h.redirect t.redirected).1.layers
  proxies : ∀ n m, t.redirected n = some m → m = ns.proxy n
  channels : g.channels = t.kept ++ t.added
  restores : Host.setAll (g.overridesOf ns.root).entries t.kept = h.channels
  nodup : (t.added.map Channel.name).Nodup
  fresh : ∀ n ∈ t.added.map Channel.name, n ∉ h.channelNames
  origin : ∀ n ∈ t.added.map Channel.name, ns.generates n = true ∨ n ∈ plain
  present : ∀ n ∈ plain, n ∈ g.channelNames
  overrides : g.overrides.erase ns.root = h.overrides
  clips : ∀ k, ClipName.isGenerated k h.id = false → g.clips.get? k = h.clips.get? k
  clipNames : ∀ k c, ClipName.isGenerated k h.id = true → g.clips.get? k = some c → c.name = k

/-- The plain channels that a compilation requests. -/
def plainNames (ps : List (Parameter α)) : List String :=
  Namespace.selectorChannel :: ps.map Parameter.name

namespace Laden

variable {ns : Namespace} {h g : Host α} {plain : List String} {t : Trace α}

/-- The host at the beginning, before any compilation. -/
theorem refl (hroot : ns.root ≠ "") (clean : h.Clean ns) :
    Laden ns h [] ⟨fun _ => none, h.channels, []⟩ h where
  id := rfl
  layers := by
    rw [h.redirect_eq_self fun _ _ => rfl, List.filter_eq_self]
    intro l hl
    have hne : l.name ≠ ns.layer := by
      intro heq
      have htag := clean.layers l hl
      rw [heq, Namespace.tags_layer hroot] at htag
      cases htag
    simp [hne]
  proxies := nofun
  channels := (List.append_nil _).symm
  restores := by simp [Host.overridesOf, clean.overrides]
  nodup := .nil
  fresh := nofun
  origin := nofun
  present := nofun
  overrides := Table.erase_eq_self clean.overrides
  clips _ _ := rfl
  clipNames k c hk hc := by
    have hnot := clean.clipKeys k (Table.mem_keys.mpr ⟨c, hc⟩)
    rw [hk] at hnot
    cases hnot

theorem map_name_kept (laden : Laden ns h plain t g) :
    t.kept.map Channel.name = h.channelNames := by
  rw [Host.channelNames, ← laden.restores, Host.map_name_setAll]

theorem channelNames_eq (laden : Laden ns h plain t g) :
    g.channelNames = h.channelNames ++ t.added.map Channel.name := by
  rw [Host.channelNames, laden.channels, List.map_append, laden.map_name_kept]

theorem leaves {o : CompileOptions} {ps : List (Parameter α)} (hroot : o.names.root ≠ "")
    (admits : Compile.Admits o.names ps) (laden : Laden o.names h plain t g) (n m : String)
    (hm : t.redirected n = some m) : (Compile.renamesOf o.names ps).lookup m = none := by
  rw [laden.proxies n m hm, Compile.lookup_renamesOf,
    if_neg (Compile.proxy_notMem hroot admits n)]

/-- Channels that were there are not generated. -/
theorem generates_kept (clean : h.Clean ns) (laden : Laden ns h plain t g) :
    ∀ n ∈ t.kept.map Channel.name, ns.generates n = false := by
  intro n hn
  rw [laden.map_name_kept] at hn
  obtain ⟨c, hc, rfl⟩ := List.mem_map.mp hn
  exact clean.channels c hc

theorem kept_apart (laden : Laden ns h plain t g) :
    ∀ n ∈ t.kept.map Channel.name, n ∉ t.added.map Channel.name := by
  intro n hn hadded
  exact laden.fresh n hadded (laden.map_name_kept ▸ hn)

/-! ### One more compilation -/

section Compiled

variable {o : CompileOptions} {ps : List (Parameter α)} {cs : List (Clip α)}

/-- A new channel is neither one that was there nor one that an earlier compilation added. -/
theorem lacks_created (laden : Laden o.names h plain t g) {n : String}
    (hn : n ∈ (Compile.registry g ps o).created.map Channel.name) :
    n ∉ h.channelNames ∧ n ∉ t.added.map Channel.name := by
  have hlacks := (Compile.creates_registry.mp (Registry.creates_iff.mpr hn)).2
  rw [laden.channelNames_eq, List.mem_append, not_or] at hlacks
  exact hlacks

theorem proxies_compiled (laden : Laden o.names h plain t g) {n m : String}
    (hm : (t.compiled g ps o).redirected n = some m) : m = o.names.proxy n := by
  rcases Option.or_eq_some_iff.mp hm with hm | ⟨-, hm⟩
  · exact laden.proxies n m hm
  · rw [Compile.lookup_renamesOf] at hm
    split at hm
    · exact (Option.some.inj hm).symm
    · cases hm

section Channels

variable (hroot : o.names.root ≠ "") (admits : Compile.Admits o.names ps)
  (laden : Laden o.names h plain t g)

include hroot admits laden

theorem channels_compiled : (Compile.outcome g ps o cs).1.channels
    = (t.compiled g ps o).kept ++ (t.compiled g ps o).added := by
  rw [Compile.outcome_fst hroot admits]
  dsimp only [Trace.compiled]
  rw [laden.channels, Host.setAll_append laden.kept_apart, List.append_assoc]

theorem restores_compiled (clean : h.Clean o.names) :
    Host.setAll ((Compile.outcome g ps o cs).1.overridesOf o.names.root).entries
      (t.compiled g ps o).kept = h.channels := by
  rw [Compile.outcome_fst hroot admits]
  have hrestore := Registry.restore_foldl laden.channels (laden.generates_kept clean)
    laden.kept_apart (Compile.registry g ps o).flags.entries
  exact hrestore.trans laden.restores

theorem present_compiled : ∀ n ∈ plain ++ plainNames ps,
    n ∈ (Compile.outcome g ps o cs).1.channelNames := by
  intro n hn
  rcases List.mem_append.mp hn with hn | hn
  · rw [Compile.channelNames_outcome hroot admits]
    exact List.mem_append_left _ (laden.present n hn)
  · apply Compile.mem_channelNames_outcome hroot admits
    rcases List.mem_cons.mp hn with hn | hn
    · exact .inr hn
    · obtain ⟨p, hp, rfl⟩ := List.mem_map.mp hn
      exact .inl (Compile.name_mem_requests hp)

end Channels

theorem nodup_compiled (laden : Laden o.names h plain t g) :
    ((t.compiled g ps o).added.map Channel.name).Nodup := by
  rw [Trace.map_name_added_compiled, List.nodup_append]
  refine ⟨laden.nodup, (Compile.sound_registry g ps o).nodup, ?_⟩
  rintro n hn m hm rfl
  exact (laden.lacks_created hm).2 hn

theorem fresh_compiled (laden : Laden o.names h plain t g) :
    ∀ n ∈ (t.compiled g ps o).added.map Channel.name, n ∉ h.channelNames := by
  intro n hn
  rw [Trace.map_name_added_compiled, List.mem_append] at hn
  rcases hn with hn | hn
  · exact laden.fresh n hn
  · exact (laden.lacks_created hn).1

theorem origin_compiled (hroot : o.names.root ≠ "") (laden : Laden o.names h plain t g) :
    ∀ n ∈ (t.compiled g ps o).added.map Channel.name,
      o.names.generates n = true ∨ n ∈ plain ++ plainNames ps := by
  intro n hn
  rw [Trace.map_name_added_compiled, List.mem_append] at hn
  rcases hn with hn | hn
  · exact (laden.origin n hn).imp_right (List.mem_append_left _)
  · obtain ⟨hreq | rfl, -⟩ := Compile.creates_registry.mp (Registry.creates_iff.mpr hn)
    · exact (Compile.generates_of_mem_requests hroot hreq).imp_right fun hn =>
        List.mem_append_right _ (List.mem_cons_of_mem _ hn)
    · exact .inr (List.mem_append_right _ (List.mem_cons_self ..))

section Clips

variable (hroot : o.names.root ≠ "") (admits : Compile.Admits o.names ps)
  (laden : Laden o.names h plain t g)

include hroot admits laden

/-- The stored clips are generated ones, so that the others are those from before. -/
theorem clips_compiled (clean : h.Clean o.names)
    (hcs : HeldClip.recordAll? (Compile.heldClips o.names g.id o.hideBits ps) = .ok cs)
    {k : String} (hk : ClipName.isGenerated k h.id = false) :
    (Compile.outcome g ps o cs).1.clips.get? k = h.clips.get? k := by
  have hnone : cs.reverse.find? (fun c => c.name = k) = none := by
    rw [List.find?_eq_none]
    intro c hc heq
    rw [laden.id] at hcs
    rw [← of_decide_eq_true heq,
      Compile.isGenerated_of_mem_recorded clean.id hcs (List.mem_reverse.mp hc)] at hk
    cases hk
  rw [Compile.outcome_fst hroot admits, Synthesis.get?_stored, hnone, Option.none_or,
    laden.clips k hk]

theorem clipNames_compiled {k : String} {c : Clip α} (hk : ClipName.isGenerated k h.id = true)
    (hc : (Compile.outcome g ps o cs).1.clips.get? k = some c) : c.name = k := by
  rw [Compile.outcome_fst hroot admits, Synthesis.get?_stored] at hc
  rcases Option.or_eq_some_iff.mp hc with hc | ⟨-, hc⟩
  · simpa using List.find?_some hc
  · exact laden.clipNames k c hk hc

end Clips

/-- The host after one more compilation. -/
theorem outcome (hroot : o.names.root ≠ "") (clean : h.Clean o.names)
    (admits : Compile.Admits o.names ps) (laden : Laden o.names h plain t g)
    (hcs : HeldClip.recordAll? (Compile.heldClips o.names g.id o.hideBits ps) = .ok cs) :
    Laden o.names h (plain ++ plainNames ps) (t.compiled g ps o)
      (Compile.outcome g ps o cs).1 where
  id := by
    rw [Compile.outcome_fst hroot admits]
    exact laden.id
  layers := by
    rw [Compile.filter_layers_outcome hroot admits, laden.layers]
    exact congrArg Host.layers (h.redirect_redirect (laden.leaves hroot admits)).1
  proxies _ _ := laden.proxies_compiled
  channels := laden.channels_compiled hroot admits
  restores := laden.restores_compiled hroot admits clean
  nodup := laden.nodup_compiled
  fresh := laden.fresh_compiled
  origin := laden.origin_compiled hroot
  present := laden.present_compiled hroot admits
  overrides := by
    rw [Compile.outcome_fst hroot admits]
    exact (Registry.erase_overrides_foldl g _).trans laden.overrides
  clips _ := laden.clips_compiled hroot admits clean hcs
  clipNames _ _ := laden.clipNames_compiled hroot admits

/-- The references that one more compilation redirects. -/
theorem redirected_outcome (hroot : o.names.root ≠ "") (admits : Compile.Admits o.names ps)
    (laden : Laden o.names h plain t g) (cs : List (Clip α)) :
    (h.redirect (t.compiled g ps o).redirected).2
      = (h.redirect t.redirected).2 + (Compile.outcome g ps o cs).2.redirected := by
  have hcleared : (g.removeLayers fun l => l.name == o.names.layer).1.references
      = (h.redirect t.redirected).1.references := by
    rw [Host.references, Host.references, ← laden.layers]
    rfl
  have hcount : ((g.removeLayers fun l => l.name == o.names.layer).1.redirect
      ((Compile.renamesOf o.names ps).lookup ·)).2
      = ((h.redirect t.redirected).1.redirect ((Compile.renamesOf o.names ps).lookup ·)).2 := by
    rw [Host.redirect_snd, Host.redirect_snd, hcleared]
  rw [Compile.redirected_outcome hroot admits, hcount]
  exact (h.redirect_redirect (laden.leaves hroot admits)).2.symm

end Compiled

end Laden

/-! ### The removal -/

/-- The added channels that a removal leaves. -/
def Trace.extra (t : Trace α) (ns : Namespace) (g : Host α) : List (Channel α) :=
  Host.setAll (g.overridesOf ns.root).entries (t.added.filter fun c => !ns.generates c.name)

namespace Laden

variable {ns : Namespace} {h g : Host α} {plain : List String} {t : Trace α}

theorem removeArtifacts (hroot : ns.root ≠ "") (clean : h.Clean ns)
    (laden : Laden ns h plain t g) : (Removal.removeArtifacts g ns).1 = { g with
      layers := (h.redirect t.redirected).1.layers
      channels := t.kept ++ t.added.filter fun c => !ns.generates c.name } := by
  have hlayers : (g.layers.filter fun l => !ns.tags l.name)
      = (h.redirect t.redirected).1.layers := by
    rw [← laden.layers]
    apply List.filter_congr
    intro l hl
    by_cases hname : l.name = ns.layer
    · simp [hname, Namespace.tags_layer hroot]
    · have hmem : l ∈ (h.redirect t.redirected).1.layers := by
        rw [← laden.layers]
        exact List.mem_filter.mpr ⟨hl, by simp [hname]⟩
      obtain ⟨l', hl', heq⟩ := List.mem_map.mp hmem
      have htag : ns.tags l.name = false := heq ▸ clean.layers l' hl'
      simp [hname, htag]
  have hprune : (Host.pruneNodes { g with layers := (h.redirect t.redirected).1.layers }
      fun n => ns.tags n.name).1 = { g with layers := (h.redirect t.redirected).1.layers } := by
    apply Host.pruneNodes_eq_self
    intro m hm n hn
    obtain ⟨m', hm', rfl⟩ := Host.mem_motions_redirect (h := h) hm
    rw [Node.walk_mapChannels] at hn
    obtain ⟨n', hn', rfl⟩ := List.mem_map.mp hn
    rw [Node.name_mapChannels]
    exact clean.nodes m' hm' n' hn'
  have hkept : t.kept.filter (fun c => !ns.generates c.name) = t.kept := by
    rw [List.filter_eq_self]
    intro c hc
    have hname : c.name ∈ h.channelNames := laden.map_name_kept ▸ List.mem_map_of_mem hc
    obtain ⟨d, hd, heq⟩ := List.mem_map.mp hname
    rw [← heq, clean.channels d hd]
    rfl
  simp only [Removal.removeArtifacts, Host.removeLayers, hlayers]
  rw [hprune]
  simp only [Host.removeChannels, laden.channels, List.filter_append, hkept]

/-- The clips that are no orphans are those from before. -/
theorem filter_clips (clean : h.Clean ns) (laden : Laden ns h plain t g) {played : NameSet}
    (hplayed : ∀ n, played.contains n = true → ∃ m ∈ h.motions, n ∈ m.clips) :
    g.clips.filter (fun c => !(!played.contains c.name && ClipName.isGenerated c.name h.id))
      = h.clips := by
  apply Table.ext_get?
  intro k
  rw [Table.get?_filter]
  cases hk : ClipName.isGenerated k h.id with
  | false =>
    rw [laden.clips k hk]
    cases hc : h.clips.get? k with
    | none => rfl
    | some c =>
      have hnot := clean.clipNames c (Table.mem_values.mpr ⟨k, hc⟩)
      simp [hnot]
  | true =>
    have hnone : h.clips.get? k = none := by
      rw [Option.eq_none_iff_forall_ne_some]
      intro c hc
      have hnot := clean.clipKeys k (Table.mem_keys.mpr ⟨c, hc⟩)
      rw [hk] at hnot
      cases hnot
    rw [hnone, Option.filter_eq_none_iff]
    intro c hc
    have hunplayed : played.contains k = false := by
      rw [← Bool.not_eq_true]
      intro hmem
      obtain ⟨m, hm, hleaf⟩ := hplayed k hmem
      have hnot := clean.leaves m hm k hleaf
      rw [hk] at hnot
      cases hnot
    simp [laden.clipNames k c hk hc, hk, hunplayed]

/-- A removal gives the host from before all compilations, with the extra channels behind. -/
theorem removeAll (hroot : ns.root ≠ "") (clean : h.Clean ns) (laden : Laden ns h plain t g) :
    (Removal.removeAll g ns.root).1 = { h with channels := h.channels ++ t.extra ns g } ∧
      (Removal.removeAll g ns.root).2.reverted = (h.redirect t.redirected).2 := by
  have hartifacts := laden.removeArtifacts hroot clean
  obtain ⟨hlayers, hcount⟩ := Removal.redirect_rawName? clean laden.proxies
  have hapart : ∀ n ∈ t.kept.map Channel.name,
      n ∉ (t.added.filter fun c => !ns.generates c.name).map Channel.name := by
    intro n hn hadded
    obtain ⟨c, hc, rfl⟩ := List.mem_map.mp hadded
    exact laden.fresh c.name (List.mem_map_of_mem (List.mem_of_mem_filter hc))
      (laden.map_name_kept ▸ hn)
  have hreverted : (Removal.revertReferences (Removal.removeArtifacts g ns).1 ns).1 = { g with
      layers := h.layers
      channels := t.kept ++ t.added.filter fun c => !ns.generates c.name } := by
    rw [hartifacts, ← hlayers]
    rfl
  have hrestored : (Removal.restoreSync (Removal.revertReferences
      (Removal.removeArtifacts g ns).1 ns).1 ns).1
        = { h with channels := h.channels ++ t.extra ns g, clips := g.clips } := by
    rw [hreverted, Removal.restoreSync, Removal.restoreFlags_fst, ← laden.overrides,
      ← laden.restores, Trace.extra, ← Host.setAll_append hapart, ← laden.id]
    rfl
  have hplayed : ∀ n, (Host.referencedClips
      { h with channels := h.channels ++ t.extra ns g, clips := g.clips }).contains n = true →
        ∃ m ∈ h.motions, n ∈ m.clips := by
    intro n hn
    exact Host.contains_referencedClips.mp hn
  have hempty : ns.root.isEmpty = false := by simpa using hroot
  rw [Removal.removeAll, hempty]
  simp only [Bool.false_eq_true, if_false]
  constructor
  · change (Removal.removeOrphans (Removal.restoreSync (Removal.revertReferences
      (Removal.removeArtifacts g ns).1 ns).1 ns).1).1 = _
    rw [hrestored, Removal.removeOrphans, Host.removeClips]
    simp only [laden.filter_clips clean hplayed]
  · change (Removal.revertReferences (Removal.removeArtifacts g ns).1 ns).2 = _
    rw [hartifacts]
    exact hcount

theorem map_name_extra : (t.extra ns g).map Channel.name
    = (t.added.filter fun c => !ns.generates c.name).map Channel.name :=
  Host.map_name_setAll _ _

theorem mem_extra {n : String} : n ∈ (t.extra ns g).map Channel.name
    ↔ n ∈ t.added.map Channel.name ∧ ns.generates n = false := by
  rw [map_name_extra]
  simp only [List.mem_map, List.mem_filter, Bool.not_eq_true']
  constructor
  · rintro ⟨c, ⟨hc, hplain⟩, rfl⟩
    exact ⟨⟨c, hc, rfl⟩, hplain⟩
  · rintro ⟨⟨c, hc, rfl⟩, hplain⟩
    exact ⟨c, ⟨hc, hplain⟩, rfl⟩

/-- A host with extra channels is as clean as before. -/
theorem clean_extra (clean : h.Clean ns) :
    Host.Clean ns { h with channels := h.channels ++ t.extra ns g } where
  layers := clean.layers
  nodes := clean.nodes
  channels c hc := by
    rcases List.mem_append.mp hc with hc | hc
    · exact clean.channels c hc
    · exact (mem_extra.mp (List.mem_map_of_mem hc)).2
  references := clean.references
  overrides := clean.overrides
  id := clean.id
  clipKeys := clean.clipKeys
  clipNames := clean.clipNames
  leaves := clean.leaves

end Laden

end BlendGraph
