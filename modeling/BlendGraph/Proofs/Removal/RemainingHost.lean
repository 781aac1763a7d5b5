import BlendGraph.Proofs.Compile.Capacity
import BlendGraph.Proofs.Removal.SeveralRoots

/-!
# What a removal leaves

After a removal nothing is tagged any more. Only a reference may still start like a generated name:
the removal takes one start off each, so that a name that starts twice is turned back in two steps.
A second removal is clean if and only if there is no such reference.
-/

set_option autoImplicit false

namespace BlendGraph

variable {α : Type}

/-! ### Names that start like generated ones -/

theorem Namespace.channel_of_mem_starts {ns : Namespace} {start : String} (h : start ∈ ns.starts) :
    ∃ segment, '/' ∉ segment.toList ∧ ∀ rest, start ++ rest = ns.channel segment rest := by
  have hchannel (segment rest : String) : ns.start segment ++ rest = ns.channel segment rest := by
    rw [Namespace.start, Namespace.channel, Namespace.channel, String.append_empty]
  simp only [Namespace.starts, List.mem_cons, List.not_mem_nil, or_false] at h
  rcases h with rfl | rfl | rfl | rfl
  · exact ⟨_, by decide, hchannel _⟩
  · exact ⟨_, by decide, hchannel _⟩
  · exact ⟨_, by decide, hchannel _⟩
  · exact ⟨_, by decide, hchannel _⟩

/-- A name starts in one way only. -/
theorem Namespace.append_inj_of_mem_starts {ns : Namespace} {s t a b : String} (hs : s ∈ ns.starts)
    (ht : t ∈ ns.starts) (h : s ++ a = t ++ b) : a = b := by
  obtain ⟨segment, hsegment, hchannel⟩ := Namespace.channel_of_mem_starts hs
  obtain ⟨segment', hsegment', hchannel'⟩ := Namespace.channel_of_mem_starts ht
  rw [hchannel, hchannel'] at h
  exact (Namespace.channel_inj hsegment hsegment' h).2

/-- The name starts like a generated one, and goes on so. -/
def Namespace.StartsTwice (ns : Namespace) (n : String) : Prop :=
  ∃ start ∈ ns.starts, ∃ next ∈ ns.starts, Text.startsWith n (start ++ next) = true

instance (ns : Namespace) (n : String) : Decidable (ns.StartsTwice n) :=
  inferInstanceAs (Decidable (∃ start ∈ ns.starts, ∃ next ∈ ns.starts, _))

theorem Text.startsWith_iff_exists {text start : String} :
    Text.startsWith text start = true ↔ ∃ rest, text = start ++ rest := by
  rw [Text.startsWith_iff]
  constructor
  · rintro ⟨rest, hrest⟩
    exact ⟨String.ofList rest, String.toList_injective (by simp [← hrest])⟩
  · rintro ⟨rest, rfl⟩
    exact ⟨rest.toList, by simp⟩

namespace Removal

variable {ns : Namespace} {n : String}

theorem rawName?_eq_none_iff :
    rawName? ns n = none ↔ ∀ start ∈ ns.starts, Text.startsWith n start = false := by
  refine ⟨fun h start hstart => ?_, rawName?_eq_none⟩
  rw [← Bool.not_eq_true, Text.startsWith_iff_exists]
  rintro ⟨rest, hrest⟩
  have hnone := List.findSome?_eq_none_iff.mp h start hstart
  rw [Text.strip?_eq_some_iff.mpr hrest] at hnone
  cases hnone

theorem rawName?_eq_some_iff {m : String} :
    rawName? ns n = some m ↔ ∃ start ∈ ns.starts, n = start ++ m := by
  have hsome {m : String} (h : rawName? ns n = some m) : ∃ start ∈ ns.starts, n = start ++ m := by
    obtain ⟨start, hstart, hstrip⟩ := List.exists_of_findSome?_eq_some h
    exact ⟨start, hstart, Text.strip?_eq_some_iff.mp hstrip⟩
  refine ⟨hsome, ?_⟩
  rintro ⟨start, hstart, hn⟩
  cases hraw : rawName? ns n with
  | none =>
    have hstarts := Text.startsWith_iff_exists.mpr ⟨m, hn⟩
    rw [rawName?_eq_none_iff.mp hraw start hstart] at hstarts
    cases hstarts
  | some m' =>
    obtain ⟨start', hstart', hn'⟩ := hsome hraw
    rw [Namespace.append_inj_of_mem_starts hstart' hstart (hn'.symm.trans hn)]

/-- A name is turned back for good unless it starts twice. -/
theorem rawName?_turned : rawName? ns (turned ns n) = none ↔ ¬ ns.StartsTwice n := by
  have htwice : ns.StartsTwice n ↔ ∃ m, rawName? ns n = some m ∧ rawName? ns m ≠ none := by
    constructor
    · rintro ⟨start, hstart, next, hnext, hn⟩
      obtain ⟨rest, rfl⟩ := Text.startsWith_iff_exists.mp hn
      refine ⟨next ++ rest, rawName?_eq_some_iff.mpr ⟨start, hstart, String.append_assoc ..⟩, ?_⟩
      rw [rawName?_eq_some_iff.mpr ⟨next, hnext, rfl⟩]
      exact Option.some_ne_none _
    · rintro ⟨m, hm, hagain⟩
      obtain ⟨start, hstart, rfl⟩ := rawName?_eq_some_iff.mp hm
      obtain ⟨rest, hrest⟩ := Option.ne_none_iff_exists'.mp hagain
      obtain ⟨next, hnext, rfl⟩ := rawName?_eq_some_iff.mp hrest
      exact ⟨start, hstart, next, hnext,
        Text.startsWith_iff_exists.mpr ⟨rest, (String.append_assoc ..).symm⟩⟩
  rw [htwice, turned, Host.replaced]
  cases hraw : rawName? ns n with
  | none => simp [hraw]
  | some m => simp

end Removal

/-! ### Pruned trees -/

namespace Node

/-- Below a root that stays, pruning leaves no node that passes the test. -/
theorem name_of_mem_walk_prune {test : String → Bool} {n : Node α} (hn : test n.name = false) :
    ∀ k ∈ (n.prune fun k => test k.name).walk, test k.name = false := by
  induction n using Node.induction with
  | leaf clip =>
    intro k hk
    obtain rfl := List.mem_singleton.mp hk
    exact hn
  | interp name channel cs ih =>
    simp only [prune, pruneInterp_eq, walk, walkInterp_eq, List.mem_cons, List.mem_flatMap]
    rintro k (rfl | ⟨c, hc, hk⟩)
    · exact hn
    · obtain ⟨d, hd, rfl⟩ := List.mem_map.mp hc
      obtain ⟨hd, hkept⟩ := List.mem_filter.mp hd
      exact ih d hd (by simpa using hkept) k hk
  | sum name cs ih =>
    simp only [prune, pruneSum_eq, walk, walkSum_eq, List.mem_cons, List.mem_flatMap]
    rintro k (rfl | ⟨c, hc, hk⟩)
    · exact hn
    · obtain ⟨d, hd, rfl⟩ := List.mem_map.mp hc
      obtain ⟨hd, hkept⟩ := List.mem_filter.mp hd
      exact ih d hd (by simpa using hkept) k hk

theorem pruneCountInterp_eq (cut : Node α → Bool) (cs : List (α × Node α)) :
    pruneCountInterp cut cs = tally (fun c => if cut c.2 then 1 else c.2.pruneCount cut) cs := by
  induction cs with
  | nil => rfl
  | cons c cs ih => rw [pruneCountInterp, ih, tally_cons]

theorem pruneCountSum_eq (cut : Node α → Bool) (cs : List (String × Node α)) :
    pruneCountSum cut cs = tally (fun c => if cut c.2 then 1 else c.2.pruneCount cut) cs := by
  induction cs with
  | nil => rfl
  | cons c cs ih => rw [pruneCountSum, ih, tally_cons]

/-- Nothing is cut off a motion if and only if no node of it passes the test. -/
theorem pruneCount_eq_zero_iff {cut : Node α → Bool} {n : Node α} :
    (if cut n then 1 else n.pruneCount cut) = 0 ↔ ∀ k ∈ n.walk, cut k = false := by
  induction n using Node.induction with
  | leaf clip => simp [pruneCount, walk]
  | interp name channel cs ih =>
    have hcs : pruneCountInterp cut cs = 0 ↔ ∀ c ∈ cs, ∀ k ∈ c.2.walk, cut k = false := by
      rw [pruneCountInterp_eq, tally_eq_zero_iff]
      exact forall₂_congr ih
    rw [pruneCount, walk, walkInterp_eq, List.forall_mem_cons, List.forall_mem_flatMap, ← hcs]
    split <;> simp [*]
  | sum name cs ih =>
    have hcs : pruneCountSum cut cs = 0 ↔ ∀ c ∈ cs, ∀ k ∈ c.2.walk, cut k = false := by
      rw [pruneCountSum_eq, tally_eq_zero_iff]
      exact forall₂_congr ih
    rw [pruneCount, walk, walkSum_eq, List.forall_mem_cons, List.forall_mem_flatMap, ← hcs]
    split <;> simp [*]

@[simp] theorem clips_mapChannels (f : String → String) (n : Node α) :
    (n.mapChannels f).clips = n.clips := by
  rw [clips, walk_mapChannels, List.filterMap_map]
  apply List.filterMap_congr
  intro k _
  cases k <;> rfl

end Node

variable [Scalar α]

namespace Host

theorem pruneNodes_snd_eq_zero_iff {h : Host α} {cut : Node α → Bool} :
    (h.pruneNodes cut).2 = 0 ↔ ∀ m ∈ h.motions, ∀ n ∈ m.walk, cut n = false := by
  have hstate (s : State α) :
      s.pruneCount cut = 0 ↔ ∀ m, s.motion = some m → ∀ n ∈ m.walk, cut n = false := by
    rw [State.pruneCount]
    cases s.motion with
    | none => simp
    | some m => simp [Node.pruneCount_eq_zero_iff]
  rw [pruneNodes, tally_eq_zero_iff]
  simp only [hstate, motions, List.mem_filterMap]
  constructor
  · rintro hall m ⟨s, hs, hm⟩
    exact hall s hs m hm
  · intro hall s hs m hm
    exact hall m ⟨s, hs, hm⟩

/-- The leaves of redirected motions play the same clips. -/
theorem referencedClips_redirect (h : Host α) (f : String → Option String) :
    (h.redirect f).1.referencedClips = h.referencedClips := by
  have hstate (s : State α) :
      ((s.mapChannels (replaced f)).motion.toList.flatMap Node.clips)
        = s.motion.toList.flatMap Node.clips := by
    cases hm : s.motion <;> simp [State.mapChannels, hm]
  have hclips : (h.redirect f).1.motions.flatMap Node.clips = h.motions.flatMap Node.clips := by
    simp only [motions, states, layers_redirect, List.filterMap_eq_flatMap_toList,
      List.flatMap_assoc, List.flatMap_map, Layer.mapChannels, hstate]
  rw [referencedClips, hclips, referencedClips]

@[simp] theorem get?_overrides_dropOverrides (h : Host α) (root : String) :
    (h.dropOverrides root).overrides.get? root = none := by
  rw [dropOverrides, Table.get?_erase, if_pos rfl]

theorem dropOverrides_eq_self_iff {h : Host α} {root : String} :
    h.dropOverrides root = h ↔ h.overrides.get? root = none := by
  constructor
  · intro hdrop
    rw [← hdrop, get?_overrides_dropOverrides]
  · intro hnone
    rw [dropOverrides, Table.erase_eq_self hnone]

/-- Nothing in the host is tagged, and no generated clip is left that no leaf names. -/
structure Settled (ns : Namespace) (g : Host α) : Prop where
  layers : ∀ l ∈ g.layers, ns.tags l.name = false
  nodes : ∀ m ∈ g.motions, ∀ n ∈ m.walk, ns.tags n.name = false
  channels : ∀ c ∈ g.channels, ns.generates c.name = false
  overrides : g.overrides.get? ns.root = none
  clips : ∀ c ∈ g.clips.values, g.referencedClips.contains c.name = false →
    ClipName.isGenerated c.name g.id = false

/-- No layer, node or channel of the host carries the name of a generated one. -/
structure Untagged (ns : Namespace) (g : Host α) : Prop where
  layers : ∀ l ∈ g.layers, ns.tags l.name = false
  nodes : ∀ m ∈ g.motions, ∀ n ∈ m.walk, ns.tags n.name = false
  channels : ∀ c ∈ g.channels, ns.generates c.name = false

theorem Settled.untagged {ns : Namespace} {g : Host α} (settled : g.Settled ns) :
    g.Untagged ns where
  layers := settled.layers
  nodes := settled.nodes
  channels := settled.channels

/-- No reference starts like a generated name. -/
def Unstarted (ns : Namespace) (g : Host α) : Prop :=
  ∀ r ∈ g.references, ∀ start ∈ ns.starts, Text.startsWith r.channel start = false

end Host

/-- A host with a reference to a smoothed channel of a smoothed channel. -/
def Sample.nested : Host Float32 :=
  { Host.empty "demo" with
    layers := [⟨"Face", [.playing "Open"
      (.sum "Mix" [("OSCm/Proxy/OSCm/Proxy/Jaw", .leaf "Open")])]⟩] }

namespace Removal

/-! ### A removal -/

omit [Scalar α] in
/-- A state that a removal leaves plays what is left of a motion with an untagged root. -/
theorem exists_of_mem_remaining {ns : Namespace} {ls : List (Layer α)} {m : Node α}
    (hm : m ∈ ((remaining ns ls).flatMap Layer.states).filterMap State.motion) :
    ∃ k ∈ (ls.flatMap Layer.states).filterMap State.motion, ns.tags k.name = false ∧
      m = (k.prune fun n => ns.tags n.name).mapChannels (turned ns) := by
  obtain ⟨s, hs, hm⟩ := List.mem_filterMap.mp hm
  obtain ⟨l, hl, hs⟩ := List.mem_flatMap.mp hs
  obtain ⟨l₁, hl₁, rfl⟩ := List.mem_map.mp hl
  obtain ⟨l₂, hl₂, rfl⟩ := List.mem_map.mp hl₁
  obtain ⟨s₁, hs₁, rfl⟩ := List.mem_map.mp hs
  obtain ⟨s₂, hs₂, rfl⟩ := List.mem_map.mp hs₁
  obtain ⟨m₁, hm₁, rfl⟩ := Option.map_eq_some_iff.mp hm
  obtain ⟨k, hk, hcut⟩ := Option.bind_eq_some_iff.mp hm₁
  obtain ⟨hkept, hprune⟩ := Option.ite_none_left_eq_some.mp hcut
  have hstate := List.mem_flatMap.mpr ⟨l₂, (List.mem_filter.mp hl₂).1, hs₂⟩
  exact ⟨k, List.mem_filterMap.mpr ⟨s₂, hstate, hk⟩, Bool.eq_false_iff.mpr hkept,
    by rw [← Option.some.inj hprune]⟩

theorem settled_removeAll (h : Host α) {ns : Namespace} (hroot : ns.root ≠ "") :
    (removeAll h ns.root).1.Settled ns := by
  rw [removeAll_fst h hroot]
  constructor
  case layers =>
    intro l hl
    obtain ⟨l₁, hl₁, rfl⟩ := List.mem_map.mp hl
    obtain ⟨l₂, hl₂, rfl⟩ := List.mem_map.mp hl₁
    exact (Bool.not_eq_true' _).mp (List.mem_filter.mp hl₂).2
  case nodes =>
    intro m hm n hn
    obtain ⟨k, -, hkept, rfl⟩ := exists_of_mem_remaining hm
    rw [Node.walk_mapChannels] at hn
    obtain ⟨n', hn', rfl⟩ := List.mem_map.mp hn
    rw [Node.name_mapChannels]
    exact Node.name_of_mem_walk_prune hkept n' hn'
  case channels =>
    intro c hc
    have hname : c.name ∈ (h.channels.filter fun c => !ns.generates c.name).map Channel.name := by
      rw [← Host.map_name_setAll (h.overridesOf ns.root).entries]
      exact List.mem_map_of_mem hc
    obtain ⟨d, hd, hname⟩ := List.mem_map.mp hname
    rw [← hname]
    simpa using (List.mem_filter.mp hd).2
  case overrides =>
    rw [Table.get?_erase, if_pos rfl]
  case clips =>
    intro c hc hunplayed
    obtain ⟨k, hk⟩ := Table.mem_values.mp hc
    rw [Table.get?_filter, Option.filter_eq_some_iff] at hk
    have hplayed : (Host.referencedClips { h with layers := remaining ns h.layers }).contains c.name
        = false := hunplayed
    simpa [hplayed] using hk.2

theorem unstarted_removeAll_iff (h : Host α) {ns : Namespace} (hroot : ns.root ≠ "") :
    (removeAll h ns.root).1.Unstarted ns ↔ ∀ l ∈ h.layers, ns.tags l.name = false →
      ∀ r ∈ (l.prune fun n => ns.tags n.name).references, ¬ ns.StartsTwice r.channel := by
  have hunstarted {l : Layer α} : (∀ r ∈ (l.mapChannels (turned ns)).references,
      ∀ start ∈ ns.starts, Text.startsWith r.channel start = false) ↔
        ∀ r ∈ l.references, ¬ ns.StartsTwice r.channel := by
    simp only [Layer.references_mapChannels, List.forall_mem_map, ← rawName?_eq_none_iff,
      rawName?_turned]
  rw [removeAll_fst h hroot, Host.Unstarted, Host.references]
  simp only [remaining, List.forall_mem_flatMap, List.forall_mem_map, hunstarted, List.mem_filter,
    Bool.not_eq_true', and_imp]

/-! ### A second removal -/

theorem removeLayers_eq_self {g : Host α} {test : Layer α → Bool}
    (kept : ∀ l ∈ g.layers, test l = false) : g.removeLayers test = (g, 0) := by
  rw [Host.removeLayers, List.filter_eq_self.mpr fun l hl => by simp [kept l hl],
    List.countP_eq_zero.mpr fun l hl => by simp [kept l hl]]

theorem removeArtifacts_of_untagged {ns : Namespace} {g : Host α} (untagged : g.Untagged ns) :
    removeArtifacts g ns = (g, .nothing) := by
  have hlayers : g.removeLayers (fun l => ns.tags l.name) = (g, 0) :=
    removeLayers_eq_self untagged.layers
  have hnodes : g.pruneNodes (fun n => ns.tags n.name) = (g, 0) :=
    Prod.ext (Host.pruneNodes_eq_self untagged.nodes)
      (Host.pruneNodes_snd_eq_zero_iff.mpr untagged.nodes)
  have hchannels : g.removeChannels (fun c => ns.generates c.name) = (g, []) := by
    rw [Host.removeChannels, List.filter_eq_self.mpr fun c hc => by simp [untagged.channels c hc],
      List.filter_eq_nil_iff.mpr fun c hc => by simp [untagged.channels c hc]]
  rw [removeArtifacts, hlayers]
  dsimp only
  rw [hnodes]
  dsimp only
  rw [hchannels]
  rfl

theorem restoreSync_of_unrecorded {ns : Namespace} {g : Host α}
    (unrecorded : g.overrides.get? ns.root = none) : restoreSync g ns = (g, 0) := by
  have hdrop : g.dropOverrides ns.root = g := Host.dropOverrides_eq_self_iff.mpr unrecorded
  have hnone : g.overridesOf ns.root = .empty := by
    rw [Host.overridesOf, unrecorded]
    rfl
  rw [restoreSync, hdrop, hnone]
  rfl

theorem removeOrphans_snd_eq_zero_iff {g : Host α} : (removeOrphans g).2 = 0 ↔
    ∀ c ∈ g.clips.values, g.referencedClips.contains c.name = false →
      ClipName.isGenerated c.name g.id = false := by
  rw [removeOrphans, Host.removeClips, List.countP_eq_zero]
  simp only [Bool.and_eq_true, Bool.not_eq_true', not_and, Bool.not_eq_true]

theorem removeOrphans_eq_self {g : Host α} (kept : ∀ c ∈ g.clips.values,
    g.referencedClips.contains c.name = false → ClipName.isGenerated c.name g.id = false) :
    removeOrphans g = (g, 0) := by
  have hclips : g.clips.filter (fun c => !(!g.referencedClips.contains c.name
      && ClipName.isGenerated c.name g.id)) = g.clips := by
    apply Table.ext
    apply List.filter_eq_self.mpr
    intro e he
    dsimp only
    cases hplayed : g.referencedClips.contains e.2.name with
    | true => rfl
    | false =>
      rw [kept e.2 (List.mem_map_of_mem he) hplayed]
      rfl
  apply Prod.ext
  · rw [removeOrphans, Host.removeClips, hclips]
  · exact removeOrphans_snd_eq_zero_iff.mpr kept

/-- Once a host is settled, a removal does no more than turn references back. -/
theorem removeAll_of_settled {ns : Namespace} (hroot : ns.root ≠ "") {g : Host α}
    (settled : g.Settled ns) : removeAll g ns.root = ((g.redirect (rawName? ns)).1,
      { RemovalReport.nothing with reverted := (g.redirect (rawName? ns)).2 }) := by
  have hempty : ns.root.isEmpty = false := by simpa using hroot
  have hflags : restoreSync (g.redirect (rawName? ns)).1 ns
      = ((g.redirect (rawName? ns)).1, 0) := restoreSync_of_unrecorded settled.overrides
  have horphans : removeOrphans (g.redirect (rawName? ns)).1
      = ((g.redirect (rawName? ns)).1, 0) := by
    apply removeOrphans_eq_self
    rw [Host.referencedClips_redirect]
    exact settled.clips
  simp only [removeAll, hempty, Bool.false_eq_true, if_false,
    removeArtifacts_of_untagged settled.untagged, revertReferences, hflags, horphans]
  rfl

theorem unstarted_iff {ns : Namespace} {g : Host α} :
    g.Unstarted ns ↔ (g.redirect (rawName? ns)).2 = 0 := by
  rw [Host.redirect_snd, List.countP_eq_zero]
  simp only [Host.Unstarted, ← rawName?_eq_none_iff, Option.not_isSome_iff_eq_none]

/-- A removal settles every host. It can be repeated without an effect if and only if no reference
of what stays starts twice like a generated name. -/
theorem removeAll_settles (h : Host α) {ns : Namespace} (hroot : ns.root ≠ "") :
    ∃ g report, removeAll h ns.root = (g, report) ∧ g.Settled ns ∧
      (g.Unstarted ns ↔ ∀ l ∈ h.layers, ns.tags l.name = false →
        ∀ r ∈ (l.prune fun n => ns.tags n.name).references, ¬ ns.StartsTwice r.channel) ∧
      (g.Unstarted ns ↔ (removeAll g ns.root).2.isClean = true) ∧
      (g.Unstarted ns ↔ removeAll g ns.root = (g, .nothing)) := by
  have settled := settled_removeAll h hroot
  have hagain := removeAll_of_settled hroot settled
  have hclean : (removeAll h ns.root).1.Unstarted ns ↔
      (removeAll (removeAll h ns.root).1 ns.root).2.isClean = true := by
    rw [unstarted_iff, RemovalReport.isClean_iff, hagain]
    simp [RemovalReport.nothing]
  refine ⟨(removeAll h ns.root).1, (removeAll h ns.root).2, rfl, settled,
    unstarted_removeAll_iff h hroot, hclean, fun hunstarted => ?_, fun hsame => ?_⟩
  · rw [hagain, Host.redirect_eq_self _ fun r hr => rawName?_eq_none (hunstarted r hr)]
    rfl
  · rw [hclean, hsame]
    rfl

theorem removeAll_settles_sample : "OSCm" ≠ "" ∧ ∃ g report,
    removeAll (removeAll Sample.nested "OSCm").1 "OSCm" = (g, report) ∧
    removeAll g "OSCm" = (g, .nothing) := by
  have hroot : (⟨"OSCm"⟩ : Namespace).root ≠ "" := by decide
  obtain ⟨g, report, hremoved, -, hstarts, -, hagain⟩ :=
    removeAll_settles (removeAll Sample.nested "OSCm").1 hroot
  exact ⟨hroot, g, report, hremoved, hagain.mp (hstarts.mpr (by decide +kernel))⟩

/-- The reference is turned back by one start at a time, so that the second removal is not clean. -/
theorem removeAll_not_clean : ∃ g report, removeAll Sample.nested "OSCm" = (g, report) ∧
    (∃ r ∈ g.references, Text.startsWith r.channel (Namespace.start ⟨"OSCm"⟩ "Proxy") = true) ∧
    (removeAll g "OSCm").2.isClean = false :=
  ⟨_, _, rfl, by decide +kernel, by decide +kernel⟩

end Removal

end BlendGraph
