import BlendGraph.Proofs.Compile.ChainedFilters
import BlendGraph.Proofs.Removal.RemainingHost

/-!
# Clean reports

Every step of a removal counts what it takes out, turns back or sets again, and leaves the host as
it is if there is nothing to count. Only the flags recorded under the root are forgotten without
being counted, where their channels are gone. So a clean report says that the host is as it was but
for such a record.
-/

set_option autoImplicit false

namespace BlendGraph

variable {α : Type} [Scalar α]

namespace Host

variable {h : Host α} {n : String}

theorem hasChannel_eq_isSome_flagIn (h : Host α) (n : String) :
    h.hasChannel n = (flagIn n h.channels).isSome := by
  rw [flagIn, Option.isSome_map]
  rfl

theorem hasChannel_eq_false_iff : h.hasChannel n = false ↔ n ∉ h.channelNames := by
  rw [hasChannel_eq_isSome_flagIn, channelNames, ← Bool.not_eq_true, isSome_flagIn_iff]

@[simp] theorem hasChannel_setSynced (h : Host α) (m : String) (v : Bool) (n : String) :
    (h.setSynced m v).hasChannel n = h.hasChannel n := by
  rw [Bool.eq_iff_iff, hasChannel_eq_isSome_flagIn, hasChannel_eq_isSome_flagIn, isSome_flagIn_iff,
    isSome_flagIn_iff, setSynced, map_name_setSyncedIn]

/-- A removal finds nothing: what it would take out or turn back is not there, and the channels
whose flags are recorded are gone. -/
structure Unmarked (ns : Namespace) (h : Host α) : Prop where
  settled : (h.dropOverrides ns.root).Settled ns
  unstarted : h.Unstarted ns
  gone : ∀ n ∈ (h.overridesOf ns.root).keys, h.hasChannel n = false

theorem Unmarked.untagged {ns : Namespace} (unmarked : h.Unmarked ns) : h.Untagged ns where
  layers := unmarked.settled.layers
  nodes := unmarked.settled.nodes
  channels := unmarked.settled.channels

end Host

/-- A host that has a recorded flag of a channel which is gone. -/
def Sample.recorded : Host Float32 :=
  { Host.empty "demo" with
    overrides := .ofList [("OSCm", .ofList [("Gone", true)])] }

namespace Removal

variable {ns : Namespace} {g h : Host α}

/-! ### What the steps count -/

theorem removeArtifacts_snd_eq_nothing_iff :
    (removeArtifacts g ns).2 = .nothing ↔ g.Untagged ns := by
  refine ⟨fun hnothing => ?_, fun untagged => by rw [removeArtifacts_of_untagged untagged]⟩
  simp only [removeArtifacts, RemovalReport.nothing, RemovalReport.mk.injEq] at hnothing
  obtain ⟨hnodes, hlayers, -, hchannels, -, -⟩ := hnothing
  -- a step that counted nothing has left the host to the next one as it was
  have layers : ∀ l ∈ g.layers, ns.tags l.name = false := by
    simpa [Host.removeLayers] using hlayers
  rw [removeLayers_eq_self layers] at hnodes hchannels
  have nodes := Host.pruneNodes_snd_eq_zero_iff.mp hnodes
  rw [Host.pruneNodes_eq_self nodes, List.map_eq_nil_iff] at hchannels
  have channels : ∀ c ∈ g.channels, ns.generates c.name = false := by
    simpa [Host.removeChannels] using hchannels
  exact ⟨layers, nodes, channels⟩

theorem restoreFlags_snd (h : Host α) (fs : List (String × Bool)) :
    (restoreFlags h fs).2 = fs.countP fun f => h.hasChannel f.1 := by
  induction fs generalizing h with
  | nil => rfl
  | cons f fs ih =>
    rw [restoreFlags, ih, List.countP_cons, Nat.add_comm]
    simp only [Host.hasChannel_setSynced]
    cases h.hasChannel f.1 <;> rfl

theorem restoreSync_snd_eq_zero_iff : (restoreSync g ns).2 = 0 ↔
    ∀ n ∈ (g.overridesOf ns.root).keys, g.hasChannel n = false := by
  rw [restoreSync, restoreFlags_snd, List.countP_eq_zero, Table.keys, List.forall_mem_map]
  simp only [Bool.not_eq_true]
  rfl

/-- Recorded flags of channels that are gone are forgotten without being set. -/
theorem restoreSync_of_gone (gone : ∀ n ∈ (g.overridesOf ns.root).keys, g.hasChannel n = false) :
    restoreSync g ns = (g.dropOverrides ns.root, 0) := by
  have hflags : Host.setAll (g.overridesOf ns.root).entries g.channels = g.channels :=
    Host.setAll_of_notMem fun f hf =>
      Host.hasChannel_eq_false_iff.mp (gone f.1 (List.mem_map_of_mem hf))
  apply Prod.ext
  · rw [restoreSync, restoreFlags_fst]
    exact congrArg (fun cs => { g.dropOverrides ns.root with channels := cs }) hflags
  · exact restoreSync_snd_eq_zero_iff.mpr gone

/-- A name that starts like a generated one is turned back to a shorter one. -/
theorem turned_eq_self_iff {n : String} : turned ns n = n ↔ rawName? ns n = none := by
  rw [turned, Host.replaced]
  cases hraw : rawName? ns n with
  | none => simp
  | some m =>
    obtain ⟨start, hstart, rfl⟩ := rawName?_eq_some_iff.mp hraw
    obtain ⟨segment, -, hchannel⟩ := Namespace.channel_of_mem_starts hstart
    have hlonger : m ≠ start ++ m := hchannel m ▸ (ns.channel_ne segment m).symm
    simp [hlonger]

theorem unstarted_of_layers_eq (heq : g.layers.map (Layer.mapChannels (turned ns)) = g.layers) :
    g.Unstarted ns := by
  intro r hr
  obtain ⟨l, hl, hr⟩ := List.mem_flatMap.mp hr
  have hfixed : l.mapChannels (turned ns) = l :=
    List.map_inj_left.mp (heq.trans (List.map_id' _).symm) l hl
  rw [← rawName?_eq_none_iff, ← turned_eq_self_iff]
  exact Layer.mapChannels_eq_self_iff.mp hfixed _ (List.mem_map_of_mem hr)

/-! ### Clean removals -/

theorem removeAll_of_unmarked (hroot : ns.root ≠ "") (unmarked : h.Unmarked ns) :
    removeAll h ns.root = (h.dropOverrides ns.root, .nothing) := by
  have hreverted : revertReferences h ns = (h, 0) :=
    Host.redirect_eq_self h fun r hr => rawName?_eq_none (unmarked.unstarted r hr)
  rw [removeAll, if_neg (by simpa using hroot)]
  simp only [removeArtifacts_of_untagged unmarked.untagged, hreverted,
    restoreSync_of_gone unmarked.gone, removeOrphans_eq_self unmarked.settled.clips]
  rfl

theorem unmarked_of_isClean (hroot : ns.root ≠ "")
    (hclean : (removeAll h ns.root).2.isClean = true) : h.Unmarked ns := by
  rw [RemovalReport.isClean_iff, removeAll, if_neg (by simpa using hroot)] at hclean
  have hartifacts : (removeArtifacts h ns).2 = .nothing := by
    simp only [removeArtifacts, RemovalReport.nothing, RemovalReport.mk.injEq] at hclean ⊢
    obtain ⟨hnodes, hlayers, -, hchannels, -, -⟩ := hclean
    exact ⟨hnodes, hlayers, trivial, hchannels, trivial, trivial⟩
  have untagged := removeArtifacts_snd_eq_nothing_iff.mp hartifacts
  simp only [removeArtifacts_of_untagged untagged, RemovalReport.nothing,
    RemovalReport.mk.injEq] at hclean
  obtain ⟨-, -, hreverted, -, horphans, hrestored⟩ := hclean
  have unstarted : h.Unstarted ns := unstarted_iff.mpr hreverted
  have hsame : revertReferences h ns = (h, 0) :=
    Host.redirect_eq_self h fun r hr => rawName?_eq_none (unstarted r hr)
  rw [hsame] at hrestored horphans
  have gone := restoreSync_snd_eq_zero_iff.mp hrestored
  rw [restoreSync_of_gone gone] at horphans
  refine ⟨?_, unstarted, gone⟩
  exact ⟨untagged.layers, untagged.nodes, untagged.channels,
    h.get?_overrides_dropOverrides ns.root, removeOrphans_snd_eq_zero_iff.mp horphans⟩

/-- What a removal leaves is settled, so that a host which it leaves as it is has no mark. -/
theorem unmarked_of_fst_eq (hroot : ns.root ≠ "")
    (hsame : (removeAll h ns.root).1 = h.dropOverrides ns.root)
    (gone : ∀ n ∈ (h.overridesOf ns.root).keys, h.hasChannel n = false) : h.Unmarked ns := by
  have settled : (h.dropOverrides ns.root).Settled ns := hsame ▸ settled_removeAll h hroot
  refine ⟨settled, unstarted_of_layers_eq ?_, gone⟩
  have hlayers : remaining ns h.layers = h.layers := by
    rw [removeAll_fst h hroot] at hsame
    exact congrArg Host.layers hsame
  have hkept : h.layers.filter (fun l => !ns.tags l.name) = h.layers :=
    List.filter_eq_self.mpr fun l hl => by simp [settled.layers l hl]
  have hpruned : h.layers.map (Layer.prune fun n => ns.tags n.name) = h.layers :=
    congrArg Host.layers (Host.pruneNodes_eq_self (h := h) settled.nodes)
  rwa [remaining, hkept, hpruned] at hlayers

/-- A report is clean if and only if the removal has changed nothing but to forget the flags that
were recorded under the root, for channels that are all gone. -/
theorem isClean_removeAll_iff (h : Host α) {ns : Namespace} (hroot : ns.root ≠ "") :
    ((removeAll h ns.root).2.isClean = true ↔
      (removeAll h ns.root).1 = h.dropOverrides ns.root ∧
        ∀ n ∈ (h.overridesOf ns.root).keys, h.hasChannel n = false) ∧
    ((removeAll h ns.root).1 = h → (removeAll h ns.root).2.isClean = true) ∧
    ((removeAll h ns.root).2.isClean = true →
      ((removeAll h ns.root).1 = h ↔ h.overrides.get? ns.root = none)) := by
  have hiff : (removeAll h ns.root).2.isClean = true ↔
      (removeAll h ns.root).1 = h.dropOverrides ns.root ∧
        ∀ n ∈ (h.overridesOf ns.root).keys, h.hasChannel n = false := by
    constructor
    · intro hclean
      have unmarked := unmarked_of_isClean hroot hclean
      rw [removeAll_of_unmarked hroot unmarked]
      exact ⟨rfl, unmarked.gone⟩
    · rintro ⟨hsame, gone⟩
      rw [removeAll_of_unmarked hroot (unmarked_of_fst_eq hroot hsame gone)]
      rfl
  refine ⟨hiff, fun hsame => ?_, fun hclean => ?_⟩
  · have hnone : h.overrides.get? ns.root = none := by
      rw [← hsame]
      exact (settled_removeAll h hroot).overrides
    refine hiff.mpr ⟨hsame.trans (Host.dropOverrides_eq_self_iff.mpr hnone).symm, ?_⟩
    rw [Host.overridesOf, hnone]
    intro n hn
    cases hn
  · rw [(hiff.mp hclean).1, Host.dropOverrides_eq_self_iff]

theorem isClean_removeAll_iff_sample : "OSCm" ≠ "" ∧
    (removeAll Sample.host "OSCm").2.isClean = true ∧
    (removeAll Sample.host "OSCm").1 = Sample.host := by
  have hroot : (⟨"OSCm"⟩ : Namespace).root ≠ "" := by decide
  have hclean : (removeAll Sample.host "OSCm").2.isClean = true := by decide +kernel
  obtain ⟨-, -, hkept⟩ := isClean_removeAll_iff Sample.host hroot
  exact ⟨hroot, hclean, (hkept hclean).mpr rfl⟩

/-- The record of a channel that is gone is forgotten, and the report is clean. -/
theorem forgotten_without_report : (removeAll Sample.recorded "OSCm").2.isClean = true ∧
    (removeAll Sample.recorded "OSCm").1 ≠ Sample.recorded := by
  refine ⟨by decide +kernel, fun hsame => ?_⟩
  have hrecords := congrArg (fun h => h.overrides.contains "OSCm") hsame
  exact absurd hrecords (by decide +kernel)

end Removal

end BlendGraph
