import BlendGraph.Proofs.Compile.DroppedParameters
import BlendGraph.Proofs.Removal.CleanHosts

/-!
# Hosts under several roots

Compilations and removals under any roots lay names and flags over those of a host, and put layers
and channels behind its own. What they lay over is told by two functions, and each step composes
them with functions of its own.
-/

set_option autoImplicit false

namespace BlendGraph

variable {α : Type}

/-! ### Pruned layers -/

namespace Layer

def prune (cut : Node α → Bool) (l : Layer α) : Layer α :=
  { l with states := l.states.map (State.prune cut) }

/-- Nothing is cut off a layer by the names of its nodes, whatever channels it reads. -/
theorem prune_mapChannels {test : String → Bool} {l : Layer α} (f : String → String)
    (kept : ∀ s ∈ l.states, ∀ m, s.motion = some m → ∀ n ∈ m.walk, test n.name = false) :
    (l.mapChannels f).prune (fun n => test n.name) = l.mapChannels f := by
  have hstates : ∀ s ∈ l.states, ((s.mapChannels f).prune fun n => test n.name)
      = s.mapChannels f := by
    intro s hs
    apply State.prune_eq_self
    intro m hm n hn
    obtain ⟨m', hm', rfl⟩ := Option.map_eq_some_iff.mp hm
    rw [Node.walk_mapChannels] at hn
    obtain ⟨n', hn', rfl⟩ := List.mem_map.mp hn
    rw [Node.name_mapChannels]
    exact kept s hs m' hm' n' hn'
  rw [prune, mapChannels, List.map_map]
  congr 1
  exact List.map_congr_left hstates

end Layer

variable [Scalar α]

/-! ### Recorded flags -/

/-- The flag that is overwritten where another one is wanted. -/
def overwritten? (wanted : Option Bool) (flag : Bool) : Option Bool :=
  if wanted = some !flag then some flag else none

@[simp] theorem overwritten?_none (flag : Bool) : overwritten? none flag = none := rfl

theorem overwritten?_eq (wanted : Option Bool) (flag : Bool) :
    overwritten? wanted flag = if wanted.getD flag ≠ flag then some flag else none := by
  cases wanted with
  | none => simp
  | some w => cases w <;> cases flag <;> rfl

namespace Registry

variable {ns : Namespace} {n : String} {v : Bool}

theorem get?_overridesOf_applyFlag {h : Host α} {f : String × Bool}
    (plain : ns.generates n = false) (hv : Host.flagIn n h.channels = some v) :
    ((applyFlag ns h f).overridesOf ns.root).get? n = ((h.overridesOf ns.root).get? n).or
      (overwritten? (if n = f.1 then some f.2 else none) v) := by
  rw [overridesOf_applyFlag]
  by_cases hn : n = f.1
  · subst hn
    rw [hv, if_pos rfl]
    dsimp only
    split
    · next hcase =>
      rcases hcase with rfl | hgen | hrecorded
      · simp [overwritten?]
      · rw [plain] at hgen
        cases hgen
      · obtain ⟨w, hw⟩ := Option.isSome_iff_exists.mp hrecorded
        rw [hw, Option.some_or]
    · next hcase =>
      rw [not_or, not_or] at hcase
      have hother : f.2 = !v := Bool.eq_not.mpr (Ne.symm hcase.1)
      have hnew : (h.overridesOf ns.root).get? f.1 = none := by
        simpa [Table.contains] using hcase.2.2
      rw [Table.get?_insert_self, hnew, Option.none_or, overwritten?, hother, if_pos rfl]
  · rw [if_neg hn]
    rw [overwritten?_none, Option.or_none]
    split
    · rfl
    · split
      · rfl
      · exact Table.get?_insert_of_ne _ _ hn

/-- Of a channel that is not generated, the first flag to be overwritten is recorded. -/
theorem get?_overridesOf_foldl {h : Host α} {fs : List (String × Bool)}
    (nodup : (fs.map Prod.fst).Nodup) (plain : ns.generates n = false)
    (hv : Host.flagIn n h.channels = some v) :
    ((fs.foldl (applyFlag ns) h).overridesOf ns.root).get? n
      = ((h.overridesOf ns.root).get? n).or (overwritten? (fs.lookup n) v) := by
  induction fs generalizing h v with
  | nil => simp [overwritten?]
  | cons f fs ih =>
    obtain ⟨hf, nodup⟩ := List.nodup_cons.mp nodup
    have hflag : Host.flagIn n (applyFlag ns h f).channels
        = some (if n = f.1 then f.2 else v) := by
      rw [channels_applyFlag, Host.flagIn_setSyncedIn, hv]
      split <;> rfl
    rw [List.foldl_cons, ih nodup hflag, get?_overridesOf_applyFlag plain hv, List.lookup_cons]
    by_cases hn : n = f.1
    · have hlater : fs.lookup n = none := by
        rw [List.lookup_eq_none_iff]
        intro e he
        have hne : n ≠ e.1 := fun heq => hf (hn ▸ heq ▸ List.mem_map_of_mem he)
        simp [hne]
      rw [hlater, overwritten?_none, Option.or_none]
      simp [hn]
    · rw [if_neg hn, if_neg hn, overwritten?_none, Option.or_none]
      simp [beq_false_of_ne hn]

/-- Records under other roots stay. -/
theorem overridesOf_foldl_of_ne {h : Host α} {fs : List (String × Bool)} {root : String}
    (hne : root ≠ ns.root) : (fs.foldl (applyFlag ns) h).overridesOf root = h.overridesOf root := by
  have herase : (fs.foldl (applyFlag ns) h).overrides.erase ns.root = h.overrides.erase ns.root :=
    erase_overrides_foldl h fs
  have hget := congrArg (fun t => t.get? root) herase
  simp only [Table.get?_erase, if_neg hne] at hget
  rw [Host.overridesOf, hget, Host.overridesOf]

end Registry

namespace Compile

variable {h h' : Host α} {ps : List (Parameter α)} {o : CompileOptions} {r : CompileReport}

theorem root_ne_of_compile (hc : compile h ps o = .ok (h', r)) : o.names.root ≠ "" := by
  obtain ⟨b, -, hv, -⟩ := compile_ok_iff.mp hc
  exact root_ne_of_validate hv

/-- The flag of a channel that the list overwrites is recorded under the root. -/
theorem get?_overridesOf_compile (hc : compile h ps o = .ok (h', r)) {n : String} {v : Bool}
    (plain : o.names.generates n = false) (hv : Host.flagIn n h.channels = some v) :
    (h'.overridesOf o.names.root).get? n
      = ((h.overridesOf o.names.root).get? n).or (overwritten? (wanted? ps n) v) := by
  obtain ⟨b, cs, hval, -, rfl, -⟩ := compile_ok_iff.mp hc
  have hroot := root_ne_of_validate hval
  have admits := admits_of_validate hval
  have hn : n ∈ h.channelNames := by
    rw [Host.channelNames, ← Host.isSome_flagIn_iff, hv]
    rfl
  rw [← get?_flags_plain hroot admits hn plain, outcome_fst hroot admits]
  exact Registry.get?_overridesOf_foldl (Table.nodup_keys _) plain hv

theorem overridesOf_compile_of_ne (hc : compile h ps o = .ok (h', r)) {root : String}
    (hne : root ≠ o.names.root) : h'.overridesOf root = h.overridesOf root := by
  obtain ⟨b, cs, hval, -, rfl, -⟩ := compile_ok_iff.mp hc
  rw [outcome_fst (root_ne_of_validate hval) (admits_of_validate hval)]
  exact Registry.overridesOf_foldl_of_ne hne

end Compile

/-! ### Removals -/

namespace Removal

/-- The channel that a reference is turned back to. -/
def turned (ns : Namespace) : String → String := Host.replaced (rawName? ns)

/-- The layers that a removal leaves. -/
def remaining (ns : Namespace) (ls : List (Layer α)) : List (Layer α) :=
  ((ls.filter fun l => !ns.tags l.name).map (Layer.prune fun n => ns.tags n.name)).map
    (Layer.mapChannels (turned ns))

omit [Scalar α] in
theorem remaining_append (ns : Namespace) (ls ks : List (Layer α)) :
    remaining ns (ls ++ ks) = remaining ns ls ++ remaining ns ks := by
  rw [remaining, List.filter_append, List.map_append, List.map_append]
  rfl

/-- The host after a removal, part by part. -/
theorem removeAll_fst (g : Host α) {ns : Namespace} (hroot : ns.root ≠ "") :
    (removeAll g ns.root).1 =
      { id := g.id
        channels := Host.setAll (g.overridesOf ns.root).entries
          (g.channels.filter fun c => !ns.generates c.name)
        layers := remaining ns g.layers
        clips := g.clips.filter fun c =>
          !(!(Host.referencedClips { g with layers := remaining ns g.layers }).contains c.name
            && ClipName.isGenerated c.name g.id)
        overrides := g.overrides.erase ns.root } := by
  have hempty : ns.root.isEmpty = false := by simpa using hroot
  rw [removeAll, hempty, if_neg Bool.false_ne_true]
  change (removeOrphans (restoreSync (revertReferences (removeArtifacts g ns).1 ns).1 ns).1).1 = _
  rw [restoreSync, restoreFlags_fst]
  rfl

theorem overridesOf_removeAll_of_ne (g : Host α) {ns : Namespace} (hroot : ns.root ≠ "")
    {root : String} (hne : root ≠ ns.root) :
    (removeAll g ns.root).1.overridesOf root = g.overridesOf root := by
  rw [removeAll_fst g hroot, Host.overridesOf, Table.get?_erase, if_neg hne]
  rfl

end Removal

/-! ### Overlays -/

omit [Scalar α] in
/-- Flags that are set over others, on the channels in front. -/
theorem Host.setAll_flagged_append {cs added : List (Channel α)}
    {flags given : String → Option Bool} {t : Table Bool}
    (nodup : ((cs.map (Channel.flagged flags) ++ added).map Channel.name).Nodup)
    (hgiven : ∀ c ∈ cs, t.get? c.name = given c.name) :
    setAll t.entries (cs.map (Channel.flagged flags) ++ added)
      = cs.map (Channel.flagged fun n => (given n).or (flags n)) ++ setAll t.entries added := by
  rw [List.map_append] at nodup
  obtain ⟨hcs, -, hapart⟩ := List.nodup_append.mp nodup
  rw [setAll_append fun n hn hmem => hapart n hn n hmem rfl, setAll_eq_map _ hcs, List.map_map]
  congr 1
  apply List.map_congr_left
  intro c hc
  rw [Function.comp_apply, Channel.flagged_flagged]
  simp only [Channel.flagged, hgiven c hc]

/-- Nothing in the host, but for its clips, looks as if it were generated under the root. -/
structure Host.Bare (ns : Namespace) (h : Host α) : Prop where
  layers : ∀ l ∈ h.layers, ns.tags l.name = false
  nodes : ∀ m ∈ h.motions, ∀ n ∈ m.walk, ns.tags n.name = false
  channels : ∀ c ∈ h.channels, ns.generates c.name = false
  references : ∀ r ∈ h.references, ∀ start ∈ ns.starts, Text.startsWith r.channel start = false
  overrides : h.overrides.get? ns.root = none

/-- What the second host has over the first one: other names at its references, other flags, and
behind its own layers those of some roots. -/
structure Overlay (roots : List Namespace) (h : Host α) (names : String → String)
    (flags : String → Option Bool) (g : Host α) : Prop where
  layers : ∃ rest, g.layers = h.layers.map (Layer.mapChannels names) ++ rest ∧
    ∀ l ∈ rest, ∃ ns ∈ roots, ns.tags l.name = true
  channels : ∃ added, g.channels = h.channels.map (Channel.flagged flags) ++ added
  nodup : g.channelNames.Nodup

namespace Overlay

variable {roots : List Namespace} {h g : Host α} {names : String → String}
  {flags : String → Option Bool}

theorem refl (nodup : h.channelNames.Nodup) :
    Overlay [] h (fun n => n) (fun _ => none) h where
  layers := by
    have hid : Layer.mapChannels (α := α) (fun n => n) = id := funext Layer.mapChannels_id
    exact ⟨[], by rw [hid, List.map_id, List.append_nil], nofun⟩
  channels := ⟨[], by rw [List.append_nil]; exact (List.map_id' _).symm⟩
  nodup := nodup

theorem flagIn (overlay : Overlay roots h names flags g) {c : Channel α} (hc : c ∈ h.channels) :
    Host.flagIn c.name g.channels = some ((flags c.name).getD c.synced) := by
  obtain ⟨added, hchannels⟩ := overlay.channels
  apply Host.flagIn_of_mem overlay.nodup (c := c.flagged flags)
  rw [hchannels]
  exact List.mem_append_left _ (List.mem_map_of_mem hc)

/-- Without layers of any root, the layers are the old ones if the names at references are. -/
theorem layers_eq (overlay : Overlay roots h names flags g) (hroots : roots = [])
    (hnames : ∀ x ∈ h.references, names x.channel = x.channel) : g.layers = h.layers := by
  obtain ⟨rest, hlayers, hrest⟩ := overlay.layers
  have hnone : rest = [] := by
    rw [List.eq_nil_iff_forall_not_mem]
    intro l hl
    obtain ⟨ns, hns, -⟩ := hrest l hl
    rw [hroots] at hns
    cases hns
  rw [hlayers, hnone, List.append_nil]
  refine (List.map_congr_left fun l hl => ?_).trans (List.map_id' _)
  refine (Layer.mapChannels_congr fun x hx => ?_).trans (Layer.mapChannels_id l)
  exact hnames x (List.mem_flatMap.mpr ⟨l, hl, hx⟩)

/-! ### One more compilation -/

section Compiled

variable {o : CompileOptions} {ps : List (Parameter α)} (hroot : o.names.root ≠ "")
  (admits : Compile.Admits o.names ps) (bare : h.Bare o.names)
  (overlay : Overlay roots h names flags g) (cs : List (Clip α))

include hroot admits bare overlay

/-- The layers of the first host are not replaced. -/
theorem layers_compiled : ∃ rest, (Compile.outcome g ps o cs).1.layers
      = h.layers.map (Layer.mapChannels fun n => Compile.smoothed o.names ps (names n)) ++ rest ∧
    ∀ l ∈ rest, ∃ ns ∈ o.names :: roots, ns.tags l.name = true := by
  obtain ⟨rest, hlayers, hrest⟩ := overlay.layers
  have hkept : (h.layers.map (Layer.mapChannels names)).filter
      (fun l => !(l.name == o.names.layer)) = h.layers.map (Layer.mapChannels names) := by
    rw [List.filter_eq_self, List.forall_mem_map]
    intro l hl
    have hne : l.name ≠ o.names.layer := by
      intro heq
      have htag := bare.layers l hl
      rw [heq, Namespace.tags_layer hroot] at htag
      cases htag
    simp [hne]
  refine ⟨(rest.filter fun l => !(l.name == o.names.layer)).map
    (Layer.mapChannels (Compile.smoothed o.names ps)) ++
      [Compile.generated o.names g.id o.hideBits ps], ?_, ?_⟩
  · rw [Compile.outcome_fst hroot admits]
    dsimp only
    rw [hlayers, List.filter_append, hkept, List.map_append, List.map_map, List.append_assoc]
    congr 1
    exact List.map_congr_left fun l _ => Layer.mapChannels_mapChannels _ _ l
  · intro l hl
    rcases List.mem_append.mp hl with hl | hl
    · obtain ⟨l', hl', rfl⟩ := List.mem_map.mp hl
      obtain ⟨ns, hns, htag⟩ := hrest l' (List.mem_of_mem_filter hl')
      exact ⟨ns, List.mem_cons_of_mem _ hns, htag⟩
    · obtain rfl := List.mem_singleton.mp hl
      exact ⟨o.names, List.mem_cons_self .., Namespace.tags_layer hroot⟩

theorem channels_compiled : ∃ added, (Compile.outcome g ps o cs).1.channels
    = h.channels.map (Channel.flagged fun n => (wanted? ps n).or (flags n)) ++ added := by
  have hwanted : ∀ c ∈ h.channels,
      (Compile.registry g ps o).flags.get? c.name = wanted? ps c.name := by
    intro c hc
    apply Compile.get?_flags_plain hroot admits ?_ (bare.channels c hc)
    rw [Host.channelNames, ← Host.isSome_flagIn_iff, overlay.flagIn hc]
    rfl
  obtain ⟨added, hchannels⟩ := overlay.channels
  have hnodup := overlay.nodup
  rw [Host.channelNames, hchannels] at hnodup
  refine ⟨Host.setAll (Compile.registry g ps o).flags.entries added
    ++ (Compile.registry g ps o).created, ?_⟩
  rw [Compile.outcome_fst hroot admits]
  dsimp only
  rw [hchannels, Host.setAll_flagged_append hnodup hwanted, List.append_assoc]

end Compiled

/-- One more compilation, under a root that the first host knows nothing of. -/
theorem compile {o : CompileOptions} (bare : h.Bare o.names)
    (overlay : Overlay roots h names flags g) {ps : List (Parameter α)} {g' : Host α}
    {r : CompileReport} (hc : Compile.compile g ps o = .ok (g', r)) :
    Overlay (o.names :: roots) h (fun n => Compile.smoothed o.names ps (names n))
      (fun n => (wanted? ps n).or (flags n)) g' := by
  obtain ⟨b, cs, hv, -, rfl, -⟩ := Compile.compile_ok_iff.mp hc
  have hroot := Compile.root_ne_of_validate hv
  have admits := Compile.admits_of_validate hv
  exact ⟨overlay.layers_compiled hroot admits bare cs,
    overlay.channels_compiled hroot admits bare cs,
    Compile.nodup_channelNames_outcome hroot admits cs overlay.nodup⟩

/-! ### One more removal -/

section Removed

variable {ns : Namespace} (bare : h.Bare ns)

include bare

/-- The layers of the first host carry no root, and neither do their nodes. -/
theorem remaining_layers (names : String → String) :
    Removal.remaining ns (h.layers.map (Layer.mapChannels names))
      = h.layers.map (Layer.mapChannels fun n => Removal.turned ns (names n)) := by
  have hkept : (h.layers.map (Layer.mapChannels names)).filter (fun l => !ns.tags l.name)
      = h.layers.map (Layer.mapChannels names) := by
    rw [List.filter_eq_self, List.forall_mem_map]
    intro l hl
    simp [bare.layers l hl]
  rw [Removal.remaining, hkept, List.map_map, List.map_map]
  apply List.map_congr_left
  intro l hl
  have hnodes : ∀ s ∈ l.states, ∀ m, s.motion = some m → ∀ n ∈ m.walk, ns.tags n.name = false :=
    fun s hs m hm => bare.nodes m (Host.mem_motions hl hs hm)
  rw [Function.comp_apply, Function.comp_apply, Layer.prune_mapChannels _ hnodes,
    Layer.mapChannels_mapChannels]

variable (overlay : Overlay roots h names flags g)

include overlay

theorem layers_removed : ∃ rest, Removal.remaining ns g.layers
      = h.layers.map (Layer.mapChannels fun n => Removal.turned ns (names n)) ++ rest ∧
    ∀ l ∈ rest, ∃ other ∈ roots.filter fun other => other ≠ ns, other.tags l.name = true := by
  obtain ⟨rest, hlayers, hrest⟩ := overlay.layers
  refine ⟨Removal.remaining ns rest, ?_, ?_⟩
  · rw [hlayers, Removal.remaining_append, remaining_layers bare]
  · intro l hl
    obtain ⟨l₁, hl₁, rfl⟩ := List.mem_map.mp hl
    obtain ⟨l₂, hl₂, rfl⟩ := List.mem_map.mp hl₁
    obtain ⟨hl₂, huntagged⟩ := List.mem_filter.mp hl₂
    -- what this removal has left carries another root
    obtain ⟨other, hother, htag⟩ := hrest l₂ hl₂
    refine ⟨other, List.mem_filter.mpr ⟨hother, decide_eq_true ?_⟩, htag⟩
    rintro rfl
    simp [htag] at huntagged

theorem channels_removed : ∃ added, Host.setAll (g.overridesOf ns.root).entries
      (g.channels.filter fun c => !ns.generates c.name)
    = h.channels.map (Channel.flagged fun n => ((g.overridesOf ns.root).get? n).or (flags n))
      ++ added := by
  obtain ⟨added, hchannels⟩ := overlay.channels
  have hkept : (h.channels.map (Channel.flagged flags)).filter (fun c => !ns.generates c.name)
      = h.channels.map (Channel.flagged flags) := by
    rw [List.filter_eq_self, List.forall_mem_map]
    intro c hc
    simp [bare.channels c hc]
  have hnodup := overlay.nodup
  rw [Host.channelNames, hchannels] at hnodup
  have hfiltered := hnodup.sublist ((List.filter_sublist (p := fun c => !ns.generates c.name)).map
    Channel.name)
  rw [List.filter_append, hkept] at hfiltered
  refine ⟨Host.setAll (g.overridesOf ns.root).entries
    (added.filter fun c => !ns.generates c.name), ?_⟩
  rw [hchannels, List.filter_append, hkept,
    Host.setAll_flagged_append hfiltered fun c _ => rfl]

end Removed

/-- One more removal, under a root that the first host knows nothing of. -/
theorem removeAll {ns : Namespace} (hroot : ns.root ≠ "") (bare : h.Bare ns)
    (overlay : Overlay roots h names flags g) :
    Overlay (roots.filter fun other => other ≠ ns) h
      (fun n => Removal.turned ns (names n))
      (fun n => ((g.overridesOf ns.root).get? n).or (flags n)) (Removal.removeAll g ns.root).1 := by
  rw [Removal.removeAll_fst g hroot]
  refine ⟨overlay.layers_removed bare, overlay.channels_removed bare, ?_⟩
  rw [Host.channelNames, Host.map_name_setAll]
  exact overlay.nodup.sublist (List.filter_sublist.map Channel.name)

end Overlay

end BlendGraph
