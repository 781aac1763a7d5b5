import BlendGraph.Proofs.Compile.ClosedLayers
import BlendGraph.Proofs.Compile.Substitution
import Mathlib.Data.List.Dedup

/-!
# Reports

The report of a compilation is put together from what its passes count on the way. It tells what a
comparison of the host before with the host after shows: the channels that are new, those that are
used again, the bits that are not transmitted any more, the references that name another channel,
and how large the generated layer is.
-/

set_option autoImplicit false

namespace BlendGraph

variable {α : Type} [Scalar α]

/-! ### Requested names -/

/-- The channels that a compilation asks for, some of them more than once. -/
def requestedNames (ns : Namespace) (hidden : Bool) (ps : List (Parameter α)) : List String :=
  ns.blendSet :: Namespace.selectorChannel :: ps.flatMap fun p =>
    [p.name, ns.proxy p.name, ns.coefficient .owner p.name, ns.coefficient .remote p.name]
      ++ if p.isQuantized then (Decoder.channelsOf ns p hidden).bits
        ++ (Decoder.channelsOf ns p hidden).sign.toList else []

namespace Compile

variable {ns : Namespace} {hidden : Bool} {ps : List (Parameter α)} {n : String}

theorem mem_requestedNames : n ∈ requestedNames ns hidden ps
    ↔ n ∈ (firstRequests ns hidden ps).map Request.name ∨ n = Namespace.selectorChannel := by
  rw [mem_names_firstRequests, requestedNames, List.mem_cons, List.mem_cons, List.mem_flatMap]
  simp only [← names_requestsOf]
  exact (or_congr_right or_comm).trans or_assoc.symm

theorem mem_requestedNames_of_carriesBit (hn : ns.carriesBit n = true) :
    n ∈ requestedNames ns hidden ps ↔ n ∈ (firstRequests ns hidden ps).map Request.name := by
  have hselector : n ≠ Namespace.selectorChannel := by
    rintro rfl
    rw [Namespace.carriesBit_selectorChannel] at hn
    cases hn
  rw [mem_requestedNames, or_iff_left hselector]

end Compile

/-! ### Clips by their names -/

namespace HeldClip

theorem map_name_recordAll? {hs : List (HeldClip α)} {cs : List (Clip α)}
    (hcs : recordAll? hs = .ok cs) : cs.map Clip.name = hs.map HeldClip.name := by
  have hall := forall₂_records hcs
  clear hcs
  induction hall with
  | nil => rfl
  | cons hrec _ ih => rw [List.map_cons, List.map_cons, hrec.1, ih]

end HeldClip

namespace Synthesis

/-- What is found under a name is a clip of that name. -/
theorem mem_keys_stored {cs : List (Clip α)} {k : String} :
    k ∈ (stored .empty cs).keys ↔ k ∈ cs.map Clip.name := by
  rw [Table.mem_keys]
  simp only [get?_stored, Table.get?_empty, Option.or_none]
  rw [← Option.isSome_iff_exists, List.find?_isSome]
  simp

theorem size_stored {cs : List (Clip α)} {names : List String}
    (hnames : ∀ k, k ∈ names ↔ k ∈ cs.map Clip.name) :
    (stored .empty cs).size = names.dedup.length := by
  have hperm : (stored .empty cs).keys.Perm names.dedup := by
    rw [List.perm_ext_iff_of_nodup (Table.nodup_keys _) (List.nodup_dedup _)]
    intro k
    rw [mem_keys_stored, List.mem_dedup, hnames]
  rw [← hperm.length_eq, Table.keys, List.length_map, Table.size]

end Synthesis

namespace Compile

variable {ns : Namespace} {host : String} {hidden : Bool} {ps : List (Parameter α)}

/-- Every clip that is put down is played by a leaf. -/
theorem mem_leaves_iff {d : HeldClip α} :
    d ∈ leaves ns host hidden ps ↔ d ∈ heldClips ns host hidden ps := by
  constructor
  · exact mem_heldClips_of_mem_leaves
  · rw [heldClips_eq, leaves, List.mem_append, List.mem_append]
    apply Or.imp_right
    intro h
    obtain ⟨o, ho, h⟩ := List.mem_flatMap.mp h
    obtain ⟨p, hp, h⟩ := List.mem_flatMap.mp h
    refine List.mem_flatMap.mpr ⟨o, ho, List.mem_flatMap.mpr ⟨p, hp, ?_⟩⟩
    exact List.mem_append_left _ h

variable [LawfulScalar α] {cs : List (Clip α)}

/-- The clips that a compilation puts down are those that the leaves of its layer play. -/
theorem mem_clips_motion (hcs : HeldClip.recordAll? (heldClips ns host hidden ps) = .ok cs)
    {clip : String} : clip ∈ (motion ns host hidden ps).clips ↔ clip ∈ cs.map Clip.name := by
  rw [clips_motion, HeldClip.map_name_recordAll? hcs]
  simp only [List.mem_map, mem_leaves_iff]

end Compile

/-! ### True reports -/

/-- A report agrees with the host before a compilation, the host after it and the channels that the
compilation asks for. -/
structure CompileReport.Truthful (ns : Namespace) (requested : List String) (h h' : Host α)
    (r : CompileReport) : Prop where
  layer : r.layer = ns.layer
  settled : ∀ n, n ∈ requested ↔ n ∈ r.created ∨ n ∈ r.reused
  created : r.created = h'.channelNames.filter (· ∉ h.channelNames)
  reused : r.reused.Pairwise (· < ·) ∧ ∀ n, n ∈ r.reused ↔ n ∈ requested ∧ n ∈ h.channelNames
  unsynced : r.unsynced = (h.channels.filter fun c =>
    c.synced && ns.carriesBit c.name && !requested.contains c.name).map Channel.name
  silenced : ∀ c ∈ h'.channels, c.name ∈ r.unsynced → c.synced = false
  /-- The references outside the generated layer stand in the same places. -/
  places : (h'.outside ns).length = (h.outside ns).length
  redirected : r.redirected = ((h.outside ns).zip (h'.outside ns)).countP fun x => x.1 ≠ x.2
  replaced : r.replaced = true ↔ ∃ l ∈ h.layers, l.name = ns.layer
  /-- The last layer is the generated one. It has as many nodes as is told, and its leaves play as
  many clips. -/
  generated : ∃ motion,
    h'.layers.getLast? = some ⟨ns.layer, [.playing Namespace.stateName motion]⟩ ∧
    r.nodes = motion.walk.length ∧ r.clips = motion.clips.dedup.length ∧
    ∀ clip ∈ motion.clips, ∃ c, h'.resolve? clip = some c ∧ c.name = clip

namespace Compile

variable {h h' : Host α} {ps : List (Parameter α)} {o : CompileOptions} {r : CompileReport}
  {cs : List (Clip α)}

/-- The new channels are those that the host has afterwards and not before. -/
theorem created_eq_filter (hroot : o.names.root ≠ "") (admits : Admits o.names ps) :
    (outcome h ps o cs).2.created
      = (outcome h ps o cs).1.channelNames.filter (· ∉ h.channelNames) := by
  have hold : h.channelNames.filter (· ∉ h.channelNames) = [] := by
    rw [List.filter_eq_nil_iff]
    simp
  have hnew : ((registry h ps o).created.map Channel.name).filter (· ∉ h.channelNames)
      = (registry h ps o).created.map Channel.name := by
    rw [List.filter_eq_self]
    intro n hn
    exact decide_eq_true (creates_registry.mp (Registry.creates_iff.mpr hn)).2
  rw [created_outcome, channelNames_outcome hroot admits, List.filter_append, hold, hnew,
    List.nil_append]

theorem mem_reused_outcome {n : String} : n ∈ (outcome h ps o cs).2.reused
    ↔ n ∈ requestedNames o.names o.hideBits ps ∧ n ∈ h.channelNames := by
  change n ∈ (registry h ps o).reused.keys ↔ _
  constructor
  · intro hn
    rw [mem_requestedNames, ← isRequested_registry (h := h)]
    exact ⟨Registry.isRequested_iff.mpr (.inl hn), (sound_registry h ps o).reused n hn⟩
  · rintro ⟨hrequested, hmem⟩
    rw [mem_requestedNames, ← isRequested_registry (h := h), Registry.isRequested_iff]
      at hrequested
    exact hrequested.resolve_right fun hnew => (creates_registry.mp hnew).2 hmem

theorem stale_eq_filter (h : Host α) (ps : List (Parameter α)) (o : CompileOptions) :
    stale h ps o = (h.channels.filter fun c => c.synced && o.names.carriesBit c.name
      && !(requestedNames o.names o.hideBits ps).contains c.name).map Channel.name := by
  rw [stale, staleBits]
  congr 1
  apply List.filter_congr
  intro c _
  cases hbit : o.names.carriesBit c.name with
  | false => simp
  | true =>
    have hsame : (firstRegistry h ps o).isRequested c.name
        = (requestedNames o.names o.hideBits ps).contains c.name := by
      rw [Bool.eq_iff_iff, isRequested_firstRegistry, List.contains_iff_mem,
        mem_requestedNames_of_carriesBit hbit]
    rw [hsame]

/-- A stale bit is not transmitted afterwards. -/
theorem synced_of_mem_stale (hroot : o.names.root ≠ "") (admits : Admits o.names ps)
    (nodup : h.channelNames.Nodup) {c : Channel α} (hc : c ∈ (outcome h ps o cs).1.channels)
    (hstale : c.name ∈ stale h ps o) : c.synced = false := by
  have hold : c.name ∈ h.channelNames := by
    obtain ⟨d, hd, hname, -⟩ := mem_stale.mp hstale
    exact hname ▸ List.mem_map_of_mem hd
  rw [channels_outcome hroot admits cs nodup, List.mem_append] at hc
  rcases hc with hc | hc
  · obtain ⟨d, -, rfl⟩ := List.mem_map.mp hc
    have hflag : (registry h ps o).flags.get? d.name = some false :=
      (get?_flags_registry hold).trans (if_pos hstale)
    simp [Channel.flagged, hflag]
  · have hnew := creates_registry.mp (Registry.creates_iff.mpr (List.mem_map_of_mem hc))
    exact absurd hold hnew.2

theorem replaced_outcome (cs : List (Clip α)) : (outcome h ps o cs).2.replaced = true
    ↔ ∃ l ∈ h.layers, l.name = o.names.layer := by
  change decide (0 < h.layers.countP fun l => l.name == o.names.layer) = true ↔ _
  rw [decide_eq_true_eq, List.countP_pos_iff]
  simp only [beq_iff_eq]

/-- A compilation counts the references that are other ones afterwards. -/
theorem redirected_eq_countP_ne (hc : compile h ps o = .ok (h', r)) :
    r.redirected = ((h.outside o.names).zip (h'.outside o.names)).countP fun x => x.1 ≠ x.2 := by
  rw [redirected_eq_countP hc, outside_compile hc, ← List.map_prod_left_eq_zip, List.countP_map,
    List.countP_map]
  apply List.countP_congr
  intro x _
  cases x
  simp

variable [LawfulScalar α]

/-- A leaf of the generated layer finds a clip of the name that it uses. -/
theorem exists_resolve?_of_mem_clips (hroot : o.names.root ≠ "") (admits : Admits o.names ps)
    (hcs : HeldClip.recordAll? (heldClips o.names h.id o.hideBits ps) = .ok cs) {clip : String}
    (hclip : clip ∈ (motion o.names h.id o.hideBits ps).clips) :
    ∃ c, (outcome h ps o cs).1.resolve? clip = some c ∧ c.name = clip := by
  rw [clips_motion] at hclip
  obtain ⟨d, hd, rfl⟩ := List.mem_map.mp hclip
  obtain ⟨e, -, hname, c, hc, hrec⟩ :=
    exists_resolve?_outcome hroot admits hcs (mem_heldClips_of_mem_leaves hd)
  exact ⟨c, hc, hrec.1.trans hname⟩

/-- The report of a compilation is true. -/
theorem report_truthful (nodup : h.channelNames.Nodup) (hc : compile h ps o = .ok (h', r)) :
    r.Truthful o.names (requestedNames o.names o.hideBits ps) h h' := by
  have hplaces := congrArg List.length (outside_compile hc)
  have hredirected := redirected_eq_countP_ne hc
  obtain ⟨b, cs, hv, hcs, rfl, rfl⟩ := compile_ok_iff.mp hc
  have hroot := root_ne_of_validate hv
  have admits := admits_of_validate hv
  have hlast : (outcome h ps o cs).1.layers.getLast?
      = some (generated o.names h.id o.hideBits ps) := by
    rw [outcome_fst hroot admits]
    exact List.getLast?_concat
  exact {
    layer := rfl
    settled := fun n => mem_requestedNames.trans mem_requested_iff.symm
    created := created_eq_filter hroot admits
    reused := ⟨List.pairwise_map.mpr (registry h ps o).reused.ascending,
      fun n => mem_reused_outcome⟩
    unsynced := stale_eq_filter h ps o
    silenced := fun c => synced_of_mem_stale hroot admits nodup
    places := by rw [hplaces, List.length_map]
    redirected := hredirected
    replaced := replaced_outcome cs
    generated := ⟨motion o.names h.id o.hideBits ps, hlast, Node.nodeCount_eq_length_walk _,
      Synthesis.size_stored fun _ => mem_clips_motion hcs,
      fun _ => exists_resolve?_of_mem_clips hroot admits hcs⟩ }

end Compile

/-- A host with the layer and a bit of an earlier compilation. -/
def Sample.leftover : Host Float32 where
  id := "demo"
  channels := [⟨"Jaw", .continuous, 0, true⟩, ⟨"OSCm/Binary/Brow1", .discrete, 0, true⟩,
    ⟨"OSCm/Proxy/Jaw", .continuous, 0, false⟩]
  layers := [⟨"Face", [.playing "Open" (.sum "Mix" [("Jaw", .leaf "Open")])]⟩,
    ⟨"_OSCm_Gen", [.playing "OSCmooth" (.leaf "Old")]⟩]
  clips := .empty
  overrides := .empty

theorem Compile.report_truthful_sample : ∃ h' r,
    compile Sample.leftover Sample.parameters Sample.options = .ok (h', r) ∧
    r.Truthful Sample.options.names
      (requestedNames Sample.options.names Sample.options.hideBits Sample.parameters)
      Sample.leftover h' ∧
    r.unsynced = ["OSCm/Binary/Brow1"] ∧ r.replaced = true ∧ "OSCm/Proxy/Jaw" ∈ r.reused := by
  have hok : (compile Sample.leftover Sample.parameters Sample.options).isOk = true := by
    decide +kernel
  obtain ⟨⟨h', r⟩, hc⟩ := exists_of_isOk hok
  have truthful := report_truthful (by decide +kernel) hc
  refine ⟨h', r, hc, truthful, ?_, truthful.replaced.mpr ?_, (truthful.reused.2 _).mpr ?_⟩
  · rw [truthful.unsynced]
    decide +kernel
  · exact ⟨_, List.mem_cons_of_mem _ (List.mem_cons_self ..), by decide +kernel⟩
  · decide +kernel

end BlendGraph
