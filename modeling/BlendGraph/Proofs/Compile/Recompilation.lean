import BlendGraph.Proofs.Compile.RequestedChannels

/-!
# Compiling again

The second of two equal compilations finds what it requests: channels are there, flags are as they
are to be set, references are redirected, and the layer and the clips are put back as they were.
-/

set_option autoImplicit false

namespace BlendGraph

variable {α : Type} [Scalar α]

namespace Compile

open Synthesis

omit [Scalar α] in
theorem smoothed_eq (ns : Namespace) (ps : List (Parameter α)) (n : String) :
    smoothed ns ps n = if n ∈ (ps.filter Parameter.redirect).map Parameter.name then ns.proxy n
      else n := by
  rw [smoothed, Host.replaced, lookup_renamesOf]
  split <;> rfl

variable {h h' : Host α} {ps : List (Parameter α)} {o : CompileOptions} {r : CompileReport}

theorem proxy_notMem (hroot : o.names.root ≠ "") (admits : Admits o.names ps) (n : String) :
    o.names.proxy n ∉ (ps.filter Parameter.redirect).map Parameter.name := by
  intro hmem
  obtain ⟨p, hp, heq⟩ := List.mem_map.mp hmem
  exact admits.name_ne (List.mem_of_mem_filter hp) (Namespace.tags_channel hroot ..) heq

/-- No reference is left to be redirected. -/
theorem lookup_smoothed (hroot : o.names.root ≠ "") (admits : Admits o.names ps) (n : String) :
    (renamesOf o.names ps).lookup (smoothed o.names ps n) = none := by
  rw [lookup_renamesOf, smoothed_eq]
  by_cases hn : n ∈ (ps.filter Parameter.redirect).map Parameter.name
  · rw [if_pos hn, if_neg (proxy_notMem hroot admits n)]
  · rw [if_neg hn, if_neg hn]

theorem smoothed_smoothed (hroot : o.names.root ≠ "") (admits : Admits o.names ps) (n : String) :
    smoothed o.names ps (smoothed o.names ps n) = smoothed o.names ps n := by
  rw [smoothed, Host.replaced, lookup_smoothed hroot admits]
  rfl

section

variable (hroot : o.names.root ≠ "") (admits : Admits o.names ps) (cs : List (Clip α))

include hroot admits

theorem created_again : (registry (outcome h ps o cs).1 ps o).created = [] := by
  rw [← List.map_eq_nil_iff (f := Channel.name), List.eq_nil_iff_forall_not_mem]
  intro n hn
  obtain ⟨hreq, hmem⟩ := creates_registry.mp (Registry.creates_iff.mpr hn)
  exact hmem (mem_channelNames_outcome hroot admits cs hreq)

/-- What is stale in the second compilation was so in the first one, which cleared the flag. -/
theorem flagIn_outcome_of_mem_stale {n : String}
    (hn : n ∈ stale (outcome h ps o cs).1 ps o) :
    Host.flagIn n (outcome h ps o cs).1.channels = some false := by
  obtain ⟨c, hc, rfl, hsynced, hbit, hnot⟩ := mem_stale.mp hn
  rw [outcome_fst hroot admits] at hc ⊢
  rcases List.mem_append.mp hc with hc | hc
  · have hmem : c.name ∈ h.channelNames := by
      rw [Host.channelNames, ← Host.map_name_setAll]
      exact List.mem_map_of_mem hc
    have hstale : c.name ∈ stale h ps o := by
      by_contra hstale
      have hforced : Request.forcedFlag (firstRequests o.names o.hideBits ps) c.name = none :=
        Option.eq_none_iff_forall_ne_some.mpr fun v hv => hnot (Request.mem_of_forcedFlag hv)
      have hflags : c.name ∉ (registry h ps o).flags.entries.map Prod.fst := by
        intro hflag
        obtain ⟨v, hv⟩ := Table.mem_keys.mp hflag
        rw [get?_flags_registry hmem, if_neg hstale, hforced] at hv
        cases hv
      exact hstale (mem_stale.mpr ⟨c, Host.mem_of_mem_setAll hflags hc, rfl, hsynced, hbit, hnot⟩)
    obtain ⟨w, hw⟩ := Option.isSome_iff_exists.mp (Host.isSome_flagIn_iff.mpr hmem)
    rw [Host.flagIn_append, Host.flagIn_setAll, get?_flags_registry hmem, if_pos hstale, hw]
    rfl
  · obtain ⟨hreq | hselector, -⟩ :=
      creates_registry.mp (Registry.creates_iff.mpr (List.mem_map_of_mem hc))
    · exact absurd hreq hnot
    · rw [hselector, Namespace.carriesBit_selectorChannel] at hbit
      cases hbit

theorem flagIn_outcome_of_forcedFlag {n : String} {v : Bool}
    (hv : Request.forcedFlag (firstRequests o.names o.hideBits ps) n = some v) :
    Host.flagIn n (outcome h ps o cs).1.channels = some v := by
  have hreq := Request.mem_of_forcedFlag hv
  rw [outcome_fst hroot admits, Host.flagIn_append, Host.flagIn_setAll]
  by_cases hn : n ∈ h.channelNames
  · have hstale : n ∉ stale h ps o := by
      intro hmem
      obtain ⟨c, -, -, -, -, hnot⟩ := mem_stale.mp hmem
      exact hnot hreq
    obtain ⟨w, hw⟩ := Option.isSome_iff_exists.mp (Host.isSome_flagIn_iff.mpr hn)
    rw [get?_flags_registry hn, if_neg hstale, hv, hw]
    rfl
  · rw [Host.flagIn_eq_none_iff.mpr hn, flagIn_created_registry hn hv]
    rfl

theorem applyFlags_again : (registry (outcome h ps o cs).1 ps o).flags.entries.foldl
    (Registry.applyFlag o.names) (outcome h ps o cs).1 = (outcome h ps o cs).1 := by
  apply Registry.foldl_applyFlag_eq_self
  rintro ⟨n, v⟩ hf w hw
  have hv := Table.mem_entries.mp hf
  have hn : n ∈ (outcome h ps o cs).1.channelNames := by
    rw [Host.channelNames, ← Host.isSome_flagIn_iff, hw]
    rfl
  rw [get?_flags_registry hn] at hv
  split at hv
  · next hstale =>
    rw [flagIn_outcome_of_mem_stale hroot admits cs hstale] at hw
    cases hv
    exact (Option.some.inj hw).symm
  · rw [flagIn_outcome_of_forcedFlag hroot admits cs hv] at hw
    exact (Option.some.inj hw).symm

/-- The layers that a second compilation keeps are those that the first one kept. -/
theorem filter_layers_outcome :
    ((outcome h ps o cs).1.layers.filter fun l => !(l.name == o.names.layer))
      = (h.layers.filter fun l => !(l.name == o.names.layer)).map
        (Layer.mapChannels (smoothed o.names ps)) := by
  have hkept (ls : List (Layer α)) : (ls.map (Layer.mapChannels (smoothed o.names ps))).filter
      (fun l => !(l.name == o.names.layer)) = (ls.filter fun l => !(l.name == o.names.layer)).map
        (Layer.mapChannels (smoothed o.names ps)) :=
    List.filter_map
  rw [outcome_fst hroot admits, List.filter_append, hkept, List.filter_filter]
  simp [generated]

theorem layers_again : (outcome (outcome h ps o cs).1 ps o cs).1.layers
    = (outcome h ps o cs).1.layers := by
  have hsmoothed : Layer.mapChannels (α := α) (smoothed o.names ps)
      ∘ Layer.mapChannels (smoothed o.names ps) = Layer.mapChannels (smoothed o.names ps) := by
    funext l
    rw [Function.comp_apply, Layer.mapChannels_mapChannels,
      funext (smoothed_smoothed hroot admits)]
  rw [outcome_fst hroot admits]
  dsimp only
  rw [filter_layers_outcome hroot admits, List.map_map, hsmoothed, outcome_fst hroot admits]

theorem outcome_outcome : (outcome (outcome h ps o cs).1 ps o cs).1 = (outcome h ps o cs).1 := by
  have hlayers := layers_again (h := h) hroot admits cs
  have hflags := applyFlags_again (h := h) hroot admits cs
  have hcreated := created_again (h := h) hroot admits cs
  have hclips : stored (outcome h ps o cs).1.clips cs = (outcome h ps o cs).1.clips := by
    rw [outcome_fst hroot admits]
    exact stored_stored _ _
  generalize (outcome h ps o cs).1 = g at hlayers hflags hcreated hclips ⊢
  have hchannels : Host.setAll (registry g ps o).flags.entries g.channels
      ++ (registry g ps o).created = g.channels := by
    rw [hcreated, List.append_nil]
    conv => rhs; rw [← hflags, Registry.foldl_applyFlag_eq]
  rw [outcome_fst hroot admits] at hlayers ⊢
  dsimp only at hlayers ⊢
  rw [hlayers, hchannels, hclips, hflags]

theorem redirected_again : (outcome (outcome h ps o cs).1 ps o cs).2.redirected = 0 := by
  rw [redirected_outcome hroot admits, Host.redirect_eq_self]
  intro r hr
  rw [Host.references, Host.removeLayers] at hr
  dsimp only at hr
  rw [filter_layers_outcome hroot admits, List.flatMap_map] at hr
  obtain ⟨l, -, hl⟩ := List.mem_flatMap.mp hr
  rw [Layer.references_mapChannels] at hl
  obtain ⟨s, -, rfl⟩ := List.mem_map.mp hl
  exact lookup_smoothed hroot admits s.channel

theorem replaced_again : (outcome (outcome h ps o cs).1 ps o cs).2.replaced = true := by
  change decide (0 < List.countP (fun l => l.name == o.names.layer) (outcome h ps o cs).1.layers)
    = true
  rw [outcome_fst hroot admits, decide_eq_true_eq, List.countP_pos_iff]
  exact ⟨_, List.mem_append_right _ (List.mem_singleton_self _), by simp [generated]⟩

end

/-- Compiling a list again into its own result succeeds and changes nothing. -/
theorem compile_again (hc : compile h ps o = .ok (h', r)) : ∃ r', compile h' ps o = .ok (h', r') ∧
    r'.created = [] ∧ r'.redirected = 0 ∧ r'.replaced = true ∧
    r'.budget = r.budget ∧ r'.layer = r.layer ∧ r'.nodes = r.nodes ∧ r'.clips = r.clips := by
  obtain ⟨b, cs, hv, hcs, rfl, rfl⟩ := compile_ok_iff.mp hc
  have hroot := root_ne_of_validate hv
  have admits := admits_of_validate hv
  have hid : (outcome h ps o cs).1.id = h.id := by rw [outcome_fst hroot admits]
  have hagain := outcome_outcome (h := h) hroot admits cs
  refine ⟨report (outcome h ps o cs).1 ps o b cs, ?_, ?_, ?_, ?_, rfl, rfl, ?_, rfl⟩
  · exact compile_ok_iff.mpr ⟨b, cs, hv, by rwa [hid], hagain.symm, rfl⟩
  · rw [report, created_outcome, created_again hroot admits, List.map_nil]
  · exact redirected_again hroot admits cs
  · exact replaced_again hroot admits cs
  · rw [report, report, hid]

theorem compile_again_sample : ∃ h' r r',
    compile Sample.host Sample.parameters Sample.options = .ok (h', r) ∧
    compile h' Sample.parameters Sample.options = .ok (h', r') ∧ r'.created = [] := by
  have hok : (compile Sample.host Sample.parameters Sample.options).isOk = true := by
    decide +kernel
  cases hc : compile Sample.host Sample.parameters Sample.options with
  | error e => rw [hc] at hok; cases hok
  | ok x =>
    obtain ⟨h', r⟩ := x
    obtain ⟨r', hagain, hcreated, -⟩ := compile_again hc
    exact ⟨h', r, r', rfl, hagain, hcreated⟩

end Compile

end BlendGraph
