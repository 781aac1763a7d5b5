import BlendGraph.Proofs.Compile.ChannelInventory
import BlendGraph.Proofs.Removal.SurvivingParameters

/-!
# What a removal gives back

A removal after a compilation sets the flags of the host's channels as they were and takes out the
generated channels. A channel that the compilation has created for a parameter does not carry the
root, so that it stays as if it were the user's. If the parameter is transmitted as it is, the
channel goes on to take its part of the capacity.
-/

set_option autoImplicit false

namespace BlendGraph

variable {α : Type}

theorem tally_eq_mul_countP {β : Type} {f : β → Nat} {p : β → Bool} {k : Nat} {xs : List β}
    (h : ∀ x ∈ xs, f x = if p x then k else 0) : tally f xs = k * xs.countP p := by
  induction xs with
  | nil => rfl
  | cons x xs ih =>
    obtain ⟨hx, hxs⟩ := List.forall_mem_cons.mp h
    rw [tally_cons, hx, ih hxs, List.countP_cons, Nat.mul_add, Nat.add_comm]
    split <;> simp

theorem Host.syncedCost_all [Scalar α] (h : Host α) :
    h.syncedCost (fun _ => false) = tally Channel.syncedCost h.channels := by
  simp [Host.syncedCost]

variable [Scalar α]

/-! ### New channels that are not generated -/

namespace Compile

variable {h h' : Host α} {ps : List (Parameter α)} {o : CompileOptions} {r : CompileReport}

/-- The selector comes last, where it is not taken. -/
theorem created_registry (h : Host α) (ps : List (Parameter α)) (o : CompileOptions) :
    (registry h ps o).created = if (firstRegistry h ps o).contains Namespace.selectorChannel
      then (firstRegistry h ps o).created
      else (firstRegistry h ps o).created ++ [Filter.selectorRequest.channel] := by
  have hcreated : ((firstRegistry h ps o).flagAll (stale h ps o) false).created
      = (firstRegistry h ps o).created := Registry.created_flagAll fun _ => creates_stale
  have hcontains := Registry.contains_flagAll (firstRegistry h ps o) (stale h ps o) false
    Namespace.selectorChannel
  have htake := Registry.created_take
    ((firstRegistry h ps o).flagAll (stale h ps o) false) Filter.selectorRequest
  rw [hcreated] at htake
  rw [registry_eq]
  exact htake.trans (if_congr (by rw [← hcontains]; exact Iff.rfl) rfl rfl)

/-- A new channel that a parameter requests is among those that the parameters create. -/
theorem mem_created_firstRegistry {c : Channel α} (hc : c ∈ (registry h ps o).created)
    (hrequested : c.name ∈ (firstRequests o.names o.hideBits ps).map Request.name)
    (hnew : c.name ∉ h.channelNames) : c ∈ (firstRegistry h ps o).created := by
  rw [created_registry] at hc
  split at hc
  · exact hc
  · next hfree =>
    refine (List.mem_append.mp hc).resolve_right fun hselector => hfree ?_
    obtain rfl := List.mem_singleton.mp hselector
    have hcreates := creates_firstRegistry.mpr ⟨hrequested, hnew⟩
    exact ((sound_firstRegistry h ps o).taken _).mpr (.inr hcreates)

theorem kind_of_plain_request {ns : Namespace} (hroot : ns.root ≠ "") {hidden : Bool}
    {q : Request α} (hq : q ∈ firstRequests ns hidden ps) (plain : ns.generates q.name = false) :
    q.kind = .continuous := by
  rcases List.mem_cons.mp hq with rfl | hq
  · rfl
  obtain ⟨p, -, hq⟩ := List.mem_flatMap.mp hq
  rcases List.mem_append.mp hq with hq | hq
  · simp only [Filter.requestsOf, List.mem_cons, List.not_mem_nil, or_false] at hq
    rcases hq with rfl | rfl | rfl | rfl <;> rfl
  · -- bits and signs are generated
    split at hq
    · rw [Decoder.requestsOf, ← List.map_append] at hq
      obtain ⟨n, hn, rfl⟩ := List.mem_map.mp hq
      have hgenerates := generates_of_mem_channelsOf hroot (List.mem_append.mp hn)
      exact absurd hgenerates (by simpa [Decoder.bitRequest] using plain)
    · cases hq

section

variable (hroot : o.names.root ≠ "") {c : Channel α} (hc : c ∈ (registry h ps o).created)
  (plain : o.names.generates c.name = false)

include hroot hc plain

/-- The new channel of a parameter is continuous. It is transmitted unless the parameter is
quantized. -/
theorem created_of_parameter (admits : Admits o.names ps) {p : Parameter α} (hp : p ∈ ps)
    (hname : p.name = c.name) :
    c.kind = .continuous ∧ c.synced = !p.isQuantized := by
  have hcreates := Registry.creates_iff.mpr (List.mem_map_of_mem (f := Channel.name) hc)
  have hnew : c.name ∉ h.channelNames := (creates_registry.mp hcreates).2
  have hrequested : c.name ∈ (firstRequests o.names o.hideBits ps).map Request.name :=
    hname ▸ name_mem_requests hp
  constructor
  · have hfirst := mem_created_firstRegistry hc hrequested hnew
    rw [firstRegistry_eq] at hfirst
    have hback := Registry.back_enterAll (r := Registry.ofHost h) (by simp [Registry.ofHost,
      Registry.empty]) (List.Subset.refl _) c hfirst
    obtain ⟨q, hq, hqname, hkind⟩ := hback.kind
    exact hkind.symm.trans (kind_of_plain_request hroot hq (hqname ▸ plain))
  · have hforced : Request.forcedFlag (firstRequests o.names o.hideBits ps) c.name
        = some !p.isQuantized := by
      rw [forcedFlag_firstRequests hroot admits.nodup plain, ← hname,
        wanted?_of_mem admits.nodup hp]
    have hflag := flagIn_created_registry hnew hforced
    rw [Host.flagIn_of_mem (sound_registry h ps o).nodup hc] at hflag
    exact Option.some.inj hflag

/-- Any other new channel that is not generated is the selector, which is not transmitted. -/
theorem created_of_selector (hother : c.name ∉ ps.map Parameter.name) : c.synced = false := by
  have hfirst : c ∉ (firstRegistry h ps o).created := by
    intro hfirst
    have hcreates := Registry.creates_iff.mpr (List.mem_map_of_mem (f := Channel.name) hfirst)
    rcases generates_of_mem_requests hroot (creates_firstRegistry.mp hcreates).1 with hgen | hmem
    · rw [plain] at hgen
      cases hgen
    · exact hother hmem
  rw [created_registry] at hc
  split at hc
  · exact absurd hc hfirst
  · obtain rfl := List.mem_singleton.mp ((List.mem_append.mp hc).resolve_left hfirst)
    rfl

end

/-! ### The host after both -/

/-- The new channels that a removal leaves. -/
def leftOver (h : Host α) (ps : List (Parameter α)) (o : CompileOptions) : List (Channel α) :=
  (registry h ps o).created.filter fun c => !o.names.generates c.name

/-- The parameters that are transmitted as they are, and whose channels are new and stay. -/
def unreturned (h back : Host α) (ps : List (Parameter α)) : List (Parameter α) :=
  ps.filter fun p => !p.isQuantized
    && decide (p.name ∉ h.channelNames) && decide (p.name ∈ back.channelNames)

theorem mem_leftOver {c : Channel α} : c ∈ leftOver h ps o ↔
    c ∈ (registry h ps o).created ∧ o.names.generates c.name = false := by
  rw [leftOver, List.mem_filter, Bool.not_eq_true']

theorem nodup_leftOver (h : Host α) (ps : List (Parameter α)) (o : CompileOptions) :
    ((leftOver h ps o).map Channel.name).Nodup :=
  (sound_registry h ps o).nodup.sublist (List.filter_sublist.map Channel.name)

theorem new_of_leftOver {n : String} (hn : n ∈ (leftOver h ps o).map Channel.name) :
    n ∉ h.channelNames :=
  have hcreated := (List.filter_sublist.map Channel.name).subset hn
  (creates_registry.mp (Registry.creates_iff.mpr hcreated)).2

/-- The channels of the host and those that are left over have names of their own. -/
theorem mem_leftOver_names_iff {back : Host α}
    (hback : back.channels = h.channels ++ leftOver h ps o) {n : String} :
    n ∈ (leftOver h ps o).map Channel.name ↔ n ∉ h.channelNames ∧ n ∈ back.channelNames := by
  rw [Host.channelNames, Host.channelNames, hback, List.map_append, List.mem_append]
  constructor
  · exact fun hn => ⟨new_of_leftOver hn, .inr hn⟩
  · exact fun hn => hn.2.resolve_left hn.1

section

variable (hroot : o.names.root ≠ "") (admits : Admits o.names ps)

include hroot admits

theorem cost_of_leftOver : ∀ c ∈ leftOver h ps o,
    c.syncedCost = if c.synced then ChannelKind.continuous.cost else 0 := by
  intro c hc
  obtain ⟨hc, hplain⟩ := mem_leftOver.mp hc
  by_cases hlisted : c.name ∈ ps.map Parameter.name
  · obtain ⟨p, hp, hname⟩ := List.mem_map.mp hlisted
    rw [Channel.syncedCost, (created_of_parameter hroot hc hplain admits hp hname).1]
  · simp [Channel.syncedCost, created_of_selector hroot hc hplain hlisted]

/-- A channel that is left over is transmitted for a parameter that is sent as it is. -/
theorem synced_leftOver_iff {c : Channel α} (hc : c ∈ leftOver h ps o) :
    c.synced = true ↔ ∃ p ∈ ps, p.isQuantized = false ∧ p.name = c.name := by
  obtain ⟨hc, hplain⟩ := mem_leftOver.mp hc
  constructor
  · intro hsynced
    by_cases hlisted : c.name ∈ ps.map Parameter.name
    · obtain ⟨p, hp, hname⟩ := List.mem_map.mp hlisted
      have hflag := (created_of_parameter hroot hc hplain admits hp hname).2
      rw [hsynced] at hflag
      exact ⟨p, hp, by simpa using hflag.symm, hname⟩
    · rw [created_of_selector hroot hc hplain hlisted] at hsynced
      cases hsynced
  · rintro ⟨p, hp, hsent, hname⟩
    rw [(created_of_parameter hroot hc hplain admits hp hname).2, hsent]
    rfl

/-- The transmitted channels that are left over are as many as the parameters they are for. -/
theorem countP_leftOver {back : Host α} (hback : back.channels = h.channels ++ leftOver h ps o) :
    (leftOver h ps o).countP Channel.synced = (unreturned h back ps).length := by
  have hlisted : ∀ p ∈ ps, p ∈ unreturned h back ps
      ↔ p.isQuantized = false ∧ p.name ∈ (leftOver h ps o).map Channel.name := by
    intro p hp
    rw [mem_leftOver_names_iff hback]
    simp [unreturned, hp, and_assoc]
  have hnames : ∀ n, n ∈ ((leftOver h ps o).filter Channel.synced).map Channel.name
      ↔ n ∈ (unreturned h back ps).map Parameter.name := by
    intro n
    simp only [List.mem_map, List.mem_filter]
    constructor
    · rintro ⟨c, ⟨hc, hsynced⟩, rfl⟩
      obtain ⟨p, hp, hsent, hname⟩ := (synced_leftOver_iff hroot admits hc).mp hsynced
      exact ⟨p, (hlisted p hp).mpr ⟨hsent, hname ▸ List.mem_map_of_mem hc⟩, hname⟩
    · rintro ⟨p, hmem, rfl⟩
      have hp : p ∈ ps := List.mem_of_mem_filter hmem
      obtain ⟨hsent, hleft⟩ := (hlisted p hp).mp hmem
      obtain ⟨c, hc, hname⟩ := List.mem_map.mp hleft
      exact ⟨c, ⟨hc, (synced_leftOver_iff hroot admits hc).mpr ⟨p, hp, hsent, hname.symm⟩⟩, hname⟩
  have hsent : (((leftOver h ps o).filter Channel.synced).map Channel.name).Nodup :=
    (nodup_leftOver h ps o).sublist (List.filter_sublist.map Channel.name)
  have hunreturned : ((unreturned h back ps).map Parameter.name).Nodup :=
    admits.nodup.sublist (List.filter_sublist.map Parameter.name)
  have hperm := (List.perm_ext_iff_of_nodup hsent hunreturned).mpr hnames
  rw [List.countP_eq_length_filter, ← List.length_map Channel.name, hperm.length_eq,
    List.length_map]

/-- The new channel of a parameter stays, unless its name has the hidden root in it. -/
theorem name_mem_leftOver {p : Parameter α} (hp : p ∈ ps) (hnew : p.name ∉ h.channelNames)
    (happart : Text.contains p.name (Text.hide o.names.root) = false) :
    p.name ∈ (leftOver h ps o).map Channel.name := by
  have hcreates : (registry h ps o).creates p.name = true :=
    creates_registry.mpr ⟨.inl (name_mem_requests hp), hnew⟩
  obtain ⟨c, hc, hname⟩ := List.mem_map.mp (Registry.creates_iff.mp hcreates)
  have hplain : o.names.generates c.name = false := by
    rw [hname, admits.generates_eq hroot hp, happart]
  exact hname ▸ List.mem_map_of_mem (mem_leftOver.mpr ⟨hc, hplain⟩)

end

/-- The recorded flags are those of the host's channels. -/
theorem setAll_overrides_kept (plain : ∀ c ∈ h.channels, o.names.generates c.name = false)
    (unrecorded : h.overrides.get? o.names.root = none) (flags : List (String × Bool)) :
    Host.setAll ((flags.foldl (Registry.applyFlag o.names) h).overridesOf o.names.root).entries
      (Host.setAll flags h.channels) = h.channels := by
  have hempty : h.overridesOf o.names.root = .empty := by
    rw [Host.overridesOf, unrecorded]
    rfl
  have hrestore := Registry.restore_foldl (List.append_nil h.channels).symm
    (List.forall_mem_map.mpr plain) (fun _ _ => List.not_mem_nil) flags
  rw [hrestore, hempty]
  rfl

/-- Nothing is recorded for a channel that is left over. -/
theorem setAll_overrides_leftOver (unrecorded : h.overrides.get? o.names.root = none)
    (flags : List (String × Bool)) :
    Host.setAll ((flags.foldl (Registry.applyFlag o.names) h).overridesOf o.names.root).entries
      (leftOver h ps o) = leftOver h ps o := by
  rw [Host.setAll_eq_map _ (nodup_leftOver h ps o)]
  refine (List.map_congr_left fun c hc => ?_).trans (List.map_id' _)
  have habsent := Host.flagIn_eq_none_iff.mpr (new_of_leftOver (List.mem_map_of_mem hc))
  have hnone : ((flags.foldl (Registry.applyFlag o.names) h).overridesOf o.names.root).get? c.name
      = (h.overridesOf o.names.root).get? c.name :=
    Registry.get?_overridesOf_foldl_eq flags (.inr habsent)
  rw [Channel.flagged, hnone, Host.overridesOf, unrecorded]
  rfl

/-- The channels of the host are as they were before, and behind them stand new ones. -/
theorem channels_removeAll_compile (plain : ∀ c ∈ h.channels, o.names.generates c.name = false)
    (unrecorded : h.overrides.get? o.names.root = none) (hc : compile h ps o = .ok (h', r)) :
    (Removal.removeAll h' o.names.root).1.channels = h.channels ++ leftOver h ps o := by
  obtain ⟨b, cs, hv, -, rfl, -⟩ := compile_ok_iff.mp hc
  have hroot := root_ne_of_validate hv
  rw [outcome_fst hroot (admits_of_validate hv), Removal.removeAll_fst _ hroot]
  dsimp only [Host.overridesOf]
  generalize hflags : (registry h ps o).flags.entries = flags
  change Host.setAll ((flags.foldl (Registry.applyFlag o.names) h).overridesOf
    o.names.root).entries _ = _
  have hkept : (Host.setAll flags h.channels).filter (fun c => !o.names.generates c.name)
      = Host.setAll flags h.channels := by
    rw [List.filter_eq_self]
    intro c hc
    have hname := List.mem_map_of_mem (f := Channel.name) hc
    rw [Host.map_name_setAll] at hname
    obtain ⟨d, hd, heq⟩ := List.mem_map.mp hname
    simp [← heq, plain d hd]
  have hapart : ∀ n ∈ (Host.setAll flags h.channels).map Channel.name,
      n ∉ (leftOver h ps o).map Channel.name := by
    intro n hn hmem
    rw [Host.map_name_setAll] at hn
    exact new_of_leftOver hmem hn
  rw [List.filter_append, hkept]
  refine (Host.setAll_append hapart).trans ?_
  rw [setAll_overrides_kept plain unrecorded]
  exact congrArg (h.channels ++ ·) (setAll_overrides_leftOver unrecorded flags)

/-- A removal after a compilation gives the host its channels back, and leaves those of the new ones
behind them that are not generated. Apart from the new channels of parameters that are transmitted
as they are, both together change nothing in the cost of the transmitted channels. -/
theorem syncedCost_removeAll_compile (plain : ∀ c ∈ h.channels, o.names.generates c.name = false)
    (unrecorded : h.overrides.get? o.names.root = none) (hc : compile h ps o = .ok (h', r)) :
    ∃ back kept created, (Removal.removeAll h' o.names.root).1 = back ∧
      h'.channels = kept ++ created ∧ kept.map Channel.name = h.channelNames ∧
      back.channels = h.channels ++ created.filter (fun c => !o.names.generates c.name) ∧
      (∀ p ∈ ps, Text.contains p.name (Text.hide o.names.root) = false →
        p.name ∈ back.channelNames) ∧
      back.syncedCost (fun _ => false) = h.syncedCost (fun _ => false)
        + ChannelKind.continuous.cost * (unreturned h back ps).length ∧
      (back.syncedCost (fun _ => false) = h.syncedCost (fun _ => false) ↔
        ∀ p ∈ ps, p.isQuantized = false → p.name ∈ back.channelNames →
          p.name ∈ h.channelNames) := by
  have hchannels := channels_removeAll_compile plain unrecorded hc
  obtain ⟨b, cs, hv, -, rfl, -⟩ := compile_ok_iff.mp hc
  have hroot := root_ne_of_validate hv
  have admits := admits_of_validate hv
  generalize hback : (Removal.removeAll (outcome h ps o cs).1 o.names.root).1 = back at hchannels ⊢
  have hcost : back.syncedCost (fun _ => false) = h.syncedCost (fun _ => false)
      + ChannelKind.continuous.cost * (unreturned h back ps).length := by
    rw [Host.syncedCost_all, Host.syncedCost_all, hchannels, tally_append,
      tally_eq_mul_countP (cost_of_leftOver hroot admits), countP_leftOver hroot admits hchannels]
  have hcompiled : (outcome h ps o cs).1.channels
      = Host.setAll (registry h ps o).flags.entries h.channels ++ (registry h ps o).created := by
    rw [outcome_fst hroot admits]
  refine ⟨back, _, _, rfl, hcompiled, Host.map_name_setAll .., hchannels,
    fun p hp happart => ?_, hcost, ?_⟩
  · rw [Host.channelNames, hchannels, List.map_append, List.mem_append]
    by_cases hold : p.name ∈ h.channelNames
    · exact .inl hold
    · exact .inr (name_mem_leftOver hroot admits hp hold happart)
  · have hnone : (unreturned h back ps).length = 0 ↔ ∀ p ∈ ps, p.isQuantized = false →
        p.name ∈ back.channelNames → p.name ∈ h.channelNames := by
      rw [List.length_eq_zero_iff, unreturned, List.filter_eq_nil_iff]
      apply forall₂_congr
      intro p _
      simp only [Bool.and_eq_true, Bool.not_eq_true', decide_eq_true_eq]
      tauto
    have hcontinuous : ChannelKind.continuous.cost = 8 := rfl
    rw [hcost, ← hnone, hcontinuous]
    omega

theorem syncedCost_removeAll_compile_sample : ∃ h' r,
    compile Sample.host Sample.parameters Sample.options = .ok (h', r) ∧
    (Removal.removeAll h' "OSCm").1.syncedCost (fun _ => false)
      = Sample.host.syncedCost (fun _ => false) + 8 := by
  obtain ⟨⟨h', r⟩, hc⟩ := exists_of_isOk
    (show (compile Sample.host Sample.parameters Sample.options).isOk = true by decide +kernel)
  have hplain : ∀ c ∈ Sample.host.channels, Sample.options.names.generates c.name = false := by
    decide +kernel
  obtain ⟨back, kept, created, rfl, -, -, -, hstays, hcost, -⟩ :=
    syncedCost_removeAll_compile hplain rfl hc
  refine ⟨h', r, hc, hcost.trans ?_⟩
  have hmem : Parameter.ofName "Mouth/Lips" ∈ Sample.parameters :=
    List.mem_cons_of_mem _ (List.mem_singleton_self _)
  have hlips : "Mouth/Lips" ∈ (Removal.removeAll h' "OSCm").1.channelNames :=
    hstays _ hmem (by decide +kernel)
  have hnew : "Mouth/Lips" ∉ Sample.host.channelNames := by decide +kernel
  have hone : unreturned Sample.host (Removal.removeAll h' "OSCm").1 Sample.parameters
      = [.ofName "Mouth/Lips"] := by
    simp [unreturned, Sample.parameters, Parameter.ofName, Parameter.withBits,
      Parameter.isQuantized, hlips, hnew]
  change _ + _ * (unreturned _ (Removal.removeAll h' "OSCm").1 _).length = _
  rw [hone]
  rfl

/-- The channel of the parameter is new, so that it stays and takes its part of the capacity. -/
theorem syncedCost_not_returned : ∃ (h h' : Host Float32) (r : CompileReport),
    h.channelNames.Nodup ∧ h.layers = [] ∧ h.channels = [] ∧ h.overrides.get? "OSCm" = none ∧
    compile h [.ofName "Jaw"] Sample.options = .ok (h', r) ∧
    h.syncedCost (fun _ => false) = 0 ∧
    (Removal.removeAll h' "OSCm").1.syncedCost (fun _ => false) = 8 := by
  obtain ⟨⟨h', r⟩, hc⟩ := exists_of_isOk
    (show (compile (Host.empty "demo") [Parameter.ofName (α := Float32) "Jaw"]
      Sample.options).isOk = true by decide +kernel)
  have hnone : ∀ c ∈ (Host.empty "demo" : Host Float32).channels,
      Sample.options.names.generates c.name = false := fun c hc => absurd hc List.not_mem_nil
  have hchannels := channels_removeAll_compile (o := Sample.options) hnone rfl hc
  refine ⟨.empty "demo", h', r, .nil, rfl, rfl, rfl, hc, rfl, ?_⟩
  rw [Host.syncedCost_all]
  refine (congrArg (tally Channel.syncedCost) hchannels).trans ?_
  decide +kernel

end Compile

end BlendGraph
