import BlendGraph.Proofs.Compile.Outcome

/-!
# The registry of a compilation

What a compilation enters into its registry, which of it is new to the host, and which flags it
sets.
-/

set_option autoImplicit false

namespace BlendGraph

variable {α : Type} [Scalar α]

namespace Compile

open Synthesis

variable {h h' : Host α} {ps : List (Parameter α)} {o : CompileOptions} {r : CompileReport}

/-- The requests of a compilation before stale bits are looked for. -/
def firstRequests (ns : Namespace) (hidden : Bool) (ps : List (Parameter α)) :
    List (Request α) :=
  blendSetRequest ns :: ps.flatMap (requestsOf ns hidden)

theorem mem_names_firstRequests {ns : Namespace} {hidden : Bool} {ps : List (Parameter α)}
    {n : String} : n ∈ (firstRequests ns hidden ps).map Request.name ↔
      n = ns.blendSet ∨ ∃ p ∈ ps, n ∈ (requestsOf ns hidden p).map Request.name := by
  rw [firstRequests, List.map_cons, List.mem_cons, List.map_flatMap, List.mem_flatMap]
  rfl

/-- The channels of a parameter's filters are requested, and the bits and the sign if it is
quantized. -/
theorem mem_names_requestsOf {ns : Namespace} {hidden : Bool} {p : Parameter α} {n : String} :
    n ∈ (requestsOf ns hidden p).map Request.name
      ↔ n ∈ [p.name, ns.proxy p.name, ns.coefficient .owner p.name, ns.coefficient .remote p.name]
        ∨ p.isQuantized = true ∧ n ∈ (Decoder.channelsOf ns p hidden).bits
          ++ (Decoder.channelsOf ns p hidden).sign.toList := by
  rw [names_requestsOf, List.mem_append]
  cases p.isQuantized <;> simp

theorem firstRegistry_eq (h : Host α) (ps : List (Parameter α)) (o : CompileOptions) :
    firstRegistry h ps o
      = (Registry.ofHost h).enterAll (firstRequests o.names o.hideBits ps) := by
  rw [firstRegistry, requests_firstEdits, firstRequests]

theorem registry_eq (h : Host α) (ps : List (Parameter α)) (o : CompileOptions) :
    registry h ps o = ((firstRegistry h ps o).flagAll (stale h ps o) false).enter
      Filter.selectorRequest := by
  rw [registry, requests_lastEdits]
  rfl

theorem sound_firstRegistry (h : Host α) (ps : List (Parameter α)) (o : CompileOptions) :
    (firstRegistry h ps o).Sound h.channelNames := by
  rw [firstRegistry]
  exact (Registry.sound_ofHost h).enterAll _

theorem sound_registry (h : Host α) (ps : List (Parameter α)) (o : CompileOptions) :
    (registry h ps o).Sound h.channelNames := by
  rw [registry]
  exact ((sound_firstRegistry h ps o).flagAll _ _).enterAll _

theorem isRequested_firstRegistry {n : String} : (firstRegistry h ps o).isRequested n = true
    ↔ n ∈ (firstRequests o.names o.hideBits ps).map Request.name := by
  rw [firstRegistry_eq, Registry.isRequested_enterAll]
  exact or_iff_right (by simp [Registry.isRequested, Registry.ofHost, Registry.empty,
    Registry.creates, Table.contains])

theorem mem_stale {n : String} : n ∈ stale h ps o ↔ ∃ c ∈ h.channels, c.name = n ∧
    c.synced = true ∧ o.names.carriesBit n = true ∧
    n ∉ (firstRequests o.names o.hideBits ps).map Request.name := by
  simp only [stale, staleBits, List.mem_map, List.mem_filter, Bool.and_eq_true, Bool.not_eq_true',
    ← Bool.not_eq_true, isRequested_firstRegistry]
  constructor
  · rintro ⟨c, ⟨hc, ⟨hs, hb⟩, hr⟩, rfl⟩
    exact ⟨c, hc, rfl, hs, hb, hr⟩
  · rintro ⟨c, hc, rfl, hs, hb, hr⟩
    exact ⟨c, ⟨hc, ⟨hs, hb⟩, hr⟩, rfl⟩

theorem creates_firstRegistry {n : String} : (firstRegistry h ps o).creates n = true
    ↔ n ∈ (firstRequests o.names o.hideBits ps).map Request.name ∧ n ∉ h.channelNames := by
  rw [firstRegistry_eq, (Registry.sound_ofHost h).creates_enterAll]
  exact or_iff_right (by simp [Registry.ofHost, Registry.empty, Registry.creates])

theorem creates_stale {n : String} (hn : n ∈ stale h ps o) :
    (firstRegistry h ps o).creates n = false := by
  obtain ⟨c, hc, rfl, -⟩ := mem_stale.mp hn
  rw [← Bool.not_eq_true, creates_firstRegistry]
  exact fun hnew => hnew.2 (List.mem_map_of_mem hc)

theorem creates_registry {n : String} : (registry h ps o).creates n = true
    ↔ (n ∈ (firstRequests o.names o.hideBits ps).map Request.name ∨
        n = Namespace.selectorChannel) ∧ n ∉ h.channelNames := by
  have sound := (sound_firstRegistry h ps o).flagAll (stale h ps o) false
  rw [registry_eq, sound.creates_enter, Registry.creates_flagAll, creates_firstRegistry]
  simp only [Filter.selectorRequest]
  tauto

theorem isRequested_registry {n : String} : (registry h ps o).isRequested n = true
    ↔ n ∈ (firstRequests o.names o.hideBits ps).map Request.name ∨
      n = Namespace.selectorChannel := by
  rw [registry_eq, Registry.isRequested_enter, Registry.isRequested_flagAll,
    isRequested_firstRegistry]
  rfl

/-- The flags that a compilation sets on channels of the host. -/
theorem get?_flags_registry {n : String} (hn : n ∈ h.channelNames) :
    (registry h ps o).flags.get? n = if n ∈ stale h ps o then some false
      else Request.forcedFlag (firstRequests o.names o.hideBits ps) n := by
  have sound := (sound_firstRegistry h ps o).flagAll (stale h ps o) false
  rw [registry_eq, sound.get?_flags_enter, if_neg (by simp [Filter.selectorRequest]),
    Registry.get?_flags_flagAll fun _ => creates_stale, firstRegistry_eq,
    (Registry.sound_ofHost h).get?_flags_enterAll _ hn]
  simp [Registry.ofHost, Registry.empty]

/-- A flag that is forced on a new channel is the one it has. -/
theorem flagIn_created_registry {n : String} {v : Bool} (hn : n ∉ h.channelNames)
    (hv : Request.forcedFlag (firstRequests o.names o.hideBits ps) n = some v) :
    Host.flagIn n (registry h ps o).created = some v := by
  have hfirst : Host.flagIn n (firstRegistry h ps o).created = some v := by
    rw [firstRegistry_eq, (Registry.sound_ofHost h).flagIn_created_enterAll _ hn, hv,
      Option.some_or]
  have sound := (sound_firstRegistry h ps o).flagAll (stale h ps o) false
  rw [registry_eq, sound.flagIn_created_enter _ hn,
    Registry.created_flagAll fun _ => creates_stale, hfirst]
  simp [Filter.selectorRequest]

/-- The channels of the host and the new ones. -/
theorem channelNames_outcome (hroot : o.names.root ≠ "") (admits : Admits o.names ps)
    (cs : List (Clip α)) : (outcome h ps o cs).1.channelNames
    = h.channelNames ++ (registry h ps o).created.map Channel.name := by
  rw [outcome_fst hroot admits, Host.channelNames, Host.channelNames, List.map_append,
    Host.map_name_setAll]

theorem mem_channelNames_outcome (hroot : o.names.root ≠ "") (admits : Admits o.names ps)
    (cs : List (Clip α)) {n : String}
    (hn : n ∈ (firstRequests o.names o.hideBits ps).map Request.name ∨
      n = Namespace.selectorChannel) : n ∈ (outcome h ps o cs).1.channelNames := by
  rw [channelNames_outcome hroot admits, List.mem_append]
  by_cases hmem : n ∈ h.channelNames
  · exact .inl hmem
  · exact .inr (Registry.creates_iff.mp (creates_registry.mpr ⟨hn, hmem⟩))

/-- New channels have names of their own. -/
theorem nodup_channelNames_outcome (hroot : o.names.root ≠ "") (admits : Admits o.names ps)
    (cs : List (Clip α)) (nodup : h.channelNames.Nodup) :
    (outcome h ps o cs).1.channelNames.Nodup := by
  rw [channelNames_outcome hroot admits, List.nodup_append]
  refine ⟨nodup, (sound_registry h ps o).nodup, ?_⟩
  rintro n hn m hm rfl
  exact (creates_registry.mp (Registry.creates_iff.mpr hm)).2 hn

/-- A channel after a compilation was there before, perhaps with another flag, or is new. -/
theorem channels_outcome (hroot : o.names.root ≠ "") (admits : Admits o.names ps)
    (cs : List (Clip α)) (nodup : h.channelNames.Nodup) : (outcome h ps o cs).1.channels
    = h.channels.map (Channel.flagged (registry h ps o).flags.get?)
      ++ (registry h ps o).created := by
  rw [outcome_fst hroot admits]
  dsimp only
  rw [Host.setAll_eq_map _ nodup]

/-! ### Names of requested channels -/

variable {ns : Namespace}

theorem generates_given {n : String} (h : ns.tags n = true) (hidden : Bool) :
    ns.generates (Decoder.given hidden n) = true := by
  unfold Decoder.given
  split
  · exact Namespace.generates_hide h
  · exact Namespace.generates_of_tags h

theorem carriesBit_given (hroot : ns.root ≠ "") (hidden : Bool) (rest : String) :
    ns.carriesBit (Decoder.given hidden (ns.channel "Binary" rest)) = true := by
  unfold Decoder.given
  split
  · exact Namespace.carriesBit_hide hroot rest
  · exact Namespace.carriesBit_channel hroot rest

omit [Scalar α] in
theorem carriesBit_of_mem_channelsOf (hroot : ns.root ≠ "") {p : Parameter α}
    {hidden : Bool} {n : String}
    (hn : n ∈ (Decoder.channelsOf ns p hidden).bits
      ++ (Decoder.channelsOf ns p hidden).sign.toList) :
    ns.carriesBit n = true := by
  rcases List.mem_append.mp hn with hn | hn
  · obtain ⟨i, -, rfl⟩ := List.mem_map.mp hn
    exact carriesBit_given hroot hidden _
  · unfold Decoder.channelsOf at hn
    dsimp only at hn
    split at hn
    · obtain rfl := Option.some.inj (Option.mem_toList.mp hn)
      exact carriesBit_given hroot hidden _
    · cases hn

omit [Scalar α] in
theorem generates_of_mem_channelsOf (hroot : ns.root ≠ "") {p : Parameter α} {hidden : Bool}
    {n : String} (hn : n ∈ (Decoder.channelsOf ns p hidden).bits ∨
      n ∈ (Decoder.channelsOf ns p hidden).sign.toList) : ns.generates n = true := by
  rcases hn with hn | hn
  · obtain ⟨i, -, rfl⟩ := List.mem_map.mp hn
    exact generates_given (Namespace.tags_channel hroot _ _) hidden
  · unfold Decoder.channelsOf at hn
    dsimp only at hn
    split at hn
    · obtain rfl := Option.some.inj (Option.mem_toList.mp hn)
      exact generates_given (Namespace.tags_channel hroot _ _) hidden
    · cases hn

/-- A requested channel is generated or that of a parameter. -/
theorem generates_of_mem_requests (hroot : ns.root ≠ "") {hidden : Bool} {ps : List (Parameter α)}
    {n : String} (hn : n ∈ (firstRequests ns hidden ps).map Request.name) :
    ns.generates n = true ∨ n ∈ ps.map Parameter.name := by
  have htags (segment rest : String) : ns.generates (ns.channel segment rest) = true :=
    Namespace.generates_of_tags (Namespace.tags_channel hroot segment rest)
  rcases mem_names_firstRequests.mp hn with rfl | ⟨p, hp, hn⟩
  · exact .inl (Namespace.generates_of_tags (Namespace.tags_blendSet hroot))
  rcases mem_names_requestsOf.mp hn with hn | ⟨-, hn⟩
  · simp only [List.mem_cons, List.not_mem_nil, or_false] at hn
    rcases hn with rfl | rfl | rfl | rfl
    · exact .inr (List.mem_map_of_mem hp)
    · exact .inl (htags _ _)
    · exact .inl (htags _ _)
    · exact .inl (htags _ _)
  · exact .inl (generates_of_mem_channelsOf hroot (List.mem_append.mp hn))

theorem name_mem_requests {hidden : Bool} {ps : List (Parameter α)} {p : Parameter α}
    (hp : p ∈ ps) : p.name ∈ (firstRequests ns hidden ps).map Request.name := by
  refine mem_names_firstRequests.mpr (.inr ⟨p, hp, mem_names_requestsOf.mpr (.inl ?_)⟩)
  exact List.mem_cons_self ..

theorem proxy_mem_requests {hidden : Bool} {ps : List (Parameter α)} {p : Parameter α}
    (hp : p ∈ ps) : ns.proxy p.name ∈ (firstRequests ns hidden ps).map Request.name := by
  refine mem_names_firstRequests.mpr (.inr ⟨p, hp, mem_names_requestsOf.mpr (.inl ?_)⟩)
  exact List.mem_cons_of_mem _ (List.mem_cons_self ..)

end Compile

end BlendGraph
