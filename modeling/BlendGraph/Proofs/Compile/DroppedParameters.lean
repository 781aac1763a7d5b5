import BlendGraph.Proofs.Compile.RequestedChannels
import BlendGraph.Proofs.Compile.Runs

/-!
# Transmission of dropped parameters

A compilation sets the flag of the raw channel of each of its parameters: it is transmitted unless
the parameter is quantized. The flag that was there before is recorded, but a later list that drops
the parameter does not set it again, so that the channel stays as the last list that named it wants
it.
-/

set_option autoImplicit false

namespace BlendGraph

variable {α : Type}

/-! ### Forced flags -/

namespace Request

theorem forcedFlag_append (qs rs : List (Request α)) (n : String) :
    forcedFlag (qs ++ rs) n = (forcedFlag rs n).or (forcedFlag qs n) := by
  induction qs with
  | nil => simp [forcedFlag]
  | cons q qs ih => rw [List.cons_append, forcedFlag, ih, forcedFlag, Option.or_assoc]

theorem forcedFlag_eq_none {qs : List (Request α)} {n : String}
    (h : n ∉ qs.map Request.name) : forcedFlag qs n = none :=
  Option.eq_none_iff_forall_ne_some.mpr fun _ hv => h (mem_of_forcedFlag hv)

end Request

/-- The flag that a list wants for the channel of a name: that of a parameter is transmitted unless
it is quantized, and any other one is left alone. -/
def wanted? (ps : List (Parameter α)) (n : String) : Option Bool :=
  (ps.find? fun p => p.name == n).map fun p => !p.isQuantized

theorem wanted?_eq_none_iff {ps : List (Parameter α)} {n : String} :
    wanted? ps n = none ↔ n ∉ ps.map Parameter.name := by
  simp [wanted?]

theorem wanted?_of_mem {ps : List (Parameter α)} (nodup : (ps.map Parameter.name).Nodup)
    {p : Parameter α} (hp : p ∈ ps) : wanted? ps p.name = some !p.isQuantized := by
  obtain ⟨q, hq⟩ : ∃ q, ps.find? (fun q => q.name == p.name) = some q :=
    Option.isSome_iff_exists.mp (List.find?_isSome.mpr ⟨p, hp, beq_self_eq_true _⟩)
  have hname : q.name = p.name := by simpa using List.find?_some hq
  have hsame : q = p := List.inj_on_of_nodup_map nodup (List.mem_of_find?_eq_some hq) hp hname
  rw [wanted?, hq, hsame]
  rfl

/-- The flag that the last list which names a channel wants for it. -/
def lastWanted? (calls : List (Call α)) (n : String) : Option Bool :=
  calls.foldl (fun v c => (wanted? c.parameters n).or v) none

theorem lastWanted?_append (before : List (Call α)) (c : Call α) (n : String) :
    lastWanted? (before ++ [c]) n = (wanted? c.parameters n).or (lastWanted? before n) := by
  rw [lastWanted?, List.foldl_append]
  rfl

variable [Scalar α]

namespace Compile

theorem forcedFlag_requestsOf {ns : Namespace} (hroot : ns.root ≠ "") {hidden : Bool}
    {p : Parameter α} {n : String} (hbit : ns.carriesBit n = false) :
    Request.forcedFlag (requestsOf ns hidden p) n
      = if p.name = n then some (!p.isQuantized) else none := by
  have hbits : Request.forcedFlag
      (if p.isQuantized then Decoder.requestsOf ns p hidden else []) n = none := by
    apply Request.forcedFlag_eq_none
    intro hn
    split at hn
    · have hnames : n ∈ (Decoder.channelsOf ns p hidden).bits
          ++ (Decoder.channelsOf ns p hidden).sign.toList := by
        simpa [Decoder.requestsOf, Decoder.bitRequest] using hn
      rw [carriesBit_of_mem_channelsOf hroot hnames] at hbit
      cases hbit
    · cases hn
  rw [requestsOf, Request.forcedFlag_append, hbits]
  simp [Filter.requestsOf, Filter.coefficientRequest, Request.forcedFlag]

/-- Apart from bits, only the channels of parameters are set. -/
theorem forcedFlag_unlessBit {ns : Namespace} (hroot : ns.root ≠ "") {hidden : Bool}
    {ps : List (Parameter α)} (nodup : (ps.map Parameter.name).Nodup) {n : String}
    (hbit : ns.carriesBit n = false) :
    Request.forcedFlag (firstRequests ns hidden ps) n = wanted? ps n := by
  have hparameters :
      Request.forcedFlag (ps.flatMap (requestsOf ns hidden)) n = wanted? ps n := by
    induction ps with
    | nil => rfl
    | cons p ps ih =>
      obtain ⟨hp, nodup⟩ := List.nodup_cons.mp nodup
      rw [List.flatMap_cons, Request.forcedFlag_append, forcedFlag_requestsOf hroot hbit, ih nodup]
      by_cases hn : p.name = n
      · rw [wanted?_eq_none_iff.mpr (hn ▸ hp)]
        simp [wanted?, hn]
      · simp [wanted?, hn]
  rw [firstRequests, Request.forcedFlag, hparameters]
  simp [blendSetRequest]

theorem forcedFlag_firstRequests {ns : Namespace} (hroot : ns.root ≠ "") {hidden : Bool}
    {ps : List (Parameter α)} (nodup : (ps.map Parameter.name).Nodup) {n : String}
    (plain : ns.generates n = false) :
    Request.forcedFlag (firstRequests ns hidden ps) n = wanted? ps n := by
  apply forcedFlag_unlessBit hroot nodup
  rw [← Bool.not_eq_true]
  intro hbit
  rw [Namespace.generates_of_carriesBit hbit] at plain
  cases plain

/-- The flag that a compilation sets on a channel of the host that is not generated. -/
theorem get?_flags_plain {h : Host α} {ps : List (Parameter α)} {o : CompileOptions}
    (hroot : o.names.root ≠ "") (admits : Admits o.names ps) {n : String}
    (hn : n ∈ h.channelNames) (plain : o.names.generates n = false) :
    (registry h ps o).flags.get? n = wanted? ps n := by
  have hstale : n ∉ stale h ps o := by
    intro hmem
    obtain ⟨c, -, -, -, hbit, -⟩ := mem_stale.mp hmem
    rw [Namespace.generates_of_carriesBit hbit] at plain
    cases plain
  rw [get?_flags_registry hn, if_neg hstale, forcedFlag_firstRequests hroot admits.nodup plain]

end Compile

/-! ### Flags after a run -/

/-- What a run has done to the channels of a host. -/
structure Transmits (ns : Namespace) (h : Host α) (calls : List (Call α)) (g : Host α) : Prop where
  nodup : g.channelNames.Nodup
  channels : ∃ added, g.channels = h.channels.map (Channel.flagged (lastWanted? calls)) ++ added
  restores : Host.setAll (g.overridesOf ns.root).entries
    (h.channels.map (Channel.flagged (lastWanted? calls))) = h.channels

namespace Transmits

variable {ns : Namespace} {h g : Host α} {before : List (Call α)} {c : Call α}

theorem refl (nodup : h.channelNames.Nodup) (unrecorded : h.overrides.get? ns.root = none) :
    Transmits ns h [] h where
  nodup := nodup
  channels := ⟨[], by rw [List.append_nil]; exact (List.map_id' _).symm⟩
  restores := by
    rw [Host.overridesOf, unrecorded]
    exact List.map_id' _

/-- The channels of the first host keep names of their own. -/
theorem exists_added (sent : Transmits ns h before g) :
    ∃ added, g.channels = h.channels.map (Channel.flagged (lastWanted? before)) ++ added ∧
      ((h.channels.map (Channel.flagged (lastWanted? before))).map Channel.name).Nodup ∧
      ∀ n ∈ (h.channels.map (Channel.flagged (lastWanted? before))).map Channel.name,
        n ∉ added.map Channel.name := by
  obtain ⟨added, hchannels⟩ := sent.channels
  have hnames := sent.nodup
  rw [Host.channelNames, hchannels, List.map_append] at hnames
  obtain ⟨hkept, -, hapart⟩ := List.nodup_append.mp hnames
  exact ⟨added, hchannels, hkept, fun n hn hmem => hapart n hn n hmem rfl⟩

theorem step (plain : ∀ c ∈ h.channels, ns.generates c.name = false)
    (sent : Transmits ns h before g) {g' : Host α} {r : CompileReport}
    (hc : Compile.compile g c.parameters (c.options ns) = .ok (g', r)) :
    Transmits ns h (before ++ [c]) g' := by
  obtain ⟨b, cs, hv, -, rfl, -⟩ := Compile.compile_ok_iff.mp hc
  have hroot : ns.root ≠ "" := Compile.root_ne_of_validate hv
  have admits : Compile.Admits ns c.parameters := Compile.admits_of_validate hv
  obtain ⟨added, hchannels, hkept, hapart⟩ := sent.exists_added
  have hset : Host.setAll (Compile.registry g c.parameters (c.options ns)).flags.entries
      (h.channels.map (Channel.flagged (lastWanted? before)))
        = h.channels.map (Channel.flagged (lastWanted? (before ++ [c]))) := by
    rw [Host.setAll_eq_map _ hkept, List.map_map]
    apply List.map_congr_left
    intro d hd
    have hmem : d.name ∈ g.channelNames := by
      rw [Host.channelNames, hchannels, List.map_append, Channel.map_name_flagged]
      exact List.mem_append_left _ (List.mem_map_of_mem hd)
    have hwanted := Compile.get?_flags_plain (o := c.options ns) hroot admits hmem (plain d hd)
    rw [Function.comp_apply, Channel.flagged_flagged]
    simp only [Channel.flagged, hwanted, lastWanted?_append]
  have houtcome := Compile.outcome_fst (h := g) (o := c.options ns) hroot admits cs
  constructor
  case nodup => exact Compile.nodup_channelNames_outcome hroot admits cs sent.nodup
  case channels =>
    refine ⟨Host.setAll (Compile.registry g c.parameters (c.options ns)).flags.entries added
      ++ (Compile.registry g c.parameters (c.options ns)).created, ?_⟩
    rw [houtcome]
    dsimp only
    rw [hchannels, Host.setAll_append hapart, hset, List.append_assoc]
  case restores =>
    have hplain : ∀ n ∈ (h.channels.map (Channel.flagged (lastWanted? before))).map Channel.name,
        ns.generates n = false := by
      simpa using plain
    rw [houtcome, ← hset]
    exact (Registry.restore_foldl hchannels hplain hapart _).trans sent.restores

theorem run (nodup : h.channelNames.Nodup) (plain : ∀ c ∈ h.channels, ns.generates c.name = false)
    (unrecorded : h.overrides.get? ns.root = none) {calls : List (Call α)}
    {rs : List CompileReport} (hrun : compileAll ns h calls = .ok (g, rs)) :
    Transmits ns h calls g :=
  compileAll_induction (motive := Transmits ns h) (refl nodup unrecorded)
    (fun _ _ _ _ _ sent hc => sent.step plain hc) hrun

/-- The flag that a channel has after the run, and the one that setting the recorded flags would
give it. -/
theorem flagIn (sent : Transmits ns h before g) {d : Channel α} (hd : d ∈ h.channels) :
    Host.flagIn d.name g.channels = some ((lastWanted? before d.name).getD d.synced) ∧
      ((g.overridesOf ns.root).get? d.name).getD ((lastWanted? before d.name).getD d.synced)
        = d.synced := by
  obtain ⟨added, hchannels, hkept, -⟩ := sent.exists_added
  have hmem : d.flagged (lastWanted? before)
      ∈ h.channels.map (Channel.flagged (lastWanted? before)) := List.mem_map_of_mem hd
  have hnow : Host.flagIn d.name g.channels
      = some ((lastWanted? before d.name).getD d.synced) := by
    apply Host.flagIn_of_mem sent.nodup (c := d.flagged (lastWanted? before))
    rw [hchannels]
    exact List.mem_append_left _ hmem
  refine ⟨hnow, ?_⟩
  have hbefore : Host.flagIn d.name h.channels = some d.synced :=
    Host.flagIn_of_mem (by rwa [Channel.map_name_flagged] at hkept) hd
  have hkeptNow : Host.flagIn d.name (h.channels.map (Channel.flagged (lastWanted? before)))
      = some ((lastWanted? before d.name).getD d.synced) :=
    Host.flagIn_of_mem hkept hmem
  rw [← sent.restores, Host.flagIn_setAll, hkeptNow] at hbefore
  exact Option.some.inj hbefore

end Transmits

/-- After a run, the dropped channels of a host are transmitted as they were if and only if no
earlier list has left another flag on one of them. -/
theorem transmission_iff {ns : Namespace} {h g : Host α} {before : List (Call α)} {call : Call α}
    {rs : List CompileReport} (nodup : h.channelNames.Nodup)
    (plain : ∀ c ∈ h.channels, ns.generates c.name = false)
    (unrecorded : h.overrides.get? ns.root = none)
    (hrun : compileAll ns h (before ++ [call]) = .ok (g, rs)) :
    (∀ c ∈ h.channels, c.name ∉ call.parameters.map Parameter.name →
      Host.flagIn c.name g.channels = some ((lastWanted? before c.name).getD c.synced) ∧
      ((g.overridesOf ns.root).get? c.name).getD ((lastWanted? before c.name).getD c.synced)
        = c.synced) ∧
    ((∀ c ∈ h.channels, c.name ∉ call.parameters.map Parameter.name →
        Host.flagIn c.name g.channels = some c.synced) ↔
      ∀ c ∈ h.channels, c.name ∉ call.parameters.map Parameter.name →
        ∀ v, lastWanted? before c.name = some v → v = c.synced) := by
  have sent := Transmits.run nodup plain unrecorded hrun
  have hdropped : ∀ c ∈ h.channels, c.name ∉ call.parameters.map Parameter.name →
      lastWanted? (before ++ [call]) c.name = lastWanted? before c.name := by
    intro c _ hc
    rw [lastWanted?_append, wanted?_eq_none_iff.mpr hc, Option.none_or]
  have hflags : ∀ c ∈ h.channels, c.name ∉ call.parameters.map Parameter.name →
      Host.flagIn c.name g.channels = some ((lastWanted? before c.name).getD c.synced) ∧
      ((g.overridesOf ns.root).get? c.name).getD ((lastWanted? before c.name).getD c.synced)
        = c.synced := by
    intro c hc hdrop
    rw [← hdropped c hc hdrop]
    exact sent.flagIn hc
  refine ⟨hflags, ?_, ?_⟩
  · intro hkept c hc hdrop v hv
    have hnow := (hflags c hc hdrop).1
    rw [hkept c hc hdrop, hv] at hnow
    exact (Option.some.inj hnow).symm
  · intro hwanted c hc hdrop
    rw [(hflags c hc hdrop).1]
    cases hv : lastWanted? before c.name with
    | none => rfl
    | some v => exact congrArg some (hwanted c hc hdrop v hv)

theorem transmission_iff_sample : ∃ g rs,
    compileAll Sample.options.names Sample.host
      ([⟨Sample.parameters.drop 1, true, 16⟩] ++ [⟨Sample.parameters.take 1, false, 3⟩])
        = .ok (g, rs) ∧
    Host.flagIn "Cheek" g.channels = some true := by
  obtain ⟨g, rs, hrun⟩ := exists_compileAll Sample.options.names
    ([⟨Sample.parameters.drop 1, true, 16⟩] ++ [⟨Sample.parameters.take 1, false, 3⟩]) Sample.host
    (by decide +kernel)
  have hiff := (transmission_iff (by decide +kernel) (by decide +kernel) rfl hrun).2
  refine ⟨g, rs, hrun, hiff.mpr ?_ ⟨"Cheek", .continuous, 0, true⟩ ?_ ?_⟩
  · decide +kernel
  · decide +kernel
  · decide +kernel

/-- `Jaw` is quantized and then dropped: its channel is not transmitted any more, neither as a whole
nor by its bits. -/
theorem transmission_lost : ∃ g rs, compileAll Sample.options.names Sample.host
      [⟨Sample.parameters, true, 16⟩, ⟨Sample.parameters.drop 1, true, 16⟩] = .ok (g, rs) ∧
    Sample.host.channelNames.Nodup ∧
    (∀ c ∈ Sample.host.channels, Sample.options.names.generates c.name = false) ∧
    Sample.host.overrides.get? Sample.options.names.root = none ∧
    Host.flagIn "Jaw" Sample.host.channels = some true ∧
    "Jaw" ∉ (Sample.parameters.drop 1).map Parameter.name ∧
    Host.flagIn "Jaw" g.channels = some false := by
  obtain ⟨g, rs, hrun⟩ := exists_compileAll Sample.options.names
    [⟨Sample.parameters, true, 16⟩, ⟨Sample.parameters.drop 1, true, 16⟩] Sample.host
    (by decide +kernel)
  have sent := Transmits.run (by decide +kernel) (by decide +kernel) rfl hrun
  have hjaw := (sent.flagIn (d := ⟨"Jaw", .continuous, 0, true⟩) (List.mem_cons_self ..)).1
  refine ⟨g, rs, hrun, by decide +kernel, by decide +kernel, rfl, by decide +kernel,
    by decide +kernel, ?_⟩
  rw [hjaw]
  decide +kernel

end BlendGraph
