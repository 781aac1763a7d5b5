import BlendGraph.Proofs.Compile.AbandonedChannels
import BlendGraph.Proofs.Compile.ChainedFilters
import BlendGraph.Proofs.Compile.DroppedParameters

/-!
# The selector of the host

A generated layer reads the selector, a channel of a fixed name that the host keeps at one for the
owner. The checks do not reserve the name, and a parameter of that name is treated as any other one:
its decoder writes the channel, its flag is set, and references to it are redirected. Any other list
leaves the selector to the host.
-/

set_option autoImplicit false

namespace BlendGraph

variable {α : Type}

/-! ### Channels of one name -/

namespace Host

/-- The channels of the name, with their flags. -/
def named (n : String) (cs : List (Channel α)) : List (Channel α) := cs.filter fun c => c.name == n

theorem named_cons (n : String) (c : Channel α) (cs : List (Channel α)) :
    named n (c :: cs) = if c.name = n then c :: named n cs else named n cs := by
  by_cases hc : c.name = n <;> simp [named, hc]

theorem named_append (n : String) (cs ds : List (Channel α)) :
    named n (cs ++ ds) = named n cs ++ named n ds :=
  List.filter_append ..

theorem flagIn_named (n : String) (cs : List (Channel α)) :
    flagIn n (named n cs) = flagIn n cs := by
  induction cs with
  | nil => rfl
  | cons c cs ih =>
    rw [named_cons, flagIn_cons]
    split
    · next hc => rw [flagIn_cons, if_pos hc]
    · exact ih

theorem named_eq_nil {n : String} {cs : List (Channel α)} (h : n ∉ cs.map Channel.name) :
    named n cs = [] := by
  rw [named, List.filter_eq_nil_iff]
  intro c hc heq
  exact h (List.mem_map.mpr ⟨c, hc, by simpa using heq⟩)

theorem named_setSyncedIn (m n : String) (v : Bool) (cs : List (Channel α)) :
    named m (setSyncedIn n v cs) = if n = m then setSyncedIn n v (named m cs) else named m cs := by
  induction cs with
  | nil => simp [named, setSyncedIn]
  | cons c cs ih =>
    rw [setSyncedIn_cons, named_cons]
    by_cases hc : c.name = n
    · rw [if_pos hc, named_cons]
      by_cases hn : n = m <;> simp [hc, hn, setSyncedIn_cons]
    · rw [if_neg hc, named_cons, ih]
      by_cases hn : n = m
      · simp [hn ▸ hc, hn]
      · simp [hn]

theorem named_setAll_of_notMem {n : String} {flags : List (String × Bool)}
    (h : n ∉ flags.map Prod.fst) (cs : List (Channel α)) :
    named n (setAll flags cs) = named n cs := by
  induction flags generalizing cs with
  | nil => rfl
  | cons f flags ih =>
    rw [List.map_cons, List.mem_cons, not_or] at h
    rw [setAll_cons, ih h.2, named_setSyncedIn, if_neg (Ne.symm h.1)]

theorem named_setAll_of_mem {n : String} {v : Bool} {flags : List (String × Bool)}
    (nodup : (flags.map Prod.fst).Nodup) (h : (n, v) ∈ flags) (cs : List (Channel α)) :
    named n (setAll flags cs) = setSyncedIn n v (named n cs) := by
  induction flags generalizing cs with
  | nil => cases h
  | cons f flags ih =>
    obtain ⟨hf, nodup⟩ := List.nodup_cons.mp nodup
    rw [setAll_cons]
    rcases List.mem_cons.mp h with rfl | h
    · rw [named_setAll_of_notMem hf, named_setSyncedIn, if_pos rfl]
    · have hne : f.1 ≠ n := fun heq => hf (heq ▸ List.mem_map_of_mem h)
      rw [ih nodup h, named_setSyncedIn, if_neg hne]

theorem setSyncedIn_eq_self_iff {n : String} {v : Bool} {cs : List (Channel α)} :
    setSyncedIn n v cs = cs ↔ ∀ w, flagIn n cs = some w → w = v := by
  refine ⟨fun h w hw => ?_, setSyncedIn_eq_self⟩
  have hset := flagIn_setSyncedIn n n v cs
  rw [h, if_pos rfl, hw] at hset
  exact Option.some.inj hset

/-- The flags of a table leave the channels of a name alone unless the one for the name is another
one than theirs. -/
theorem named_setAll_eq_self_iff {n : String} {t : Table Bool} {cs : List (Channel α)} :
    named n (setAll t.entries cs) = named n cs
      ↔ ∀ v, t.get? n = some v → ∀ w, flagIn n cs = some w → w = v := by
  cases hv : t.get? n with
  | none =>
    have hnot : n ∉ t.entries.map Prod.fst := by
      intro hmem
      obtain ⟨v, hsome⟩ := Table.mem_keys.mp hmem
      simp [hv] at hsome
    rw [named_setAll_of_notMem hnot]
    simp
  | some v =>
    rw [named_setAll_of_mem t.nodup_keys (Table.mem_entries.mpr hv), setSyncedIn_eq_self_iff,
      flagIn_named]
    simp

end Host

variable [Scalar α]

/-- No clip that the motion plays drives the channel. -/
def Host.Undriven (g : Host α) (motion : Node α) (channel : String) : Prop :=
  ∀ n ∈ motion.clips, ∀ c, g.resolve? n = some c → c.target ≠ channel

/-- What a host expects of a compilation: its selector is not driven by the new motion, keeps its
flag, and stays where it is referred to outside the layer. -/
structure Host.KeepsSelector (ns : Namespace) (motion : Node α) (h g : Host α) : Prop where
  undriven : g.Undriven motion Namespace.selectorChannel
  flags : Namespace.selectorChannel ∈ h.channelNames →
    named Namespace.selectorChannel g.channels = named Namespace.selectorChannel h.channels
  references : List.Forall₂ (fun x y => x.channel = Namespace.selectorChannel → y = x)
    (h.outside ns) (g.outside ns)

namespace Compile

variable {h h' : Host α} {ps : List (Parameter α)} {o : CompileOptions} {r : CompileReport}

/-! ### The flag -/

/-- The flag of the selector is set for a parameter of its name only. -/
theorem get?_flags_selector (hroot : o.names.root ≠ "") (admits : Admits o.names ps)
    (hselector : Namespace.selectorChannel ∈ h.channelNames) :
    (registry h ps o).flags.get? Namespace.selectorChannel
      = wanted? ps Namespace.selectorChannel := by
  have hbit := Namespace.carriesBit_selectorChannel o.names
  have hstale : Namespace.selectorChannel ∉ stale h ps o := by
    intro hmem
    obtain ⟨c, -, -, -, hyes, -⟩ := mem_stale.mp hmem
    rw [hbit] at hyes
    cases hyes
  rw [get?_flags_registry hselector, if_neg hstale, forcedFlag_unlessBit hroot admits.nodup hbit]

theorem named_selector_iff (hselector : Namespace.selectorChannel ∈ h.channelNames)
    (hc : compile h ps o = .ok (h', r)) :
    Host.named Namespace.selectorChannel h'.channels
        = Host.named Namespace.selectorChannel h.channels ↔
      ∀ p ∈ ps, p.name = Namespace.selectorChannel →
        Host.flagIn Namespace.selectorChannel h.channels = some !p.isQuantized := by
  obtain ⟨b, cs, hv, -, rfl, -⟩ := compile_ok_iff.mp hc
  have hroot := root_ne_of_validate hv
  have admits := admits_of_validate hv
  obtain ⟨w, hw⟩ := Option.isSome_iff_exists.mp (Host.isSome_flagIn_iff.mpr hselector)
  have hcreated : Host.named Namespace.selectorChannel (registry h ps o).created = [] := by
    apply Host.named_eq_nil
    intro hmem
    exact (creates_registry.mp (Registry.creates_iff.mpr hmem)).2 hselector
  rw [outcome_fst hroot admits]
  dsimp only
  rw [Host.named_append, hcreated, List.append_nil, Host.named_setAll_eq_self_iff,
    get?_flags_selector hroot admits hselector, hw]
  constructor
  · intro hflag p hp hname
    rw [← hname, wanted?_of_mem admits.nodup hp] at hflag
    exact congrArg some (hflag _ rfl w rfl)
  · intro hall v hv w' hw'
    have hlisted : Namespace.selectorChannel ∈ ps.map Parameter.name := by
      by_contra hnot
      rw [wanted?_eq_none_iff.mpr hnot] at hv
      cases hv
    obtain ⟨p, hp, hname⟩ := List.mem_map.mp hlisted
    rw [← hname, wanted?_of_mem admits.nodup hp] at hv
    exact Option.some.inj (hw'.symm.trans ((hall p hp hname).trans hv))

/-! ### References -/

theorem references_selector_iff (hc : compile h ps o = .ok (h', r)) :
    List.Forall₂ (fun x y => x.channel = Namespace.selectorChannel → y = x)
        (h.outside o.names) (h'.outside o.names) ↔
      ∀ p ∈ ps, p.redirect = true → p.name = Namespace.selectorChannel →
        ∀ x ∈ h.outside o.names, x.channel ≠ Namespace.selectorChannel := by
  have hself (x : Reference) : { x with channel := smoothed o.names ps x.channel } = x
      ↔ smoothed o.names ps x.channel = x.channel := by
    rw [Reference.mk.injEq]
    simp
  rw [outside_compile hc, List.forall₂_map_right_iff, List.forall₂_same]
  simp only [hself, smoothed_eq_self_iff]
  constructor
  · intro hkept p hp hredirect hname x hx hselector
    exact hkept x hx hselector p hp hredirect (hname.trans hselector.symm)
  · intro hunused x hx hselector p hp hredirect hname
    exact hunused p hp hredirect (hname.trans hselector) x hx hselector

/-! ### Driven channels -/

section

variable [LawfulScalar α] {cs : List (Clip α)}

/-- The layer drives the selector only for a quantized parameter of its name. -/
theorem undriven_selector (hroot : o.names.root ≠ "") (admits : Admits o.names ps)
    (hcs : HeldClip.recordAll? (heldClips o.names h.id o.hideBits ps) = .ok cs)
    (unnamed : ∀ p ∈ ps, p.name = Namespace.selectorChannel → p.isQuantized = false) :
    (outcome h ps o cs).1.Undriven (motion o.names h.id o.hideBits ps)
      Namespace.selectorChannel := by
  intro n hn c hresolve htarget
  rw [clips_motion] at hn
  obtain ⟨d, hd, rfl⟩ := List.mem_map.mp hn
  obtain ⟨e, he, -, c', hresolve', -, hrecorded, -⟩ :=
    exists_resolve?_outcome hroot admits hcs (mem_heldClips_of_mem_leaves hd)
  obtain rfl : c = c' := Option.some.inj (hresolve.symm.trans hresolve')
  have hdriven : e.target = Namespace.selectorChannel := hrecorded.symm.trans htarget
  obtain ⟨p, hp, hmade⟩ := exists_madeFor admits he
  cases hmade with
  | filter high =>
    have hslash : '/' ∈ (o.names.proxy p.name).toList := by
      simp [Namespace.proxy, Namespace.channel]
    dsimp only at hdriven
    rw [hdriven] at hslash
    exact absurd hslash (by decide)
  | bit i hi state =>
    have hplain := unnamed p hp hdriven
    simp only [Parameter.isQuantized, decide_eq_false_iff_not] at hplain
    omega

/-- A decoder drives the channel of its parameter, where no other parameter's clips can take the
place of its own. -/
theorem driven_of_quantized (hroot : o.names.root ≠ "") (admits : Admits o.names ps)
    (hcs : HeldClip.recordAll? (heldClips o.names h.id o.hideBits ps) = .ok cs)
    (apart : (ps.map fun p => ClipName.withoutSeparators p.name).Nodup) {p : Parameter α}
    (hp : p ∈ ps) (hq : p.isQuantized = true) :
    ¬ (outcome h ps o cs).1.Undriven (motion o.names h.id o.hideBits ps) p.name := by
  have hwidth := admits.width hp hq
  have hfirst : 0 ∈ List.range p.bits := by
    simp only [Parameter.isQuantized, decide_eq_true_eq] at hq
    exact List.mem_range.mpr hq
  have hwire : Decoder.wire o.names o.hideBits p 0
      ∈ Decoder.wires p (Decoder.channelsOf o.names p o.hideBits) := by
    rw [Decoder.wires_eq o.names hwidth]
    exact List.mem_map_of_mem hfirst
  have hclip : (⟨ClipName.decoder p.name false 0 (0 : α) h.id, p.name, 0⟩ : HeldClip α)
      ∈ decoderClips o.names h.id o.hideBits p := by
    rw [decoderClips, if_pos hq]
    exact Decoder.mem_clips_edits.mpr
      ⟨false, List.mem_cons_self .., _, hwire, List.mem_cons_self ..⟩
  have hleaf := List.mem_append_left (Observer.all.flatMap fun _ => ps.flatMap fun p =>
    Filter.leaves h.id p.name (o.names.proxy p.name)) (List.mem_flatMap.mpr ⟨p, hp, hclip⟩)
  have hheld := mem_heldClips_of_mem_leaves hleaf
  obtain ⟨c, hresolve, -, htarget, -⟩ := resolve?_outcome hroot admits hcs hheld
    fun e he hname => heldClips_unique admits apart hheld he hname
  intro undriven
  refine undriven _ ?_ c hresolve htarget
  rw [clips_motion]
  exact List.mem_map_of_mem hleaf

end

/-! ### Lists that leave the selector alone -/

/-- Of the lists that pass the checks, those without a parameter of the selector's name are the ones
that keep the selector of every host. -/
theorem keepsSelector_iff {ps : List (Parameter Float32)} {o : CompileOptions} {b : Budget}
    (hv : validate ps o = .ok b) :
    (∀ h : Host Float32, ∃ h' r, compile h ps o = .ok (h', r) ∧
      h'.layers.getLast? = some (generated o.names h.id o.hideBits ps) ∧
      h.KeepsSelector o.names (motion o.names h.id o.hideBits ps) h') ↔
    ∀ p ∈ ps, p.name ≠ Namespace.selectorChannel := by
  have hroot := root_ne_of_validate hv
  have admits := admits_of_validate hv
  constructor
  · intro kept p hp hname
    -- the host in which the parameter changes the flag
    let h : Host Float32 := { Host.empty "" with
      channels := [⟨Namespace.selectorChannel, .discrete, 0, p.isQuantized⟩] }
    have hselector : Namespace.selectorChannel ∈ h.channelNames := List.mem_singleton_self _
    obtain ⟨h', r, hc, -, hkept⟩ := kept h
    have hflag := (named_selector_iff hselector hc).mp (hkept.flags hselector) p hp hname
    exact absurd (Option.some.inj hflag) (by cases p.isQuantized <;> decide)
  · intro unnamed h
    obtain ⟨cs, r, hcs, hc⟩ := exists_compile (h := h) hv
    refine ⟨_, r, hc, ?_, ?_, fun hselector => ?_, ?_⟩
    · rw [outcome_fst hroot admits]
      simp
    · exact undriven_selector hroot admits hcs fun p hp hname => absurd hname (unnamed p hp)
    · exact (named_selector_iff hselector hc).mpr fun p hp hname => absurd hname (unnamed p hp)
    · exact (references_selector_iff hc).mpr fun p hp _ hname => absurd hname (unnamed p hp)

end Compile

/-! ### A sample -/

namespace Sample

/-- A host with a transmitted selector that one of its layers reads. -/
def selecting : Host Float32 where
  id := "demo"
  channels := [⟨"IsLocal", .discrete, 0, true⟩]
  layers := [⟨"Face", [.playing "Open" (.sum "Mix" [("IsLocal", .leaf "Open")])]⟩]
  clips := .empty
  overrides := .empty

def selector : Parameter Float32 := (Parameter.ofName "IsLocal").withBits 1 false

end Sample

namespace Compile

theorem keepsSelector_sample : (validate Sample.parameters Sample.options).isOk = true ∧
    ∃ h' r, compile Sample.selecting Sample.parameters Sample.options = .ok (h', r) ∧
      Sample.selecting.KeepsSelector ⟨"OSCm"⟩
        (motion ⟨"OSCm"⟩ "demo" true Sample.parameters) h' := by
  have hok : (validate Sample.parameters Sample.options).isOk = true := by decide +kernel
  obtain ⟨b, hv⟩ := exists_of_isOk hok
  obtain ⟨h', r, hc, -, hkept⟩ := (keepsSelector_iff hv).mpr (by decide +kernel) Sample.selecting
  exact ⟨hok, h', r, hc, hkept⟩

/-- The parameter passes the checks. Its decoder drives the selector, which is not transmitted any
more, and the layer of the host reads the smoothed channel instead. -/
theorem selector_taken : ∃ h' r,
    compile Sample.selecting [Sample.selector] Sample.options = .ok (h', r) ∧
    ¬ h'.Undriven (motion ⟨"OSCm"⟩ "demo" true [Sample.selector]) "IsLocal" ∧
    Host.flagIn "IsLocal" Sample.selecting.channels = some true ∧
    Host.flagIn "IsLocal" h'.channels = some false ∧
    (Sample.selecting.outside ⟨"OSCm"⟩).map Reference.channel = ["IsLocal"] ∧
    (h'.outside ⟨"OSCm"⟩).map Reference.channel = ["OSCm/Proxy/IsLocal"] := by
  have hok : (validate [Sample.selector] Sample.options).isOk = true := by decide +kernel
  obtain ⟨b, hv⟩ := exists_of_isOk hok
  have hroot := root_ne_of_validate hv
  have admits := admits_of_validate hv
  obtain ⟨cs, r, hcs, hc⟩ := exists_compile (h := Sample.selecting) hv
  have hdriven := driven_of_quantized hroot admits hcs (List.nodup_singleton _)
    (List.mem_singleton_self _) rfl
  have hchannels := channels_outcome (h := Sample.selecting) hroot admits cs
    (List.nodup_singleton _)
  have houtside := congrArg (List.map Reference.channel) (outside_compile hc)
  refine ⟨_, r, hc, hdriven, rfl, ?_, by decide +kernel, houtside.trans (by decide +kernel)⟩
  exact (congrArg (Host.flagIn "IsLocal") hchannels).trans (by decide +kernel)

end Compile

end BlendGraph
