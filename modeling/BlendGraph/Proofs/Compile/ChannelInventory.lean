import BlendGraph.Proofs.Compile.Capacity
import BlendGraph.Proofs.Compile.SharedChannels
import BlendGraph.Proofs.Removal.SeveralRoots

/-!
# The channels after a compilation

A compilation keeps the channels of a host and puts new ones behind them. The only flags that it
sets are those of its parameters and of bits: a bit is transmitted if the list requests it, and not
any more if an earlier list has left it. Each flag of the user that changes for the first time is
recorded.
-/

set_option autoImplicit false

namespace BlendGraph

variable {α : Type}

/-! ### Forced flags -/

namespace Request

variable {qs : List (Request α)} {n : String}

theorem forcedFlag_eq_none_iff :
    forcedFlag qs n = none ↔ ∀ q ∈ qs, q.forced = true → q.name ≠ n := by
  induction qs with
  | nil => simp [forcedFlag]
  | cons q qs ih =>
    rw [forcedFlag, Option.or_eq_none_iff, ih, List.forall_mem_cons, and_comm]
    simp

/-- A flag on which all requests that force one agree. -/
theorem forcedFlag_eq_some {v : Bool} (forced : ∃ q ∈ qs, q.forced = true ∧ q.name = n)
    (agree : ∀ q ∈ qs, q.name = n → q.synced = v) : forcedFlag qs n = some v := by
  cases hw : forcedFlag qs n with
  | none =>
    obtain ⟨q, hq, hforced, hname⟩ := forced
    exact absurd hname (forcedFlag_eq_none_iff.mp hw q hq hforced)
  | some w =>
    obtain ⟨q, hq, -, hname, hsynced⟩ := exists_of_forcedFlag hw
    rw [← hsynced, agree q hq hname]

end Request

/-! ### Requested bits -/

theorem Role.mem_channelsOf_iff {ns : Namespace} {hidden : Bool} {p : Parameter α} {n : String} :
    (∃ role : Role, role.isTransmitted = true ∧ role.channel? ns hidden p = some n) ↔
      p.isQuantized = true ∧ n ∈ (Decoder.channelsOf ns p hidden).bits
        ++ (Decoder.channelsOf ns p hidden).sign.toList := by
  rw [List.mem_append]
  constructor
  · rintro ⟨role, htransmitted, hn⟩
    cases role with
    | bit i =>
      obtain ⟨hq, hbit⟩ := Option.ite_none_right_eq_some.mp hn
      exact ⟨hq, .inl (List.mem_of_getElem? hbit)⟩
    | sign =>
      obtain ⟨hq, hsign⟩ := Option.ite_none_right_eq_some.mp hn
      exact ⟨hq, .inr (Option.mem_toList.mpr hsign)⟩
    | raw => cases htransmitted
    | proxy => cases htransmitted
    | coefficient o => cases htransmitted
  · rintro ⟨hq, hbit | hsign⟩
    · obtain ⟨i, hi⟩ := List.getElem?_of_mem hbit
      exact ⟨.bit i, rfl, (if_pos hq).trans hi⟩
    · exact ⟨.sign, rfl, (if_pos hq).trans (Option.mem_toList.mp hsign)⟩

namespace Compile

/-- A channel of the name is requested as a bit or as a sign. -/
def RequestsBit (ns : Namespace) (hidden : Bool) (ps : List (Parameter α)) (n : String) : Prop :=
  ∃ p ∈ ps, ∃ role : Role, role.isTransmitted = true ∧ role.channel? ns hidden p = some n

variable [Scalar α]

section

variable {ns : Namespace} {hidden : Bool} {ps : List (Parameter α)} {n : String}
  (hroot : ns.root ≠ "") (plain : ∀ p ∈ ps, ns.generates p.name = false)

include hroot plain

theorem requestsBit_iff : RequestsBit ns hidden ps n ↔
    n ∈ (firstRequests ns hidden ps).map Request.name ∧ ns.carriesBit n = true := by
  constructor
  · rintro ⟨p, hp, role, htransmitted, hn⟩
    have hmem := (Role.mem_channelsOf_iff.mp ⟨role, htransmitted, hn⟩).2
    exact ⟨channel?_mem_requests hp hn, carriesBit_of_mem_channelsOf hroot hmem⟩
  · rintro ⟨hn, hbit⟩
    rcases mem_names_firstRequests.mp hn with rfl | ⟨p, hp, hn⟩
    · simp [Namespace.carriesBit_blendSet] at hbit
    rcases mem_names_requestsOf.mp hn with hn | hn
    · simp only [List.mem_cons, List.not_mem_nil, or_false] at hn
      rcases hn with rfl | rfl | rfl | rfl
      · have hgen := Namespace.generates_of_carriesBit hbit
        simp [plain p hp] at hgen
      · simp [Namespace.carriesBit_proxy] at hbit
      · simp [Namespace.carriesBit_coefficient] at hbit
      · simp [Namespace.carriesBit_coefficient] at hbit
    · exact ⟨p, hp, Role.mem_channelsOf_iff.mpr hn⟩

theorem forcedFlag_of_requestsBit (hn : RequestsBit ns hidden ps n) :
    Request.forcedFlag (firstRequests ns hidden ps) n = some true := by
  obtain ⟨hname, hbit⟩ := (requestsBit_iff hroot plain).mp hn
  have hall : ∀ q ∈ firstRequests ns hidden ps, q.name = n → q.synced = true ∧ q.forced = true := by
    intro q hq hqn
    rcases request_cases hroot plain (List.mem_append_left _ hq) with ⟨-, -, hset⟩ | ⟨hnot, -⟩
    · exact hset
    · simp [hqn, hbit] at hnot
  obtain ⟨q, hq, hqn⟩ := List.mem_map.mp hname
  exact Request.forcedFlag_eq_some ⟨q, hq, (hall q hq hqn).2, hqn⟩
    fun q hq hqn => (hall q hq hqn).1

/-- Apart from bits and parameters no flag is set. -/
theorem forcedFlag_other (hbit : ns.carriesBit n = false) (hn : n ∉ ps.map Parameter.name) :
    Request.forcedFlag (firstRequests ns hidden ps) n = none := by
  rw [Request.forcedFlag_eq_none_iff]
  rintro q hq hforced rfl
  rcases request_cases hroot plain (List.mem_append_left _ hq) with ⟨hyes, -⟩ | ⟨-, honly⟩
  · simp [hbit] at hyes
  · exact hn (honly (.inr hforced)).2

end

/-! ### Flags after a compilation -/

section

variable {h : Host α} {ps : List (Parameter α)} {o : CompileOptions} {c : Channel α}
  (hroot : o.names.root ≠ "") (plain : ∀ p ∈ ps, o.names.generates p.name = false)

include hroot plain

/-- A bit of the host is transmitted if it is requested: its flag is set, or cleared if it is stale.
-/
theorem synced_bit_kept (hc : c ∈ h.channels) (hbit : o.names.carriesBit c.name = true) :
    (c.flagged (registry h ps o).flags.get?).synced = true
      ↔ RequestsBit o.names o.hideBits ps c.name := by
  rw [Channel.flagged, get?_flags_registry (List.mem_map_of_mem hc)]
  by_cases hn : RequestsBit o.names o.hideBits ps c.name
  · have hstale : c.name ∉ stale h ps o := by
      intro hstale
      obtain ⟨-, -, -, -, -, hnot⟩ := mem_stale.mp hstale
      exact hnot ((requestsBit_iff hroot plain).mp hn).1
    rw [if_neg hstale, forcedFlag_of_requestsBit hroot plain hn]
    exact iff_of_true rfl hn
  · have hname : c.name ∉ (firstRequests o.names o.hideBits ps).map Request.name :=
      fun hname => hn ((requestsBit_iff hroot plain).mpr ⟨hname, hbit⟩)
    rw [Request.forcedFlag_eq_none hname]
    refine iff_of_false ?_ hn
    split
    · exact Bool.false_ne_true
    · next hstale => exact fun hsynced => hstale (mem_stale.mpr ⟨c, hc, rfl, hsynced, hbit, hname⟩)

theorem synced_other_kept (hc : c ∈ h.channels) (hbit : o.names.carriesBit c.name = false)
    (hn : c.name ∉ ps.map Parameter.name) :
    (c.flagged (registry h ps o).flags.get?).synced = c.synced := by
  have hstale : c.name ∉ stale h ps o := by
    intro hstale
    obtain ⟨-, -, -, -, hyes, -⟩ := mem_stale.mp hstale
    simp [hbit] at hyes
  rw [Channel.flagged, get?_flags_registry (List.mem_map_of_mem hc), if_neg hstale,
    forcedFlag_other hroot plain hbit hn]
  rfl

theorem synced_bit_created (hc : c ∈ (registry h ps o).created)
    (hbit : o.names.carriesBit c.name = true) :
    c.synced = true ∧ RequestsBit o.names o.hideBits ps c.name := by
  have hcreated := List.mem_map_of_mem (f := Channel.name) hc
  obtain ⟨hreq | hselector, hnew⟩ := creates_registry.mp (Registry.creates_iff.mpr hcreated)
  · have hn := (requestsBit_iff hroot plain).mpr ⟨hreq, hbit⟩
    have hflag := flagIn_created_registry (h := h) hnew (forcedFlag_of_requestsBit hroot plain hn)
    rw [Host.flagIn_of_mem (sound_registry h ps o).nodup hc] at hflag
    exact ⟨Option.some.inj hflag, hn⟩
  · simp [hselector, Namespace.carriesBit_selectorChannel] at hbit

theorem synced_other_created (hc : c ∈ (registry h ps o).created)
    (hbit : o.names.carriesBit c.name = false) (hn : c.name ∉ ps.map Parameter.name) :
    c.synced = false := by
  rw [← Bool.not_eq_true]
  intro hsynced
  obtain ⟨q, hq, hname, hsent⟩ := (back_registry c hc).synced hsynced
  rcases request_cases hroot plain hq with ⟨hyes, -⟩ | ⟨-, honly⟩
  · simp [hname, hbit] at hyes
  · exact hn (hname ▸ (honly (.inl hsent)).2)

end

end Compile

/-! ### Records of generated channels -/

namespace Registry

variable [Scalar α] {ns : Namespace} {n : String}

/-- Nothing is recorded for a generated channel, nor for one that is not there. -/
theorem get?_overridesOf_foldl_eq {h : Host α} (fs : List (String × Bool))
    (hn : ns.generates n = true ∨ Host.flagIn n h.channels = none) :
    ((fs.foldl (applyFlag ns) h).overridesOf ns.root).get? n
      = (h.overridesOf ns.root).get? n := by
  induction fs generalizing h with
  | nil => rfl
  | cons f fs ih =>
    have hnext : ns.generates n = true ∨ Host.flagIn n (applyFlag ns h f).channels = none := by
      refine hn.imp id fun habsent => ?_
      rw [channels_applyFlag, Host.flagIn_setSyncedIn, habsent]
      split <;> rfl
    rw [List.foldl_cons, ih hnext, overridesOf_applyFlag]
    split
    · rfl
    · next w hw =>
      split
      · rfl
      · next hcase =>
        apply Table.get?_insert_of_ne
        rintro rfl
        rcases hn with hgen | habsent
        · exact hcase (.inr (.inl hgen))
        · rw [habsent] at hw
          cases hw

end Registry

/-! ### Compilations -/

namespace Compile

variable [Scalar α]

/-- What a compilation makes of the channels of a host and of the recorded flags. -/
structure Reflags (ns : Namespace) (hidden : Bool) (ps : List (Parameter α)) (h h' : Host α) :
    Prop where
  /-- The channels of the host are kept but for their flags, and new ones stand behind them. -/
  channels : ∃ flags added, h'.channels = h.channels.map (Channel.flagged flags) ++ added
  nodup : h'.channelNames.Nodup
  parameters : ∀ p ∈ ps, Host.flagIn p.name h'.channels = some !p.isQuantized
  requested : ∀ n, RequestsBit ns hidden ps n → n ∈ h'.channelNames
  bits : ∀ c ∈ h'.channels, ns.carriesBit c.name = true →
    (c.synced = true ↔ RequestsBit ns hidden ps c.name)
  others : ∀ c ∈ h'.channels, ns.carriesBit c.name = false → c.name ∉ ps.map Parameter.name →
    c.synced = (Host.flagIn c.name h.channels).getD false
  /-- The flag that a channel of the user had is recorded when it changes for the first time. -/
  recorded : ∀ n, (h'.overridesOf ns.root).get? n = ((h.overridesOf ns.root).get? n).or
    (if ns.generates n = false ∧ Host.flagIn n h'.channels ≠ Host.flagIn n h.channels
      then Host.flagIn n h.channels else none)
  elsewhere : ∀ root ≠ ns.root, h'.overrides.get? root = h.overrides.get? root

variable {h h' : Host α} {ps : List (Parameter α)} {o : CompileOptions} {r : CompileReport}

/-- The flag that a channel of the user has afterwards, and what is recorded of it. -/
theorem recorded_plain (nodup : h.channelNames.Nodup) (hc : compile h ps o = .ok (h', r))
    {n : String} (plain : o.names.generates n = false) (hn : n ∈ h.channelNames) :
    (h'.overridesOf o.names.root).get? n = ((h.overridesOf o.names.root).get? n).or
      (if o.names.generates n = false ∧ Host.flagIn n h'.channels ≠ Host.flagIn n h.channels
        then Host.flagIn n h.channels else none) := by
  obtain ⟨d, hd, rfl⟩ := List.mem_map.mp hn
  have hold := Host.flagIn_of_mem nodup hd
  have hrecord := get?_overridesOf_compile hc plain hold
  obtain ⟨b, cs, hv, -, rfl, -⟩ := compile_ok_iff.mp hc
  have hroot := root_ne_of_validate hv
  have admits := admits_of_validate hv
  have hnow : Host.flagIn d.name (outcome h ps o cs).1.channels
      = some ((wanted? ps d.name).getD d.synced) := by
    rw [← get?_flags_plain hroot admits hn plain]
    apply Host.flagIn_of_mem (nodup_channelNames_outcome hroot admits cs nodup)
      (c := d.flagged (registry h ps o).flags.get?)
    rw [channels_outcome hroot admits cs nodup]
    exact List.mem_append_left _ (List.mem_map_of_mem hd)
  rw [hrecord, hnow, hold, overwritten?_eq]
  simp [plain]

theorem recorded_other (hc : compile h ps o = .ok (h', r)) {n : String}
    (other : ¬ (o.names.generates n = false ∧ n ∈ h.channelNames)) :
    (h'.overridesOf o.names.root).get? n = ((h.overridesOf o.names.root).get? n).or
      (if o.names.generates n = false ∧ Host.flagIn n h'.channels ≠ Host.flagIn n h.channels
        then Host.flagIn n h.channels else none) := by
  have hnone : (if o.names.generates n = false ∧
      Host.flagIn n h'.channels ≠ Host.flagIn n h.channels
      then Host.flagIn n h.channels else none) = none := by
    rw [ite_eq_right_iff]
    rintro ⟨hplain, -⟩
    exact Host.flagIn_eq_none_iff.mpr fun hn => other ⟨hplain, hn⟩
  rw [hnone, Option.or_none]
  obtain ⟨b, cs, hv, -, rfl, -⟩ := compile_ok_iff.mp hc
  rw [outcome_fst (root_ne_of_validate hv) (admits_of_validate hv)]
  apply Registry.get?_overridesOf_foldl_eq
  rw [Host.flagIn_eq_none_iff]
  by_contra hboth
  rw [not_or, Bool.not_eq_true, not_not] at hboth
  exact other hboth

/-- Whatever earlier lists have left, the flags after a compilation are those of its own list. -/
theorem reflags_of_compile (nodup : h.channelNames.Nodup)
    (plain : ∀ p ∈ ps, o.names.generates p.name = false)
    (hc : compile h ps o = .ok (h', r)) : Reflags o.names o.hideBits ps h h' := by
  obtain ⟨b, cs, hv, -, hh', -⟩ := compile_ok_iff.mp hc
  have hroot := root_ne_of_validate hv
  have admits := admits_of_validate hv
  have hchannels : h'.channels = _ := hh' ▸ channels_outcome hroot admits cs nodup
  constructor
  case channels => exact ⟨_, _, hchannels⟩
  case nodup => exact hh' ▸ nodup_channelNames_outcome hroot admits cs nodup
  case parameters =>
    intro p hp
    rw [hh']
    apply flagIn_outcome_of_forcedFlag hroot admits
    rw [forcedFlag_firstRequests hroot admits.nodup (plain p hp), wanted?_of_mem admits.nodup hp]
  case requested =>
    intro n hn
    rw [hh']
    exact mem_channelNames_outcome hroot admits cs (.inl ((requestsBit_iff hroot plain).mp hn).1)
  case bits =>
    intro c hc hbit
    rcases List.mem_append.mp (hchannels ▸ hc) with hc | hc
    · obtain ⟨d, hd, rfl⟩ := List.mem_map.mp hc
      exact synced_bit_kept hroot plain hd hbit
    · obtain ⟨hsynced, hn⟩ := synced_bit_created hroot plain hc hbit
      exact iff_of_true hsynced hn
  case others =>
    intro c hc hbit hn
    rcases List.mem_append.mp (hchannels ▸ hc) with hc | hc
    · obtain ⟨d, hd, rfl⟩ := List.mem_map.mp hc
      rw [synced_other_kept hroot plain hd hbit hn, Channel.name_flagged,
        Host.flagIn_of_mem nodup hd]
      rfl
    · have hcreated := List.mem_map_of_mem (f := Channel.name) hc
      have hnew := (creates_registry.mp (Registry.creates_iff.mpr hcreated)).2
      rw [synced_other_created hroot plain hc hbit hn, Host.flagIn_eq_none_iff.mpr hnew]
      rfl
  case recorded =>
    intro n
    by_cases hplain : o.names.generates n = false ∧ n ∈ h.channelNames
    · exact recorded_plain nodup hc hplain.1 hplain.2
    · exact recorded_other hc hplain
  case elsewhere =>
    intro root hne
    have herase : h'.overrides.erase o.names.root = h.overrides.erase o.names.root := by
      rw [hh', outcome_fst hroot admits]
      exact Registry.erase_overrides_foldl _ _
    have hget := congrArg (fun t => t.get? root) herase
    simpa only [Table.get?_erase, if_neg hne] using hget

theorem reflags_of_compile_sample : ∃ h' r,
    compile Sample.host Sample.parameters Sample.options = .ok (h', r) ∧
    Reflags Sample.options.names true Sample.parameters Sample.host h' := by
  obtain ⟨⟨h', r⟩, hc⟩ := exists_of_isOk
    (show (compile Sample.host Sample.parameters Sample.options).isOk = true by decide +kernel)
  exact ⟨h', r, hc, reflags_of_compile (by decide +kernel) (by decide +kernel) hc⟩

end Compile

end BlendGraph
