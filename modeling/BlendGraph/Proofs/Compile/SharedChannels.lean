import BlendGraph.Proofs.Compile.LeafClips
import BlendGraph.Proofs.Compile.ParameterChannels

/-!
# Shared channels

No two roles of the parameters of a list share a channel if and only if the names are apart.
-/

set_option autoImplicit false

namespace BlendGraph

variable {α : Type}

namespace Compile

/-- No channel is registered for two parameters or roles. -/
def ChannelsApart (ns : Namespace) (hidden : Bool) (ps : List (Parameter α)) : Prop :=
  ∀ p ∈ ps, ∀ q ∈ ps, ∀ r s c, Role.channel? ns hidden p r = some c →
    Role.channel? ns hidden q s = some c → p = q ∧ r = s

/-- No name is that of another parameter with a digit that makes their bits overlap, and none is
that of a hidden channel. -/
structure NamesApart (ns : Namespace) (hidden : Bool) (ps : List (Parameter α)) : Prop where
  three : ∀ p ∈ ps, ∀ q ∈ ps, q.name = p.name ++ "3" → ¬ (5 < p.bits ∧ 1 < q.bits)
  six : ∀ p ∈ ps, ∀ q ∈ ps, q.name = p.name ++ "6" → ¬ (6 < p.bits ∧ 2 < q.bits)
  unhidden : hidden = true → ∀ p ∈ ps, ∀ q ∈ ps, ∀ r : Role, r.Has p → r.isTransmitted = true →
    q.name ≠ Text.hide (r.plainName ns p.name)

section

variable {ns : Namespace} {hidden : Bool} {ps : List (Parameter α)}

theorem not_overlaps (h : ChannelsApart ns hidden ps) {p q : Parameter α} (hp : p ∈ ps)
    (hq : q ∈ ps) {r s : Role} (hr : r.Has p) (hs : s.Has q) :
    ¬ Role.Overlaps p.name r q.name s := by
  intro hover
  obtain ⟨hrt, hst⟩ := hover.isTransmitted
  have hrc := Role.channel?_of_has ns hidden hr
  have hsc := Role.channel?_of_has ns hidden hs
  rw [hover.plainName_eq, hrt, ← hst] at hrc
  exact hover.ne (congrArg Parameter.name (h p hp q hq r s _ hrc hsc).1)

theorem namesApart_of_channelsApart (h : ChannelsApart ns hidden ps) :
    NamesApart ns hidden ps where
  three p hp q hq hname hbits := not_overlaps (r := .bit 5) (s := .bit 1) h hp hq hbits.1 hbits.2
    (.inl ⟨rfl, rfl, hname⟩)
  six p hp q hq hname hbits := not_overlaps (r := .bit 6) (s := .bit 2) h hp hq hbits.1 hbits.2
    (.inr ⟨rfl, rfl, hname⟩)
  unhidden hhidden p hp q hq r hr ht hname := by
    have hrc := Role.channel?_of_has ns hidden hr
    have hqc := Role.channel?_of_has (p := q) (r := .raw) ns hidden trivial
    rw [hhidden, ht] at hrc
    rw [hhidden] at hqc
    have hsame : Decoder.given (true && Role.raw.isTransmitted) (Role.raw.plainName ns q.name)
        = Decoder.given (true && true) (r.plainName ns p.name) := hname
    rw [hsame] at hqc
    subst hhidden
    rw [(h p hp q hq r .raw _ hrc hqc).2] at ht
    cases ht

variable [Scalar α]

/-- The channel of a parameter itself is not generated. -/
theorem name_ne_given (hroot : ns.root ≠ "") (admits : Admits ns ps) (h : NamesApart ns hidden ps)
    {p q : Parameter α} (hp : p ∈ ps) (hq : q ∈ ps) {s : Role} (hraw : s ≠ .raw)
    (hs : s.Has q) :
    p.name ≠ Decoder.given (hidden && s.isTransmitted) (s.plainName ns q.name) := by
  intro hname
  cases hgiven : hidden && s.isTransmitted with
  | false =>
    rw [hgiven] at hname
    exact admits.name_ne hp (Role.tags_plainName hroot hraw _) hname
  | true =>
    rw [hgiven] at hname
    obtain ⟨hhidden, ht⟩ := Bool.and_eq_true_iff.mp hgiven
    exact h.unhidden hhidden q hq p hp s hs ht hname

theorem plainName_eq_of_given_eq (hroot : ns.root ≠ "") {x y : String} {r s : Role}
    (hr : r ≠ .raw) (hs : s ≠ .raw) {b b' : Bool}
    (h : Decoder.given b (r.plainName ns x) = Decoder.given b' (s.plainName ns y)) :
    r.plainName ns x = s.plainName ns y := by
  rw [Role.plainName_of_ne hr, Role.plainName_of_ne hs] at h ⊢
  cases b <;> cases b'
  · exact h
  · exact absurd h.symm (Namespace.hide_channel_ne hroot _ _ _ _)
  · exact absurd h (Namespace.hide_channel_ne hroot _ _ _ _)
  · exact Text.hide_injective h

theorem channelsApart_of_namesApart (hroot : ns.root ≠ "") (admits : Admits ns ps)
    (h : NamesApart ns hidden ps) : ChannelsApart ns hidden ps := by
  intro p hp q hq r s c hrc hsc
  obtain ⟨hr, rfl⟩ := Role.channel?_eq_some_iff.mp hrc
  obtain ⟨hs, hname⟩ := Role.channel?_eq_some_iff.mp hsc
  have hbits : ∀ p ∈ ps, p.bits ≤ maxBits := fun p hp => bits_le_of_fault? (admits.sound p hp)
  have same {p q : Parameter α} (hp : p ∈ ps) (hq : q ∈ ps) (hpq : p.name = q.name) : p = q :=
    List.inj_on_of_nodup_map admits.nodup hp hq hpq
  have apart {p q : Parameter α} {r s : Role} (hp : p ∈ ps) (hq : q ∈ ps) (hr : r.Has p)
      (hs : s.Has q) : ¬ Role.Overlaps p.name r q.name s := by
    rintro (⟨rfl, rfl, heq⟩ | ⟨rfl, rfl, heq⟩)
    · exact h.three p hp q hq heq ⟨hr, hs⟩
    · exact h.six p hp q hq heq ⟨hr, hs⟩
  by_cases hraw : r = .raw
  · subst hraw
    by_cases hraw' : s = .raw
    · subst hraw'
      rw [Role.given_raw, Role.given_raw] at hname
      exact ⟨(same hq hp hname).symm, rfl⟩
    · have hne := name_ne_given hroot admits h hp hq hraw' hs
      rw [hname, Role.given_raw] at hne
      exact absurd rfl hne
  · by_cases hraw' : s = .raw
    · subst hraw'
      have hne := name_ne_given hroot admits h hq hp hraw hr
      rw [← hname, Role.given_raw] at hne
      exact absurd rfl hne
    · have hplain := plainName_eq_of_given_eq hroot hraw hraw' hname.symm
      rcases Role.plainName_inj hraw hraw' hr hs (hbits p hp) (hbits q hq) hplain with
        ⟨heq, hrole⟩ | hover | hover
      · exact ⟨same hp hq heq, hrole⟩
      · exact absurd hover (apart hp hq hr hs)
      · exact absurd hover (apart hq hp hs hr)

/-- The channels of all roles are requested. -/
theorem channel?_mem_requests {p : Parameter α} (hp : p ∈ ps) {r : Role} {c : String}
    (h : r.channel? ns hidden p = some c) :
    c ∈ (firstRequests ns hidden ps).map Request.name := by
  refine mem_names_firstRequests.mpr (.inr ⟨p, hp, mem_names_requestsOf.mpr ?_⟩)
  cases r with
  | raw =>
    cases h
    exact .inl (by simp [Filter.channelsOf])
  | proxy =>
    cases h
    exact .inl (by simp [Filter.channelsOf])
  | coefficient o =>
    cases h
    cases o <;> exact .inl (by simp [Filter.channelsOf, FilterChannels.coefficient])
  | bit i =>
    simp only [Role.channel?] at h
    split at h
    · next hq => exact .inr ⟨hq, List.mem_append_left _ (List.mem_of_getElem? h)⟩
    · cases h
  | sign =>
    simp only [Role.channel?] at h
    split at h
    · next hq => exact .inr ⟨hq, List.mem_append_right _ (Option.mem_toList.mpr h)⟩
    · cases h

end

/-- Every list that passes the checks compiles, and registers a channel for each role of each
parameter. No two of them share one if and only if the names are apart. -/
theorem channelsApart_iff {h : Host Float32} {ps : List (Parameter Float32)} {o : CompileOptions}
    {b : Budget} (hv : validate ps o = .ok b) : ∃ h' r, compile h ps o = .ok (h', r) ∧
      (∀ p ∈ ps, ∀ role c, Role.channel? o.names o.hideBits p role = some c →
        c ∈ r.created ++ r.reused ∧ c ∈ h'.channelNames) ∧
      (ChannelsApart o.names o.hideBits ps ↔ NamesApart o.names o.hideBits ps) := by
  have hroot := root_ne_of_validate hv
  have admits := admits_of_validate hv
  obtain ⟨cs, r, hcs, hc⟩ := exists_compile (h := h) hv
  refine ⟨_, r, hc, fun p hp role c hchannel => ?_, namesApart_of_channelsApart,
    channelsApart_of_namesApart hroot admits⟩
  have hreq := channel?_mem_requests hp hchannel
  obtain ⟨b', cs', -, -, -, rfl⟩ := compile_ok_iff.mp hc
  refine ⟨?_, mem_channelNames_outcome hroot admits cs (.inl hreq)⟩
  have hrequested := Registry.isRequested_iff.mp (isRequested_registry (h := h).mpr (.inl hreq))
  rw [Registry.creates_iff] at hrequested
  exact List.mem_append.mpr hrequested.symm

theorem channelsApart_sample : ∃ h' r,
    compile Sample.host Sample.parameters ⟨⟨"OSCm"⟩, false, 16⟩ = .ok (h', r) ∧
    (∀ p ∈ Sample.parameters, ∀ role c, Role.channel? ⟨"OSCm"⟩ false p role = some c →
      c ∈ r.created ++ r.reused ∧ c ∈ h'.channelNames) ∧
    ChannelsApart ⟨"OSCm"⟩ false Sample.parameters := by
  have hok : (validate Sample.parameters ⟨⟨"OSCm"⟩, false, 16⟩).isOk = true := by decide +kernel
  have happart : NamesApart ⟨"OSCm"⟩ false Sample.parameters :=
    ⟨by decide +kernel, by decide +kernel, nofun⟩
  cases hv : validate Sample.parameters ⟨⟨"OSCm"⟩, false, 16⟩ with
  | error e => rw [hv] at hok; cases hok
  | ok b =>
    obtain ⟨h', r, hc, hregistered, hiff⟩ := channelsApart_iff (h := Sample.host) hv
    exact ⟨h', r, hc, hregistered, hiff.mpr happart⟩

/-- Bit 5 of `Jump` is bit 1 of `Jump3`. -/
theorem channels_shared : ∃ h' r,
    compile (.empty "t")
      [(Parameter.ofName "Jump").withBits 6 false, (Parameter.ofName "Jump3").withBits 2 false]
      ⟨⟨"OSCm"⟩, false, 256⟩ = .ok ((h', r) : Host Float32 × CompileReport) ∧
    Role.channel? ⟨"OSCm"⟩ false ((Parameter.ofName (α := Float32) "Jump").withBits 6 false)
      (.bit 5) = some "OSCm/Binary/Jump32" ∧
    Role.channel? ⟨"OSCm"⟩ false ((Parameter.ofName (α := Float32) "Jump3").withBits 2 false)
      (.bit 1) = some "OSCm/Binary/Jump32" := by
  have hok : (compile (.empty "t")
      [(Parameter.ofName "Jump").withBits 6 false, (Parameter.ofName "Jump3").withBits 2 false]
      ⟨⟨"OSCm"⟩, false, 256⟩ : Except (CompileError Float32) _).isOk = true := by decide +kernel
  cases hc : compile (α := Float32) (.empty "t")
      [(Parameter.ofName "Jump").withBits 6 false, (Parameter.ofName "Jump3").withBits 2 false]
      ⟨⟨"OSCm"⟩, false, 256⟩ with
  | error e => rw [hc] at hok; cases hok
  | ok x => exact ⟨x.1, x.2, rfl, by decide +kernel, by decide +kernel⟩

end Compile

end BlendGraph
