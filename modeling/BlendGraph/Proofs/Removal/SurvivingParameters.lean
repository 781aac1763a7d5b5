import BlendGraph.Proofs.Compile.RequestedChannels
import BlendGraph.Proofs.Naming.ClipOrigins
import BlendGraph.Proofs.Removal.CleanHosts

/-!
# What survives a removal

A removal takes out the channels whose plain or revealed name carries the root. The checks of a
compilation go by the plain names only, so that a parameter with the hidden root in its name is
admitted, and its own channel is taken out with the generated ones.
-/

set_option autoImplicit false

namespace BlendGraph

variable {α : Type} [Scalar α]

namespace Removal

/-- A removal takes out the generated channels and leaves the others where they are. -/
theorem channelNames_removeAll (g : Host α) {ns : Namespace} (hroot : ns.root ≠ "") :
    (removeAll g ns.root).1.channelNames = g.channelNames.filter fun n => !ns.generates n := by
  have hempty : ns.root.isEmpty = false := by simpa using hroot
  have hkept : (removeAll g ns.root).1.channels
      = Host.setAll ((revertReferences (removeArtifacts g ns).1 ns).1.overridesOf ns.root).entries
          (g.channels.filter fun c => !ns.generates c.name) := by
    rw [removeAll, hempty, if_neg Bool.false_ne_true]
    change (restoreSync (revertReferences (removeArtifacts g ns).1 ns).1 ns).1.channels = _
    rw [restoreSync, restoreFlags_fst]
    rfl
  rw [Host.channelNames, hkept, Host.map_name_setAll, Host.channelNames, List.filter_map]
  rfl

end Removal

namespace Compile

variable [LawfulScalar α]

omit [LawfulScalar α] in
/-- Of an admitted parameter it is only the hidden root that makes its name a generated one. -/
theorem Admits.generates_eq {ns : Namespace} {ps : List (Parameter α)} (admits : Admits ns ps)
    (hroot : ns.root ≠ "") {p : Parameter α} (hp : p ∈ ps) :
    ns.generates p.name = Text.contains p.name (Text.hide ns.root) := by
  rw [Namespace.generates, admits.untagged p hp, Bool.false_or, Bool.eq_iff_iff,
    Namespace.tags_reveal_iff hroot]

/-- Every list that passes the checks compiles. A removal afterwards leaves the channel of a
parameter where it is if and only if its name does not have the hidden root in it. -/
theorem survives_iff {h : Host α} {ps : List (Parameter α)} {o : CompileOptions} {b : Budget}
    (hv : validate ps o = .ok b) : ∃ h' r, compile h ps o = .ok (h', r) ∧ ∀ p ∈ ps,
      p.name ∈ h'.channelNames ∧
      (p.name ∈ (Removal.removeAll h' o.names.root).1.channelNames
        ↔ Text.contains p.name (Text.hide o.names.root) = false) := by
  have hroot := root_ne_of_validate hv
  have admits := admits_of_validate hv
  obtain ⟨cs, r, hcs, hc⟩ := exists_compile (h := h) hv
  refine ⟨_, r, hc, fun p hp => ?_⟩
  have hmem : p.name ∈ (outcome h ps o cs).1.channelNames :=
    mem_channelNames_outcome hroot admits cs (.inl (name_mem_requests hp))
  refine ⟨hmem, ?_⟩
  rw [Removal.channelNames_removeAll _ hroot, List.mem_filter, and_iff_right hmem,
    admits.generates_eq hroot hp, Bool.not_eq_true']

theorem survives_sample : ∃ h' r,
    compile Sample.host Sample.parameters Sample.options = .ok (h', r) ∧
    ∀ p ∈ Sample.parameters, p.name ∈ (Removal.removeAll h' "OSCm").1.channelNames := by
  have hok : (validate Sample.parameters Sample.options).isOk = true := by decide +kernel
  have hapart : ∀ p ∈ Sample.parameters, Text.contains p.name (Text.hide "OSCm") = false := by
    decide +kernel
  obtain ⟨b, hv⟩ := exists_of_isOk hok
  obtain ⟨h', r, hc, hsurvives⟩ := survives_iff (h := Sample.host) hv
  exact ⟨h', r, hc, fun p hp => (hsurvives p hp).2.mpr (hapart p hp)⟩

end Compile

/-- A host with one channel. -/
def Sample.lips : Host Float32 :=
  { Host.empty "demo" with channels := [⟨"Mouth/Lips", .continuous, 0, true⟩] }

namespace Compile

/-- The root `ed` is hidden as `ut`, so that a removal takes `Mouth/Lips` for a generated channel.
-/
theorem parameter_removed : ∃ h' r,
    compile Sample.lips [.ofName "Mouth/Lips"] ⟨⟨"ed"⟩, false, 256⟩ = .ok (h', r) ∧
    "Mouth/Lips" ∈ h'.channelNames ∧
    "Mouth/Lips" ∉ (Removal.removeAll h' "ed").1.channelNames := by
  have hremoved : (compile Sample.lips [.ofName "Mouth/Lips"] ⟨⟨"ed"⟩, false, 256⟩).toOption.any
      fun x => decide ("Mouth/Lips" ∈ x.1.channelNames ∧
        "Mouth/Lips" ∉ (Removal.removeAll x.1 "ed").1.channelNames) := by
    decide +kernel
  cases hc : compile Sample.lips [.ofName "Mouth/Lips"] ⟨⟨"ed"⟩, false, 256⟩ with
  | error e => rw [hc] at hremoved; cases hremoved
  | ok x =>
    obtain ⟨h', r⟩ := x
    rw [hc] at hremoved
    exact ⟨h', r, rfl, of_decide_eq_true hremoved⟩

end Compile

end BlendGraph
