import BlendGraph.Proofs.Compile.GeneratedClips
import BlendGraph.Proofs.Naming.ClipRecognition

/-!
# What clips are made for

Each clip of a generated layer is made for a bound of a filter or for a state of a bit, and its name
tells which one, but for the separators in the name of the parameter.
-/

set_option autoImplicit false

namespace BlendGraph

variable {α : Type} [Scalar α] [LawfulScalar α]

/-! ### Success -/

namespace HeldClip

theorem exists_record? {c : HeldClip α} (h : Scalar.isFinite c.value = true) :
    ∃ d, record? c = .ok d := by
  unfold record?
  cases hc : Curve.constant? c.value with
  | ok curve => exact ⟨_, rfl⟩
  | error e =>
    rw [Curve.constant?, Curve.ofKeys?_eq_error_iff] at hc
    simp [Curve.fault?, Curve.faultFrom?, h, LawfulScalar.isFinite_zero] at hc

theorem exists_recordAll? {cs : List (HeldClip α)}
    (h : ∀ c ∈ cs, Scalar.isFinite c.value = true) : ∃ ds, recordAll? cs = .ok ds := by
  induction cs with
  | nil => exact ⟨[], rfl⟩
  | cons c cs ih =>
    obtain ⟨hc, hcs⟩ := List.forall_mem_cons.mp h
    obtain ⟨d, hd⟩ := exists_record? hc
    obtain ⟨ds, hds⟩ := ih hcs
    exact ⟨d :: ds, by rw [recordAll?_cons, hd, hds]; rfl⟩

end HeldClip

namespace Decoder

omit [LawfulScalar α]

theorem weights?_eq {k : Nat} (h : isWidth k = true) : weights? (α := α) k
    = some ((List.range k).map fun i => Scalar.ratio (Nat.pow 2 i) (Nat.pow 2 k - 1)) := by
  have hpos : max k 1 = k := by
    simp [isWidth] at h
    omega
  have hsome : ∀ is : List Nat, (∀ i ∈ is, i < k) → is.mapM (weight? (α := α) · k)
      = some (is.map fun i => Scalar.ratio (Nat.pow 2 i) (Nat.pow 2 k - 1)) := by
    intro is
    induction is with
    | nil => intro _; rfl
    | cons i is ih =>
      intro his
      obtain ⟨hi, his⟩ := List.forall_mem_cons.mp his
      have hweight : weight? (α := α) i k
          = some (Scalar.ratio (Nat.pow 2 i) (Nat.pow 2 k - 1)) := by
        simp [weight?, h, hi]
      rw [List.mapM_cons, hweight, ih his]
      rfl
  rw [weights?, hpos]
  exact hsome _ fun i hi => List.mem_range.mp hi

/-- A bit of a decoder with its channel and its weight. -/
def wire (ns : Namespace) (hidden : Bool) (p : Parameter α) (i : Nat) : Nat × String × α :=
  (i, given hidden (ns.bit p.name i), Scalar.ratio (Nat.pow 2 i) (Nat.pow 2 p.bits - 1))

theorem wires_eq (ns : Namespace) {p : Parameter α} (h : isWidth p.bits = true) (hidden : Bool) :
    wires p (channelsOf ns p hidden) = (List.range p.bits).map (wire ns hidden p) := by
  rw [wires, weights?_eq h, Option.getD_some, channelsOf, List.zip_map']
  nth_rewrite 1 [← List.map_id' (List.range p.bits)]
  exact List.zip_map'

end Decoder

/-! ### What clips are made for -/

omit [LawfulScalar α] in
/-- A clip that the builders of one parameter put down. -/
inductive MadeFor (ns : Namespace) (host : String) (p : Parameter α) : HeldClip α → Prop
  | filter (high : Bool) : MadeFor ns host p
    ⟨ClipName.smoother p.name (Filter.bound high : α) host, ns.proxy p.name, Filter.bound high⟩
  | bit (i : Nat) (hi : i < p.bits) (state : Option Bool) : MadeFor ns host p
    ⟨ClipName.decoder p.name state.isSome i (Decoder.stateValue (α := α) p.bits i state) host,
      p.name, Decoder.stateValue p.bits i state⟩

namespace MadeFor

variable {ns : Namespace} {host : String} {p q : Parameter α} {c d : HeldClip α}

theorem isFinite (hc : MadeFor ns host p c) (hbits : p.bits ≤ maxBits) :
    Scalar.isFinite c.value = true := by
  cases hc with
  | filter high =>
    cases high with
    | false => exact LawfulScalar.isFinite_neg_one
    | true => exact LawfulScalar.isFinite_one
  | bit i hi state =>
    cases state with
    | none => exact LawfulScalar.isFinite_zero
    | some negative => exact LawfulScalar.isFinite_weight p.bits hbits i hi negative

/-- Clips of one name are made for parameters of one name, but for the separators. -/
theorem withoutSeparators_eq (hc : MadeFor ns host p c) (hd : MadeFor ns host q d)
    (h : c.name = d.name) :
    ClipName.withoutSeparators p.name = ClipName.withoutSeparators q.name := by
  cases hc with
  | filter =>
    cases hd with
    | filter => exact (ClipName.smoother_inj h).1
    | bit => exact absurd h ClipName.smoother_ne_decoder
  | bit =>
    cases hd with
    | filter => exact absurd h.symm ClipName.smoother_ne_decoder
    | bit => exact (ClipName.decoder_inj h).1

theorem stateValue_inj {k i : Nat} (hk : k ≤ maxBits) (hi : i < k) {s t : Option Bool}
    (hset : s.isSome = t.isSome) (htext : Scalar.text (Decoder.stateValue (α := α) k i s)
      = Scalar.text (Decoder.stateValue (α := α) k i t)) : s = t := by
  have hne := LawfulScalar.text_weight_ne (α := α) k hk i hi
  cases s with
  | none => cases t with
    | none => rfl
    | some n => cases hset
  | some m => cases t with
    | none => cases hset
    | some n =>
      cases m <;> cases n
      · rfl
      · exact absurd htext hne
      · exact absurd htext.symm hne
      · rfl

/-- The clips of one parameter are told apart by their names. -/
theorem eq_of_name_eq (hbits : p.bits ≤ maxBits) (hc : MadeFor ns host p c)
    (hd : MadeFor ns host p d) (h : c.name = d.name) : c = d := by
  cases hc with
  | filter =>
    cases hd with
    | filter =>
      obtain ⟨-, rfl⟩ := ClipName.smoother_inj h
      rfl
    | bit => exact absurd h ClipName.smoother_ne_decoder
  | bit i hi =>
    cases hd with
    | filter => exact absurd h.symm ClipName.smoother_ne_decoder
    | bit =>
      obtain ⟨-, hset, rfl, htext⟩ := ClipName.decoder_inj h
      obtain rfl := stateValue_inj hbits hi hset htext
      rfl

end MadeFor

namespace Compile

variable {ns : Namespace} {host : String} {hidden : Bool} {ps : List (Parameter α)}

omit [LawfulScalar α] in
theorem madeFor_of_mem_clipsOf {p : Parameter α} {c : HeldClip α}
    (h : c ∈ Filter.clipsOf host p.name (ns.proxy p.name)) : MadeFor ns host p c := by
  simp only [Filter.clipsOf, List.mem_cons, List.not_mem_nil, or_false] at h
  rcases h with rfl | rfl
  · exact .filter false
  · exact .filter true

omit [LawfulScalar α] in
theorem madeFor_of_mem_decoderClips {p : Parameter α} (hbits : p.bits ≤ maxBits)
    {c : HeldClip α} (h : c ∈ decoderClips ns host hidden p) : MadeFor ns host p c := by
  obtain ⟨hq, negative, w, hw, hc⟩ := mem_decoderClips h
  have hwidth : Decoder.isWidth p.bits = true := by
    simp only [Parameter.isQuantized, decide_eq_true_eq] at hq
    simp [Decoder.isWidth, hq, hbits]
  rw [Decoder.wires_eq ns hwidth] at hw
  obtain ⟨i, hi, rfl⟩ := List.mem_map.mp hw
  simp only [Decoder.bitClips, List.mem_cons, List.not_mem_nil, or_false] at hc
  rcases hc with rfl | rfl
  · exact .bit i (List.mem_range.mp hi) none
  · exact .bit i (List.mem_range.mp hi) (some negative)

omit [LawfulScalar α] in
theorem exists_madeFor (admits : Admits ns ps) {c : HeldClip α}
    (h : c ∈ heldClips ns host hidden ps) : ∃ p ∈ ps, MadeFor ns host p c := by
  rw [heldClips_eq, List.mem_append] at h
  rcases h with h | h
  · obtain ⟨p, hp, hc⟩ := List.mem_flatMap.mp h
    exact ⟨p, hp, madeFor_of_mem_decoderClips (bits_le_of_fault? (admits.sound p hp)) hc⟩
  · obtain ⟨-, -, hc⟩ := List.mem_flatMap.mp h
    obtain ⟨p, hp, hc⟩ := List.mem_flatMap.mp hc
    exact ⟨p, hp, madeFor_of_mem_clipsOf hc⟩

/-- A list that passes the checks compiles into every host. -/
theorem exists_compile {h : Host α} {o : CompileOptions} {b : Budget}
    (hv : validate ps o = .ok b) :
    ∃ cs r, HeldClip.recordAll? (heldClips o.names h.id o.hideBits ps) = .ok cs ∧
      compile h ps o = .ok ((outcome h ps o cs).1, r) := by
  have admits := admits_of_validate hv
  have hfinite : ∀ c ∈ heldClips o.names h.id o.hideBits ps, Scalar.isFinite c.value = true := by
    intro c hc
    obtain ⟨p, hp, hmade⟩ := exists_madeFor admits hc
    exact hmade.isFinite (bits_le_of_fault? (admits.sound p hp))
  obtain ⟨cs, hcs⟩ := HeldClip.exists_recordAll? hfinite
  exact ⟨cs, _, hcs, compile_ok_iff.mpr ⟨b, cs, hv, hcs, rfl, rfl⟩⟩

end Compile

end BlendGraph
