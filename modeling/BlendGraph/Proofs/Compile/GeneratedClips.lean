import BlendGraph.Proofs.Compile.Outcome

/-!
# Generated clips

The clips of a generated layer: which there are, and that their names tell that they are generated.
-/

set_option autoImplicit false

namespace BlendGraph

variable {α : Type} [Scalar α]

namespace ClipName

theorem suffix_smoother (parameter : String) (bound : α) (host : String) :
    (smootherEnd host).toList <:+ (smoother parameter bound host).toList := by
  rw [smoother, String.toList_append]
  exact List.suffix_append _ _

theorem suffix_decoder (parameter : String) (set : Bool) (i : Nat) (weight : α) (host : String) :
    (decoderEnd host).toList <:+ (decoder parameter set i weight host).toList := by
  rw [decoder, String.toList_append]
  exact List.suffix_append _ _

theorem isGenerated_smoother {host : String} (h : host ≠ "") (parameter : String) (bound : α) :
    isGenerated (smoother parameter bound host) host = true := by
  simp [isGenerated, h, suffix_smoother parameter bound host]

theorem isGenerated_decoder {host : String} (h : host ≠ "") (parameter : String) (set : Bool)
    (i : Nat) (weight : α) : isGenerated (decoder parameter set i weight host) host = true := by
  have hend := suffix_decoder parameter set i weight host
  have hset : (if set then "+True+" else "+False+").toList
      <:+: (decoder parameter set i weight host).toList := by
    simp only [decoder, String.toList_append, List.append_assoc]
    exact List.infix_append' _ _ _
  cases set with
  | false => simp_all [isGenerated]
  | true => simp_all [isGenerated]

end ClipName

/-- The clips of a filter are for the smoothed channel. -/
theorem Filter.target_of_mem_clipsOf {host parameter proxy : String} {c : HeldClip α}
    (h : c ∈ clipsOf host parameter proxy) : c.target = proxy := by
  simp only [clipsOf, List.mem_cons, List.not_mem_nil, or_false] at h
  rcases h with rfl | rfl <;> rfl

theorem Decoder.mem_clips_edits {host : String} {p : Parameter α} {target : String}
    {c : DecoderChannels} {d : HeldClip α} : d ∈ (edits host p target c).clips
      ↔ ∃ negative ∈ signs c, ∃ w ∈ wires p c, d ∈ bitClips host p target negative w := by
  simp [edits, sumEdits, Edits.each]

/-- The clips of a decoder are for its target. -/
theorem Decoder.target_of_mem_clips {host : String} {p : Parameter α} {target : String}
    {c : DecoderChannels} {d : HeldClip α} (h : d ∈ (edits host p target c).clips) :
    d.target = target := by
  obtain ⟨negative, -, w, -, hd⟩ := mem_clips_edits.mp h
  simp only [bitClips, List.mem_cons, List.not_mem_nil, or_false] at hd
  rcases hd with rfl | rfl <;> rfl

namespace Compile

variable {ns : Namespace} {host : String} {hidden : Bool} {ps : List (Parameter α)}

/-- The clips that the decoder of a parameter plays. -/
def decoderClips (ns : Namespace) (host : String) (hidden : Bool) (p : Parameter α) :
    List (HeldClip α) :=
  if p.isQuantized then (Decoder.edits host p p.name (Decoder.channelsOf ns p hidden)).clips
  else []

/-- The clips that the filters of all parameters play for one observer. -/
def filterClips (ns : Namespace) (host : String) (ps : List (Parameter α)) : List (HeldClip α) :=
  ps.flatMap fun p => Filter.clipsOf host p.name (ns.proxy p.name)

theorem heldClips_eq (ns : Namespace) (host : String) (hidden : Bool) (ps : List (Parameter α)) :
    heldClips ns host hidden ps = ps.flatMap (decoderClips ns host hidden)
      ++ Observer.all.flatMap fun _ => filterClips ns host ps := by
  have hp : (fun p => (parameterEdits (α := α) ns host hidden p).clips)
      = decoderClips ns host hidden := by
    funext p
    cases hq : p.isQuantized <;> cases hr : p.redirect <;>
      simp [parameterEdits, decoderClips, hq, hr, Edits.append_eq, Edits.none]
  have hfilters : (lastEdits ns host ps).clips
      = Observer.all.flatMap fun _ => filterClips ns host ps := by
    simp [lastEdits, Edits.append_eq, Edits.each, Filter.sumEdits, filters, filterClips,
      List.flatMap_map, Filter.channelsOf]
  rw [heldClips, hfilters, ← hp]
  rfl

theorem mem_decoderClips {p : Parameter α} {c : HeldClip α}
    (h : c ∈ decoderClips ns host hidden p) : p.isQuantized = true ∧
      ∃ negative, ∃ w ∈ Decoder.wires p (Decoder.channelsOf ns p hidden),
        c ∈ Decoder.bitClips host p p.name negative w := by
  unfold decoderClips at h
  split at h
  · next hq =>
    obtain ⟨negative, -, w, hw, hc⟩ := Decoder.mem_clips_edits.mp h
    exact ⟨hq, negative, w, hw, hc⟩
  · cases h

theorem isGenerated_of_mem_heldClips (hhost : host ≠ "") {c : HeldClip α}
    (h : c ∈ heldClips ns host hidden ps) : ClipName.isGenerated c.name host = true := by
  rw [heldClips_eq, List.mem_append] at h
  rcases h with h | h
  · obtain ⟨p, -, hc⟩ := List.mem_flatMap.mp h
    obtain ⟨-, negative, w, -, hc⟩ := mem_decoderClips hc
    simp only [Decoder.bitClips, List.mem_cons, List.not_mem_nil, or_false] at hc
    rcases hc with rfl | rfl
    · exact ClipName.isGenerated_decoder hhost ..
    · exact ClipName.isGenerated_decoder hhost ..
  · obtain ⟨-, -, hc⟩ := List.mem_flatMap.mp h
    obtain ⟨p, -, hc⟩ := List.mem_flatMap.mp hc
    simp only [Filter.clipsOf, List.mem_cons, List.not_mem_nil, or_false] at hc
    rcases hc with rfl | rfl
    · exact ClipName.isGenerated_smoother hhost ..
    · exact ClipName.isGenerated_smoother hhost ..

/-- What is recorded keeps its name. -/
theorem exists_of_mem_recorded {hs : List (HeldClip α)} {cs : List (Clip α)}
    (hcs : HeldClip.recordAll? hs = .ok cs) {c : Clip α} (hc : c ∈ cs) :
    ∃ d ∈ hs, d.Records c := by
  have hall := HeldClip.forall₂_records hcs
  clear hcs
  induction hall with
  | nil => cases hc
  | cons hd _ ih =>
    rcases List.mem_cons.mp hc with rfl | hc
    · exact ⟨_, List.mem_cons_self .., hd⟩
    · obtain ⟨d, hmem, hrec⟩ := ih hc
      exact ⟨d, List.mem_cons_of_mem _ hmem, hrec⟩

theorem exists_recorded_of_mem {hs : List (HeldClip α)} {cs : List (Clip α)}
    (hcs : HeldClip.recordAll? hs = .ok cs) {d : HeldClip α} (hd : d ∈ hs) :
    ∃ c ∈ cs, d.Records c := by
  have hall := HeldClip.forall₂_records hcs
  clear hcs
  induction hall with
  | nil => cases hd
  | cons hrec _ ih =>
    rcases List.mem_cons.mp hd with rfl | hd
    · exact ⟨_, List.mem_cons_self .., hrec⟩
    · obtain ⟨c, hmem, hrec⟩ := ih hd
      exact ⟨c, List.mem_cons_of_mem _ hmem, hrec⟩

theorem isGenerated_of_mem_recorded (hhost : host ≠ "") {cs : List (Clip α)}
    (hcs : HeldClip.recordAll? (heldClips ns host hidden ps) = .ok cs) {c : Clip α}
    (hc : c ∈ cs) : ClipName.isGenerated c.name host = true := by
  obtain ⟨d, hd, hrec⟩ := exists_of_mem_recorded hcs hc
  rw [hrec.1]
  exact isGenerated_of_mem_heldClips hhost hd

end Compile

end BlendGraph
