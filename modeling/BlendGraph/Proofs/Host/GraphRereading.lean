import BlendGraph.Command.Shell
import BlendGraph.Proofs.Host.DocumentDepth
import BlendGraph.Proofs.Number.FloatOrder
import Mathlib

/-!
# Graphs written and read again

A command that writes a graph back leaves a file that the next command reads. It holds the graph the
first command had, if its numbers are finite and are read exactly from their texts. A default or a
threshold that is not finite makes the file unreadable: it is written as null, which no reader takes
for a number.
-/

set_option autoImplicit false

namespace BlendGraph

variable {w : Float32 → Json}

/-! ### Numbers -/

namespace Number

open Float.Model

/-- The floats whose exponents have all bits set are those that are not finite. -/
theorem isFinite_unpack_iff {spec : Format} (b : BitVec spec.numBits) :
    (UnpackedFloat.unpack spec b).isFinite = true ↔ UnpackedFloat.unpackExponent b ≠ -1#_ := by
  rw [UnpackedFloat.unpack]
  split
  · next h =>
    refine iff_of_false ?_ (not_not_intro h)
    split <;> exact Bool.false_ne_true
  · next h =>
    refine iff_of_true ?_ h
    split
    · split <;> rfl
    · rfl

/-- Finite floats are those that have a magnitude. -/
theorem isFinite_iff {x : Float32} : x.isFinite = true ↔ (magnitude? x).isSome = true := by
  have hall : (-1#8).toNat = 255 := rfl
  change (UnpackedFloat.unpack Format.binary32 x.toBits.toBitVec).isFinite = true ↔ _
  rw [isFinite_unpack_iff, Ne, ← BitVec.toNat_inj, toNat_unpackExponent, hall, magnitude?]
  split
  · next h => exact iff_of_false (not_not_intro h) Bool.false_ne_true
  · next h =>
    refine iff_of_true h ?_
    split <;> rfl

end Number

namespace Json

/-- The float is read from its own text as it is. -/
def Exact (x : Float32) : Prop :=
  ((JsonNumber.ofSingle? x).bind fun n => (numeral.parse? n.text).bind single?) = some x

instance (x : Float32) : Decidable (Exact x) := inferInstanceAs (Decidable (_ = _))

theorem ofSingle_of_not_finite {x : Float32} (h : ¬ x.isFinite = true) : ofSingle x = null := by
  rw [Number.isFinite_iff, Option.not_isSome_iff_eq_none] at h
  rw [ofSingle, JsonNumber.ofSingle?, h]
  rfl

theorem exists_of_exact {x : Float32} (h : Exact x) : ∃ n j, ofSingle x = number n
    ∧ numeral.parse? n.text = some j ∧ j.single? = some x := by
  obtain ⟨n, hn, h⟩ := Option.bind_eq_some_iff.mp h
  obtain ⟨j, hj, hx⟩ := Option.bind_eq_some_iff.mp h
  refine ⟨n, j, ?_, hj, hx⟩
  rw [ofSingle, hn]
  rfl

theorem depth_ofSingle (x : Float32) : (ofSingle x).depth = 0 := by
  rw [ofSingle]
  cases JsonNumber.ofSingle? x <;> rfl

theorem legible_ofSingle {x : Float32} (h : x.isFinite = true → Exact x) :
    (ofSingle x).Legible := by
  by_cases hx : x.isFinite = true
  · obtain ⟨n, j, hn, hj, -⟩ := exists_of_exact (h hx)
    rw [hn]
    intro m hm
    obtain rfl := List.mem_singleton.mp (by simpa [numbers] using hm)
    rw [hj]
    rfl
  · rw [ofSingle_of_not_finite hx]
    intro m hm
    cases hm

theorem restores_ofSingle {xs : List Float32} (h : ∀ x ∈ xs, x.isFinite = true → Exact x) :
    Restores (fun x => (ofSingle x).reread) xs := by
  intro x hx
  by_cases hfinite : x.isFinite = true
  · obtain ⟨n, j, hn, hj, hread⟩ := exists_of_exact (h x hx hfinite)
    simp [hn, reread, hj, hread, whenFinite, hfinite]
  · simp [ofSingle_of_not_finite hfinite, reread, single?, whenFinite, hfinite]

theorem hereditary_legible : Hereditary Legible where
  string _ := nofun
  bool _ := nofun
  array {items} h n hn := by
    rw [numbers, numbersItems_eq] at hn
    obtain ⟨j, hj, hn⟩ := List.mem_flatMap.mp hn
    exact h j hj n hn
  object {members} h n hn := by
    rw [numbers, numbersMembers_eq] at hn
    obtain ⟨m, hm, hn⟩ := List.mem_flatMap.mp hn
    exact h m hm n hn

theorem reread_object (members : List (String × Json)) :
    (object members).reread = object (members.map fun m => (m.1, m.2.reread)) := by
  rw [reread, rereadMembers_eq]

theorem reread_ofTable {β : Type} (write : β → Json) (t : Table β) :
    (ofTable write t).reread = ofTable (fun x => (write x).reread) t := by
  rw [ofTable, reread_object, List.map_map]
  rfl

end Json

/-! ### Documents with a property of their numbers -/

section

variable {P : Json → Prop} (hP : Json.Hereditary P)

include hP

theorem Json.Hereditary.ofTable {β : Type} {write : β → Json} {t : Table β}
    (h : ∀ x ∈ t.values, P (write x)) : P (Json.ofTable write t) := by
  refine hP.object ?_
  rw [List.forall_mem_map]
  exact fun e he => h e.2 (List.mem_map_of_mem he)

theorem Json.Hereditary.list {β : Type} {write : β → Json} {xs : List β}
    (h : ∀ x ∈ xs, P (write x)) : P (.array (xs.map write)) := by
  refine hP.array ?_
  rw [List.forall_mem_map]
  exact h

theorem Channel.toJson_of_hereditary {c : Channel Float32} (h : ∀ x ∈ c.numbers, P (w x)) :
    P (c.toJson w) :=
  hP.object (by simp [hP.string, hP.bool, h c.default (List.mem_singleton_self _)])

theorem Clip.toJson_of_hereditary {c : Clip Float32} (h : ∀ x ∈ c.curve.numbers, P (w x)) :
    P (c.toJson w) := by
  have hcurve : P (c.curve.toJson w) := by
    refine hP.list fun k hk => hP.object ?_
    have hmem : ∀ x ∈ k.numbers, x ∈ c.curve.numbers := fun x hx =>
      List.mem_flatMap.mpr ⟨k, hk, hx⟩
    have htime := h k.time (hmem _ (List.mem_cons_self ..))
    have hvalue := h k.value (hmem _ (List.mem_cons_of_mem _ (List.mem_singleton_self _)))
    simp [htime, hvalue]
  exact hP.object (by simp [hP.string, hcurve])

theorem State.toJson_of_hereditary {s : State Float32} (h : ∀ x ∈ s.numbers, P (w x)) :
    P (s.toJson w) := by
  rw [toJson]
  refine hP.object fun m hm => ?_
  rw [List.cons_append, List.mem_cons, List.mem_append] at hm
  rcases hm with rfl | hm | hm
  · exact hP.string _
  · obtain ⟨n, hn, rfl⟩ := Option.map_eq_some_iff.mp (Option.mem_toList.mp hm)
    refine Node.toJson_of_hereditary hP fun x hx => h x ?_
    exact List.mem_flatMap.mpr ⟨n, Option.mem_toList.mpr hn, hx⟩
  · obtain ⟨f, -, hf⟩ := List.mem_filterMap.mp hm
    obtain ⟨c, -, rfl⟩ := Option.map_eq_some_iff.mp hf
    exact hP.string c

theorem Layer.toJson_of_hereditary {l : Layer Float32} (h : ∀ x ∈ l.numbers, P (w x)) :
    P (l.toJson w) := by
  have hstates : P (.array (l.states.map (State.toJson w))) := by
    refine hP.list fun s hs => State.toJson_of_hereditary hP fun x hx => h x ?_
    exact List.mem_flatMap.mpr ⟨s, hs, hx⟩
  exact hP.object (by simp [hP.string, hstates])

theorem Host.toJson_of_hereditary {h : Host Float32} (hw : ∀ x ∈ h.numbers, P (w x)) :
    P (h.toJson w) := by
  simp only [numbers, unchecked, List.forall_mem_append, List.mem_flatMap] at hw
  obtain ⟨⟨hwchannels, hwlayers⟩, hwclips⟩ := hw
  have hchannels : P (.array (h.channels.map (Channel.toJson w))) :=
    hP.list fun c hc => Channel.toJson_of_hereditary hP fun x hx => hwchannels x ⟨c, hc, hx⟩
  have hlayers : P (.array (h.layers.map (Layer.toJson w))) :=
    hP.list fun l hl => Layer.toJson_of_hereditary hP fun x hx => hwlayers x ⟨l, hl, hx⟩
  have hclips : P (Json.ofTable (Clip.toJson w) h.clips) :=
    hP.ofTable fun c hc => Clip.toJson_of_hereditary hP fun x hx => hwclips x ⟨c, hc, hx⟩
  have hoverrides : P (Json.ofTable (Json.ofTable .bool) h.overrides) :=
    hP.ofTable fun _ _ => hP.ofTable fun b _ => hP.bool b
  rw [toJson]
  split
  · exact hP.object (by simp [hP.string, hchannels, hlayers, hclips])
  · exact hP.object (by simp [hP.string, hchannels, hlayers, hclips, hoverrides])

end

/-! ### Documents with their numbers read again -/

theorem Channel.reread_toJson (c : Channel Float32) :
    (c.toJson w).reread = c.toJson fun x => (w x).reread := by
  simp [toJson, Json.reread]

theorem Keyframe.reread_toJson (k : Keyframe Float32) :
    (k.toJson w).reread = k.toJson fun x => (w x).reread := by
  simp [toJson, Json.reread]

theorem Clip.reread_toJson (c : Clip Float32) :
    (c.toJson w).reread = c.toJson fun x => (w x).reread := by
  simp [toJson, Json.reread_object, Json.reread, Curve.toJson, Keyframe.reread_toJson]

theorem Node.reread_toJson (n : Node Float32) :
    (n.toJson w).reread = n.toJson fun x => (w x).reread := by
  induction n using Node.induction with
  | leaf clip => simp [toJson, Json.reread]
  | interp name channel cs ih =>
    have hchildren : cs.map (fun c => (childToJson "threshold" w w c).reread)
        = cs.map (childToJson "threshold" (fun x => (w x).reread) fun x => (w x).reread) := by
      refine List.map_congr_left fun c hc => ?_
      simp [childToJson, Json.reread, ih c hc]
    simp [toJson, Json.reread, hchildren, Function.comp_def]
  | sum name cs ih =>
    have hchildren : cs.map (fun c => (childToJson "weight" Json.string w c).reread)
        = cs.map (childToJson "weight" Json.string fun x => (w x).reread) := by
      refine List.map_congr_left fun c hc => ?_
      simp [childToJson, Json.reread, ih c hc]
    simp [toJson, Json.reread, hchildren, Function.comp_def]

theorem State.reread_toJson (s : State Float32) :
    (s.toJson w).reread = s.toJson fun x => (w x).reread := by
  obtain ⟨name, motion, time, speed, cycle, mirror⟩ := s
  have hmotion (m : Option (Node Float32)) :
      ((m.map fun m => ("motion", m.toJson w)).toList).map (fun f => (f.1, f.2.reread))
        = (m.map fun m => ("motion", m.toJson fun x => (w x).reread)).toList := by
    cases m with
    | none => rfl
    | some m => simp [Node.reread_toJson]
  simp only [toJson, Json.reread_object, List.cons_append, List.map_cons, List.map_append, hmotion,
    List.map_filterMap, Option.map_map, Function.comp_def, Json.reread]

theorem Layer.reread_toJson (l : Layer Float32) :
    (l.toJson w).reread = l.toJson fun x => (w x).reread := by
  simp [toJson, Json.reread, State.reread_toJson]

theorem Host.reread_toJson (h : Host Float32) :
    (h.toJson w).reread = h.toJson fun x => (w x).reread := by
  rw [toJson, toJson]
  split
  · simp [Json.reread, Json.reread_ofTable, Channel.reread_toJson, Layer.reread_toJson,
      Clip.reread_toJson]
  · simp [Json.reread, Json.reread_ofTable, Channel.reread_toJson, Layer.reread_toJson,
      Clip.reread_toJson]

namespace Command

/-- A document with this numeral as the default of its channel. -/
def Sample.document (numeral layers : String) : String :=
  "\x7b\"channels\":[\x7b\"name\":\"Jaw\",\"kind\":\"continuous\",\"default\":" ++ numeral
    ++ "\x7d],\"layers\":[" ++ layers ++ "]\x7d"

def Sample.layer : String :=
  "\x7b\"name\":\"Face\",\"states\":[\x7b\"name\":\"Idle\",\"motion\":"
    ++ "\x7b\"type\":\"leaf\",\"clip\":\"Open\"\x7d\x7d]\x7d"

/-- A written graph is read again as it is if its defaults and thresholds are finite, and else not
at all. -/
theorem read_graphText {text : String} {h : Host Float32}
    (parsed : (Json.parse? text).bind Host.ofJson? = some h)
    (exact : ∀ x ∈ h.numbers, x.isFinite = true → Json.Exact x) :
    (Json.parse? (graphText h)).bind Host.ofJson?
      = if ∀ x ∈ h.unchecked, x.isFinite = true then some h else none := by
  obtain ⟨j, hj, hh⟩ := Option.bind_eq_some_iff.mp parsed
  have hdepth : (h.toJson Json.ofSingle).depth ≤ Json.nesting := by
    have hwritten := Host.depth_toJson_le Json.depth_ofSingle hh
    have hread := Json.depth_le_of_parse? hj
    have hfive : 5 ≤ Json.nesting := by decide
    omega
  have hlegible : (h.toJson Json.ofSingle).Legible :=
    Host.toJson_of_hereditary Json.hereditary_legible fun x hx => Json.legible_ofSingle (exact x hx)
  have hrestores := Json.restores_ofSingle exact
  rw [graphText, Json.parse?_pretty hlegible hdepth, Host.reread_toJson, Option.bind_some,
    Host.ofJson?_toJson hrestores, whenFinite]

theorem read_graphText_sample : ∃ h,
    (Json.parse? (Sample.document "0.1" Sample.layer)).bind Host.ofJson? = some h ∧
    (∀ x ∈ h.numbers, x.isFinite = true → Json.Exact x) ∧
    (Json.parse? (graphText h)).bind Host.ofJson? = some h := by
  have hall : ((Json.parse? (Sample.document "0.1" Sample.layer)).bind Host.ofJson?).any (fun h =>
      decide (∀ x ∈ h.numbers, x.isFinite = true ∧ Json.Exact x)) = true := by decide +kernel
  obtain ⟨h, parsed, hnumbers⟩ := (Option.any_eq_true _ _).mp hall
  have hnumbers := of_decide_eq_true hnumbers
  have exact : ∀ x ∈ h.numbers, x.isFinite = true → Json.Exact x := fun x hx _ => (hnumbers x hx).2
  refine ⟨h, parsed, exact, ?_⟩
  rw [read_graphText parsed exact, if_pos fun x hx => (hnumbers x (List.mem_append_left _ hx)).1]

/-- A number beyond all floats is read as infinity, and the graph with it is not read again. -/
theorem graphText_unreadable : ∃ h,
    (Json.parse? (Sample.document "1e39" "")).bind Host.ofJson? = some h ∧
    (∀ x ∈ h.numbers, x.isFinite = true → Json.Exact x) ∧
    (Json.parse? (graphText h)).bind Host.ofJson? = none := by
  have hall : ((Json.parse? (Sample.document "1e39" "")).bind Host.ofJson?).any (fun h =>
      decide (∀ x ∈ h.numbers, x.isFinite = true → Json.Exact x)
        && ((Json.parse? (graphText h)).bind Host.ofJson?).isNone) = true := by decide +kernel
  obtain ⟨h, parsed, hlost⟩ := (Option.any_eq_true _ _).mp hall
  obtain ⟨hexact, hnone⟩ := Bool.and_eq_true_iff.mp hlost
  exact ⟨h, parsed, of_decide_eq_true hexact, Option.isNone_iff_eq_none.mp hnone⟩

end Command

end BlendGraph
