import BlendGraph.Host.Document
import BlendGraph.Proofs.Host.TableLaws
import BlendGraph.Proofs.Json.WrittenDocuments

/-!
# Documents of host graphs

A graph is read from its own document as it was, part by part, as far as its numbers are. The writer
of numbers is any that restores the finite ones; a number that is not finite leaves the whole graph
unread.
-/

set_option autoImplicit false

namespace BlendGraph

open Json (record? required withDefault nullable)

variable {β γ : Type}

/-- The value if all of its numbers are finite. -/
def whenFinite (numbers : List Float32) (x : β) : Option β :=
  if ∀ n ∈ numbers, n.isFinite = true then some x else none

@[simp] theorem whenFinite_nil (x : β) : whenFinite [] x = some x := if_pos (List.forall_mem_nil _)

@[simp] theorem whenFinite_map (numbers : List Float32) (x : β) (f : β → γ) :
    (whenFinite numbers x).map f = whenFinite numbers (f x) := by
  rw [whenFinite, whenFinite]
  split <;> rfl

@[simp] theorem whenFinite_bind_some (numbers : List Float32) (x : β) (f : β → γ) :
    ((whenFinite numbers x).bind fun y => some (f y)) = whenFinite numbers (f x) := by
  rw [← whenFinite_map, Option.map_eq_bind]
  rfl

@[simp] theorem whenFinite_bind (numbers more : List Float32) (x : β) (f : β → γ) :
    ((whenFinite numbers x).bind fun y => whenFinite more (f y))
      = whenFinite (numbers ++ more) (f x) := by
  simp only [whenFinite, List.forall_mem_append]
  by_cases h : ∀ n ∈ numbers, n.isFinite = true
  · rw [if_pos h, Option.bind_some]
    simp only [and_iff_right h]
  · rw [if_neg h, if_neg fun hand => h hand.1, Option.bind_none]

theorem whenFinite_congr {numbers more : List Float32} (h : ∀ n, n ∈ numbers ↔ n ∈ more) (x : β) :
    whenFinite numbers x = whenFinite more x := by
  simp only [whenFinite, h]

theorem mapM_map_whenFinite {write : β → γ} {read : γ → Option β} {numbers : β → List Float32}
    {xs : List β} (h : ∀ x ∈ xs, read (write x) = whenFinite (numbers x) x) :
    (xs.map write).mapM read = whenFinite (xs.flatMap numbers) xs := by
  induction xs with
  | nil => rfl
  | cons x xs ih =>
    have hx := h x (List.mem_cons_self ..)
    have hxs := ih fun y hy => h y (List.mem_cons_of_mem _ hy)
    simp [List.mapM_cons, hx, hxs]

namespace Json

/-- The writer's finite numbers are read as they were, its other ones not at all. -/
def Restores (write : Float32 → Json) (numbers : List Float32) : Prop :=
  ∀ x ∈ numbers, (write x).single? = whenFinite [x] x

theorem list?_array {write : β → Json} {read : Json → Option β} {numbers : β → List Float32}
    {xs : List β} (h : ∀ x ∈ xs, read (write x) = whenFinite (numbers x) x) :
    list? read (.array (xs.map write)) = whenFinite (xs.flatMap numbers) xs :=
  mapM_map_whenFinite h

theorem table?_ofTable {write : β → Json} {read : Json → Option β} {t : Table β}
    (h : ∀ x ∈ t.values, read (write x) = some x) : table? read (ofTable write t) = some t := by
  have hentries : (t.entries.map fun e => (e.1, write e.2)).mapM
      (fun m => do return (m.1, ← read m.2))
      = whenFinite (t.entries.flatMap fun _ => []) t.entries := by
    refine mapM_map_whenFinite fun e he => ?_
    have he := h e.2 (List.mem_map_of_mem he)
    simp [he]
  rw [List.flatMap_eq_nil_iff.mpr fun _ _ => rfl, whenFinite_nil] at hentries
  rw [table?, ofTable, object?]
  simp only [Option.pure_def, Option.bind_eq_bind, Option.bind_some] at hentries ⊢
  rw [hentries, Option.bind_some, Table.ofList_entries]

theorem isReadable_of_single? {j : Json} {x : Float32} (h : j.single? = some x) :
    j.isReadable = true := by
  cases j with
  | number n => rfl
  | _ => cases h

/-- A property that passes from the parts of a value to the value. -/
structure Hereditary (P : Json → Prop) : Prop where
  string : ∀ s, P (string s)
  bool : ∀ b, P (bool b)
  array : ∀ {items : List Json}, (∀ j ∈ items, P j) → P (array items)
  object : ∀ {members : List (String × Json)}, (∀ m ∈ members, P m.2) → P (object members)

theorem hereditary_isReadable : Hereditary fun j => j.isReadable = true where
  string _ := rfl
  bool _ := rfl
  array {items} h := by
    rw [isReadable]
    induction items with
    | nil => rfl
    | cons j js ih =>
      rw [List.forall_mem_cons] at h
      rw [areReadable, h.1, ih h.2, Bool.and_self]
  object {members} h := by
    rw [isReadable]
    induction members with
    | nil => rfl
    | cons m ms ih =>
      rw [List.forall_mem_cons] at h
      rw [haveReadable, h.1, ih h.2, Bool.and_self]

end Json

variable {w : Float32 → Json}

namespace Channel

def numbers (c : Channel Float32) : List Float32 := [c.default]

theorem ofJson?_toJson {c : Channel Float32} (h : Json.Restores w c.numbers) :
    ofJson? (c.toJson w) = whenFinite c.numbers c := by
  have hdefault := h c.default (List.mem_singleton_self _)
  have hkind : ChannelKind.ofJson? (.string c.kind.name) = some c.kind := by
    rw [ChannelKind.ofJson?, ChannelKind.ofName?_name]
  simp [ofJson?, toJson, record?, required, withDefault, Json.string?, Json.bool?, hkind,
    hdefault, numbers]

end Channel

namespace Keyframe

def numbers (k : Keyframe Float32) : List Float32 := [k.time, k.value]

theorem ofJson?_toJson {k : Keyframe Float32} (h : Json.Restores w k.numbers) :
    ofJson? (k.toJson w) = whenFinite k.numbers k := by
  have htime := h k.time (by simp [numbers])
  have hvalue := h k.value (by simp [numbers])
  simp [ofJson?, toJson, record?, required, numbers, htime, hvalue]

end Keyframe

namespace Curve

def numbers (c : Curve Float32) : List Float32 := c.keys.flatMap Keyframe.numbers

theorem isFinite_of_faultFrom? {before : Option Float32} {index : Nat}
    {ks : List (Keyframe Float32)} (h : faultFrom? before index ks = none) :
    ∀ k ∈ ks, k.time.isFinite = true ∧ k.value.isFinite = true := by
  induction ks generalizing before index with
  | nil => exact List.forall_mem_nil _
  | cons k ks ih =>
    rw [faultFrom?] at h
    split at h
    · cases h
    · next hfinite =>
      split at h
      · cases h
      · rw [Bool.not_eq_true, Bool.not_eq_false', Bool.and_eq_true] at hfinite
        exact List.forall_mem_cons.mpr ⟨hfinite, ih h⟩

/-- The keyframes of a curve are finite, or they would not make one. -/
theorem isFinite_of_mem_numbers {c : Curve Float32} {x : Float32} (hx : x ∈ c.numbers) :
    x.isFinite = true := by
  obtain ⟨k, hk, hx⟩ := List.mem_flatMap.mp hx
  have hfinite := isFinite_of_faultFrom? c.sound k hk
  simp only [Keyframe.numbers, List.mem_cons, List.not_mem_nil, or_false] at hx
  rcases hx with rfl | rfl
  · exact hfinite.1
  · exact hfinite.2

theorem ofJson?_toJson {c : Curve Float32} (h : Json.Restores w c.numbers) :
    ofJson? (c.toJson w) = some c := by
  have hkeys : Json.list? Keyframe.ofJson? (c.toJson w) = some c.keys := by
    have hlist : Json.list? Keyframe.ofJson? (c.toJson w) = whenFinite c.numbers c.keys := by
      refine Json.list?_array fun k hk => Keyframe.ofJson?_toJson fun x hx => h x ?_
      exact List.mem_flatMap.mpr ⟨k, hk, hx⟩
    rw [hlist, whenFinite, if_pos fun _ => isFinite_of_mem_numbers]
  have hcurve : (ofKeys? c.keys).toOption = some c := by
    rw [keys, ofKeys?]
    split
    · rfl
    · next e he => rw [c.sound] at he; cases he
  rw [ofJson?, hkeys]
  exact hcurve

end Curve

namespace Clip

theorem ofJson?_toJson {c : Clip Float32} (h : Json.Restores w c.curve.numbers) :
    ofJson? (c.toJson w) = some c := by
  have hcurve := Curve.ofJson?_toJson h
  simp [ofJson?, toJson, record?, required, Json.string?, hcurve]

end Clip

namespace Node

/-- The thresholds of a tree. -/
def numbers (n : Node Float32) : List Float32 :=
  n.walk.flatMap fun
    | interp _ _ cs => cs.map Prod.fst
    | _ => []

theorem mem_numbers_interp_iff {name channel : String} {cs : List (Float32 × Node Float32)}
    {x : Float32} :
    x ∈ (interp name channel cs).numbers ↔ x ∈ cs.flatMap fun c => [c.1] ++ c.2.numbers := by
  have hwalk : (interp name channel cs).numbers
      = cs.map Prod.fst ++ cs.flatMap fun c => c.2.numbers := by
    simp [numbers, walk, List.flatMap_assoc]
  rw [hwalk]
  simp only [List.mem_append, List.mem_map, List.mem_flatMap, List.mem_singleton]
  grind

theorem mem_numbers_interp {name channel : String} {cs : List (Float32 × Node Float32)}
    {c : Float32 × Node Float32} (hc : c ∈ cs) {x : Float32} (hx : x ∈ c.1 :: c.2.numbers) :
    x ∈ (interp name channel cs).numbers :=
  mem_numbers_interp_iff.mpr (List.mem_flatMap.mpr ⟨c, hc, hx⟩)

theorem numbers_sum (name : String) (cs : List (String × Node Float32)) :
    (sum name cs).numbers = cs.flatMap fun c => [] ++ c.2.numbers := by
  simp [numbers, walk, List.flatMap_assoc]

theorem mem_numbers_sum {name : String} {cs : List (String × Node Float32)}
    {c : String × Node Float32} (hc : c ∈ cs) {x : Float32} (hx : x ∈ c.2.numbers) :
    x ∈ (sum name cs).numbers := by
  rw [numbers_sum]
  exact List.mem_flatMap.mpr ⟨c, hc, hx⟩

/-- The document of a child with its label. -/
def childToJson (label : String) (write : β → Json) (w : Float32 → Json) (c : β × Node Float32) :
    Json :=
  .object [(label, write c.1), ("node", c.2.toJson w)]

@[simp] theorem toJsonInterp_eq (cs : List (Float32 × Node Float32)) :
    toJsonInterp w cs = cs.map (childToJson "threshold" w w) := by
  induction cs with
  | nil => rfl
  | cons c cs ih => rw [toJsonInterp, ih, List.map_cons, childToJson]

@[simp] theorem toJsonSum_eq (cs : List (String × Node Float32)) :
    toJsonSum w cs = cs.map (childToJson "weight" .string w) := by
  induction cs with
  | nil => rfl
  | cons c cs ih => rw [toJsonSum, ih, List.map_cons, childToJson]

section

variable {label : String} {write : β → Json} {cs : List (β × Node Float32)}

theorem depth_child_lt (label : String) (write : β → Json) {members : List (String × Json)}
    (hmember : ("children", .array (cs.map (childToJson label write w))) ∈ members)
    {c : β × Node Float32} (hc : c ∈ cs) : (c.2.toJson w).depth < (Json.object members).depth := by
  have hnode : (c.2.toJson w).depth < (childToJson label write w c).depth :=
    Json.depth_member_lt (m := ("node", c.2.toJson w)) (by simp)
  have hchild := Json.depth_item_lt (List.mem_map_of_mem (f := childToJson label write w) hc)
  have harray := Json.depth_member_lt hmember
  exact (hnode.trans hchild).trans harray

theorem list?_children {readLabel : Json → Option β} {read : Json → Option (Node Float32)}
    (labels : β → List Float32) (hlabel : label ≠ "node")
    (hread : ∀ c ∈ cs, readLabel (write c.1) = whenFinite (labels c.1) c.1)
    (hnode : ∀ c ∈ cs, read (c.2.toJson w) = whenFinite c.2.numbers c.2) :
    Json.list? (childOfJson? label readLabel read) (.array (cs.map (childToJson label write w)))
      = whenFinite (cs.flatMap fun c => labels c.1 ++ c.2.numbers) cs := by
  refine Json.list?_array fun c hc => ?_
  have hrecord : (childToJson label write w c).record? [label, "node"]
      = some [some (write c.1), some (c.2.toJson w)] := by
    simp [childToJson, record?, hlabel, hlabel.symm]
  simp [childOfJson?, hrecord, required, hread c hc, hnode c hc]

end

theorem ofJsonWithin?_toJson {n : Node Float32} {fuel : Nat} (below : Bool)
    (hfuel : (n.toJson w).depth < fuel) (h : Json.Restores w n.numbers) :
    ofJsonWithin? fuel below (n.toJson w) = whenFinite n.numbers n := by
  induction n using Node.induction generalizing fuel below with
  | leaf clip =>
    obtain ⟨fuel, rfl⟩ := Nat.exists_eq_succ_of_ne_zero (Nat.ne_zero_of_lt hfuel)
    simp [ofJsonWithin?, toJson, tagged?, record?, required, typeName?, Json.string?, numbers, walk]
  | interp name channel cs ih =>
    obtain ⟨fuel, rfl⟩ := Nat.exists_eq_succ_of_ne_zero (Nat.ne_zero_of_lt hfuel)
    have hlabel : ∀ c ∈ cs, (w c.1).single? = whenFinite [c.1] c.1 := fun c hc =>
      h c.1 (mem_numbers_interp hc (List.mem_cons_self ..))
    have hnode : ∀ c ∈ cs, ofJsonWithin? fuel true (c.2.toJson w) = whenFinite c.2.numbers c.2 := by
      intro c hc
      have hdepth : (c.2.toJson w).depth < ((interp name channel cs).toJson w).depth := by
        rw [toJson, toJsonInterp_eq]
        exact depth_child_lt "threshold" w (by simp) hc
      refine ih c hc true (by omega) fun x hx => h x ?_
      exact mem_numbers_interp hc (List.mem_cons_of_mem _ hx)
    have hchildren : Json.list? (childOfJson? "threshold" Json.single? (ofJsonWithin? fuel true))
        (.array (cs.map (childToJson "threshold" w w)))
        = whenFinite (cs.flatMap fun c => [c.1] ++ c.2.numbers) cs :=
      list?_children (fun x => [x]) (by decide) hlabel hnode
    rw [whenFinite_congr fun _ => mem_numbers_interp_iff]
    simp [ofJsonWithin?, toJson, tagged?, record?, required, typeName?, Json.string?, hchildren]
  | sum name cs ih =>
    obtain ⟨fuel, rfl⟩ := Nat.exists_eq_succ_of_ne_zero (Nat.ne_zero_of_lt hfuel)
    have hlabel : ∀ c ∈ cs, Json.string? (.string c.1) = whenFinite [] c.1 := fun c _ =>
      (whenFinite_nil c.1).symm
    have hnode : ∀ c ∈ cs, ofJsonWithin? fuel true (c.2.toJson w) = whenFinite c.2.numbers c.2 := by
      intro c hc
      have hdepth : (c.2.toJson w).depth < ((sum name cs).toJson w).depth := by
        rw [toJson, toJsonSum_eq]
        exact depth_child_lt "weight" .string (by simp) hc
      exact ih c hc true (by omega) fun x hx => h x (mem_numbers_sum hc hx)
    have hchildren : Json.list? (childOfJson? "weight" Json.string? (ofJsonWithin? fuel true))
        (.array (cs.map (childToJson "weight" .string w)))
        = whenFinite (cs.flatMap fun c => [] ++ c.2.numbers) cs :=
      list?_children (fun _ => []) (by decide) hlabel hnode
    rw [numbers_sum]
    simp [ofJsonWithin?, toJson, tagged?, record?, required, typeName?, Json.string?, hchildren]

theorem toJson_of_hereditary {P : Json → Prop} (hP : Json.Hereditary P) {n : Node Float32}
    (h : ∀ x ∈ n.numbers, P (w x)) : P (n.toJson w) := by
  have hobject {label : String} {j k : Json} (hj : P j) (hk : P k) :
      P (.object [(label, j), ("node", k)]) :=
    hP.object (by simp [hj, hk])
  induction n using Node.induction with
  | leaf clip => exact hP.object (by simp [hP.string])
  | interp name channel cs ih =>
    have hchildren : P (.array (toJsonInterp w cs)) := by
      refine hP.array ?_
      rw [toJsonInterp_eq, List.forall_mem_map]
      intro c hc
      refine hobject (h c.1 (mem_numbers_interp hc (List.mem_cons_self ..))) ?_
      exact ih c hc fun x hx => h x (mem_numbers_interp hc (List.mem_cons_of_mem _ hx))
    rw [toJson]
    exact hP.object (by simp [hP.string, hchildren, -toJsonInterp_eq])
  | sum name cs ih =>
    have hchildren : P (.array (toJsonSum w cs)) := by
      refine hP.array ?_
      rw [toJsonSum_eq, List.forall_mem_map]
      intro c hc
      exact hobject (hP.string _) (ih c hc fun x hx => h x (mem_numbers_sum hc hx))
    rw [toJson]
    exact hP.object (by simp [hP.string, hchildren, -toJsonSum_eq])

theorem ofJson?_toJson {n : Node Float32} (h : Json.Restores w n.numbers) :
    ofJson? (n.toJson w) = whenFinite n.numbers n := by
  have hwithin := ofJsonWithin?_toJson false (Nat.lt_succ_self _) h
  rw [ofJson?]
  by_cases hfinite : ∀ x ∈ n.numbers, x.isFinite = true
  · have hreadable : (n.toJson w).isReadable = true := by
      refine toJson_of_hereditary Json.hereditary_isReadable fun x hx => ?_
      have hone : ∀ y ∈ [x], y.isFinite = true := fun y hy =>
        List.mem_singleton.mp hy ▸ hfinite x hx
      have hread := h x hx
      rw [whenFinite, if_pos hone] at hread
      exact Json.isReadable_of_single? hread
    rw [if_pos hreadable, hwithin]
  · rw [hwithin, whenFinite, if_neg hfinite, ite_self]

theorem nullable_toJson (n : Node Float32) :
    nullable ofJson? (some (n.toJson w)) = (ofJson? (n.toJson w)).map some := by
  cases n <;> rfl

end Node

namespace State

def numbers (s : State Float32) : List Float32 := s.motion.toList.flatMap Node.numbers

/-- The fields that a written state has. -/
theorem record?_toJson (s : State Float32) :
    (s.toJson w).record? ("name" :: "motion" :: channelFields)
      = some [some (.string s.name), s.motion.map (Node.toJson w), s.timeChannel.map .string,
        s.speedChannel.map .string, s.cycleChannel.map .string, s.mirrorChannel.map .string] := by
  obtain ⟨name, motion, time, speed, cycle, mirror⟩ := s
  cases motion <;> cases time <;> cases speed <;> cases cycle <;> cases mirror <;> rfl

theorem ofJson?_toJson {s : State Float32} (h : Json.Restores w s.numbers) :
    ofJson? (s.toJson w) = whenFinite s.numbers s := by
  have hchannel : ∀ c : Option String, nullable Json.string? (c.map .string) = some c := by
    rintro (_ | c) <;> rfl
  have hmotion : nullable Node.ofJson? (s.motion.map (Node.toJson w))
      = whenFinite s.numbers s.motion := by
    rw [numbers] at h ⊢
    cases hm : s.motion with
    | none => rfl
    | some m =>
      rw [hm, Option.toList_some, List.flatMap_singleton] at h
      rw [Option.map_some, Node.nullable_toJson, Node.ofJson?_toJson h, whenFinite_map,
        Option.toList_some, List.flatMap_singleton]
  rw [ofJson?, record?_toJson]
  simp [hchannel, hmotion, required, Json.string?]

end State

namespace Layer

def numbers (l : Layer Float32) : List Float32 := l.states.flatMap State.numbers

theorem ofJson?_toJson {l : Layer Float32} (h : Json.Restores w l.numbers) :
    ofJson? (l.toJson w) = whenFinite l.numbers l := by
  have hstates : Json.list? State.ofJson? (.array (l.states.map (State.toJson w)))
      = whenFinite l.numbers l.states := by
    refine Json.list?_array fun s hs => State.ofJson?_toJson fun x hx => h x ?_
    exact List.mem_flatMap.mpr ⟨s, hs, hx⟩
  simp [ofJson?, toJson, record?, required, withDefault, Json.string?, hstates]

end Layer

namespace Host

/-- The defaults of the channels and the thresholds, which may be any numbers at all. -/
def unchecked (h : Host Float32) : List Float32 :=
  h.channels.flatMap Channel.numbers ++ h.layers.flatMap Layer.numbers

/-- All numbers of a graph, in the order of its document. -/
def numbers (h : Host Float32) : List Float32 :=
  h.unchecked ++ h.clips.values.flatMap fun c => c.curve.numbers

theorem table?_flags (t : Table Bool) :
    Json.table? Json.bool? (Json.ofTable .bool t) = some t :=
  Json.table?_ofTable fun _ _ => rfl

theorem table?_overrides (t : Table (Table Bool)) :
    Json.table? (Json.table? Json.bool?) (Json.ofTable (Json.ofTable .bool) t) = some t :=
  Json.table?_ofTable fun u _ => table?_flags u

theorem ofJson?_toJson {h : Host Float32} (hw : Json.Restores w h.numbers) :
    ofJson? (h.toJson w) = whenFinite h.unchecked h := by
  simp only [Json.Restores, numbers, unchecked, List.forall_mem_append, List.mem_flatMap] at hw
  obtain ⟨⟨hwchannels, hwlayers⟩, hwclips⟩ := hw
  have hchannels : Json.list? Channel.ofJson? (.array (h.channels.map (Channel.toJson w)))
      = whenFinite (h.channels.flatMap Channel.numbers) h.channels :=
    Json.list?_array fun c hc => Channel.ofJson?_toJson fun x hx => hwchannels x ⟨c, hc, hx⟩
  have hlayers : Json.list? Layer.ofJson? (.array (h.layers.map (Layer.toJson w)))
      = whenFinite (h.layers.flatMap Layer.numbers) h.layers :=
    Json.list?_array fun l hl => Layer.ofJson?_toJson fun x hx => hwlayers x ⟨l, hl, hx⟩
  have hclips : Json.table? Clip.ofJson? (Json.ofTable (Clip.toJson w) h.clips) = some h.clips :=
    Json.table?_ofTable fun c hc => Clip.ofJson?_toJson fun x hx => hwclips x ⟨c, hc, hx⟩
  rw [toJson, ofJson?]
  split
  · next hempty =>
    have hnone : Table.empty = h.overrides := Table.ext (List.isEmpty_iff.mp hempty).symm
    simp [record?, withDefault, Json.string?, hchannels, hlayers, hclips, hnone, unchecked]
  · simp [record?, withDefault, Json.string?, hchannels, hlayers, hclips, table?_overrides,
      unchecked]

end Host

end BlendGraph
