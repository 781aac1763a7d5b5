import BlendGraph.Proofs.Host.GraphDocuments

/-!
# How deep documents are nested

Values that are read are nested at most `nesting` deep. A graph is written no deeper than the
document it was read from, apart from a few levels that every document of a graph has.
-/

set_option autoImplicit false

namespace BlendGraph

open Json (record? required withDefault nullable list?)

variable {β γ : Type}

theorem exists_of_mem_mapM {f : β → Option γ} {xs : List β} {ys : List γ} (h : xs.mapM f = some ys)
    {y : γ} (hy : y ∈ ys) : ∃ x ∈ xs, f x = some y := by
  induction xs generalizing ys with
  | nil =>
    obtain rfl : [] = ys := Option.some.inj h
    cases hy
  | cons x xs ih =>
    rw [List.mapM_cons] at h
    obtain ⟨z, hz, h⟩ := Option.bind_eq_some_iff.mp h
    obtain ⟨zs, hzs, h⟩ := Option.bind_eq_some_iff.mp h
    obtain rfl : z :: zs = ys := Option.some.inj h
    rcases List.mem_cons.mp hy with rfl | hy
    · exact ⟨x, List.mem_cons_self .., hz⟩
    · obtain ⟨x, hx, heq⟩ := ih hzs hy
      exact ⟨x, List.mem_cons_of_mem _ hx, heq⟩

namespace Json

open Text (Scan)
open Text.Scan

/-! ### Values off a text -/

/-- Whatever the scanner takes off a text has the property. -/
def Yields (p : Scan β) (P : β → Prop) : Prop :=
  ∀ cs x rest, p cs = some (x, rest) → P x

theorem yields_pure {P : β → Prop} {x : β} (h : P x) : Yields (pure x) P := by
  intro cs y rest heq
  cases heq
  exact h

theorem yields_failure {P : β → Prop} : Yields failure P := nofun

theorem Yields.bind {P : β → Prop} {Q : γ → Prop} {p : Scan β} {f : β → Scan γ} (hp : Yields p P)
    (hf : ∀ x, P x → Yields (f x) Q) : Yields (p >>= f) Q := by
  intro cs y rest heq
  obtain ⟨⟨x, more⟩, hx, hy⟩ := Option.bind_eq_some_iff.mp heq
  exact hf x (hp cs x more hx) more y rest hy

theorem yields_any (p : Scan β) : Yields p fun _ => True := fun _ _ _ _ => trivial

theorem yields_bind {Q : γ → Prop} (p : Scan β) {f : β → Scan γ} (hf : ∀ x, Yields (f x) Q) :
    Yields (p >>= f) Q := (yields_any p).bind fun x _ => hf x

theorem yields_seq {Q : γ → Prop} (p : Scan β) {q : Scan γ} (hq : Yields q Q) : Yields (p *> q) Q :=
  yields_bind p fun _ => hq

theorem Yields.map {P : β → Prop} {Q : γ → Prop} {p : Scan β} {f : β → γ} (hp : Yields p P)
    (hf : ∀ x, P x → Q (f x)) : Yields (f <$> p) Q :=
  hp.bind fun x hx => yields_pure (hf x hx)

theorem Yields.ite {P : β → Prop} {p q : Scan β} {c : Prop} [Decidable c] (hp : Yields p P)
    (hq : Yields q P) : Yields (if c then p else q) P := by
  split
  · exact hp
  · exact hq

theorem yields_items {P : β → Prop} {item : Scan β} (hitem : Yields item P) (close : Char)
    (fuel : Nat) : Yields (items item close fuel) fun xs => ∀ x ∈ xs, P x := by
  induction fuel with
  | zero => exact yields_failure
  | succ fuel ih =>
    refine hitem.bind fun x hx => yields_bind _ fun _ => yields_bind _ fun c => ?_
    refine .ite (ih.bind fun xs hxs => yields_pure ?_) (.ite (yields_pure ?_) yields_failure)
    · exact List.forall_mem_cons.mpr ⟨hx, hxs⟩
    · exact List.forall_mem_singleton.mpr hx

theorem yields_container {P : β → Prop} {item : Scan β} (hitem : Yields item P) (close : Char) :
    Yields (container item close) fun xs => ∀ x ∈ xs, P x := by
  refine yields_bind _ fun _ => yields_bind _ fun c => .ite ?_ ?_
  · exact yields_bind _ fun _ => yields_pure (List.forall_mem_nil _)
  · exact yields_bind _ fun cs => yields_items hitem close _

theorem depth_orUnreadable_map {f : β → Json} (hf : ∀ x, (f x).depth = 0) (x : Option β) :
    (orUnreadable (x.map f)).depth = 0 := by
  cases x with
  | none => rfl
  | some x => exact hf x

theorem yields_numeral : Yields numeral fun j => j.depth = 0 := by
  refine yields_bind _ fun sign => yields_bind _ fun whole => ?_
  have hrest : Yields (do
      let places ← Text.Scan.optional (do word "."; run1 Char.isDigit)
      let e ← Text.Scan.optional exponent
      return orUnreadable ((JsonNumber.ofParts? sign.isSome whole places e).map number))
      fun j => j.depth = 0 :=
    yields_bind _ fun _ => yields_bind _ fun _ =>
      yields_pure (depth_orUnreadable_map (fun _ => rfl) _)
  exact .ite (yields_bind _ fun _ => hrest) hrest

theorem yields_scalar : Yields scalar fun j => j.depth = 0 := by
  refine yields_bind _ fun c => ?_
  split
  · refine yields_seq _ ((yields_any stringTail).map fun s _ => ?_)
    exact depth_orUnreadable_map (fun _ => rfl) s
  · exact yields_seq _ (yields_pure rfl)
  · exact yields_seq _ (yields_pure rfl)
  · exact yields_seq _ (yields_pure rfl)
  · exact yields_numeral

theorem depth_ofMembers_le {members : List (Option String × Json)} {d : Nat}
    (h : ∀ m ∈ members, m.2.depth ≤ d) : (ofMembers members).depth ≤ d + 1 := by
  rw [ofMembers, orUnreadable]
  cases hall : members.mapM fun m => do return (← m.1, m.2) with
  | none => exact Nat.zero_le _
  | some ms =>
    refine depth_object_le_iff.mpr ⟨Nat.succ_pos d, fun m hm => Nat.lt_succ_of_le ?_⟩
    obtain ⟨n, hn, heq⟩ := exists_of_mem_mapM hall hm
    obtain ⟨name, -, heq⟩ := Option.bind_eq_some_iff.mp heq
    cases heq
    exact h n hn

theorem yields_value (depth : Nat) : Yields (value depth) fun j => j.depth ≤ depth := by
  have hscalar {depth : Nat} : Yields scalar fun j => j.depth ≤ depth := fun cs j rest heq =>
    (yields_scalar cs j rest heq).trans_le (Nat.zero_le _)
  induction depth with
  | zero =>
    refine yields_bind _ fun _ => yields_bind _ fun c => ?_
    split
    · exact hscalar
    · exact yields_bind _ fun _ => yields_seq _ (yields_pure (Nat.le_refl _))
  | succ depth ih =>
    refine yields_bind _ fun _ => yields_bind _ fun c => ?_
    split
    · refine yields_seq _ ((yields_container ih _).map fun items hitems => ?_)
      rw [depth_array_le_iff]
      exact ⟨Nat.succ_pos depth, fun j hj => Nat.lt_succ_of_le (hitems j hj)⟩
    · have hmember : Yields (member depth) fun m => m.2.depth ≤ depth :=
        yields_bind _ fun name => ih.bind fun j hj => yields_pure hj
      exact yields_seq _ ((yields_container hmember _).map fun _ => depth_ofMembers_le)
    · exact hscalar

theorem depth_le_of_parse? {text : String} {j : Json} (h : parse? text = some j) :
    j.depth ≤ nesting := by
  rw [parse?, parse?_eq_some_iff] at h
  have hparse : Yields (do let j ← value nesting; blanks; return j) fun j => j.depth ≤ nesting :=
    (yields_value nesting).bind fun j hj => yields_bind _ fun _ => yields_pure hj
  exact hparse _ _ _ h

/-! ### Fields and lists -/

theorem depth_pos_of_record? {j : Json} {names : List String} {fields : List (Option Json)}
    (h : j.record? names = some fields) : 0 < j.depth := by
  cases j with
  | array items => exact (depth_array_le_iff.mp (Nat.le_refl _)).1
  | object members => exact (depth_object_le_iff.mp (Nat.le_refl _)).1
  | _ => cases h

theorem depth_field_lt {j : Json} {names : List String} {fields : List (Option Json)}
    (h : j.record? names = some fields) {k : Json} (hk : some k ∈ fields) : k.depth < j.depth := by
  cases j with
  | array items =>
    rw [record?] at h
    split at h
    · obtain rfl := Option.some.inj h
      obtain ⟨i, -, hi⟩ := List.mem_map.mp hk
      exact depth_item_lt (List.mem_of_getElem? hi)
    · cases h
  | object members =>
    obtain ⟨name, -, hname⟩ := exists_of_mem_mapM h hk
    split at hname
    · cases hname
    · next m hm =>
      obtain rfl := Option.some.inj (Option.some.inj hname)
      have hmem : m ∈ members := List.mem_of_mem_filter (hm ▸ List.mem_singleton_self m)
      exact depth_member_lt hmem
    · cases hname
  | _ => cases h

theorem depth_list_le {write : β → Json} {read : Json → Option β} {d : Nat}
    (hx : ∀ i x, i.depth < d → read i = some x → (write x).depth < d) {j : Json} (hj : j.depth ≤ d)
    {xs : List β} (h : list? read j = some xs) : (array (xs.map write)).depth ≤ d := by
  obtain ⟨items, hitems, h⟩ := Option.bind_eq_some_iff.mp h
  cases j with
  | array is =>
    obtain rfl : is = items := Option.some.inj hitems
    obtain ⟨hpos, hlt⟩ := depth_array_le_iff.mp hj
    refine depth_array_le_iff.mpr ⟨hpos, ?_⟩
    rw [List.forall_mem_map]
    intro x hmem
    obtain ⟨i, hi, hread⟩ := exists_of_mem_mapM h hmem
    exact hx i x (hlt i hi) hread
  | _ => cases hitems

/-- A list in a field of a record is written below the record, if its items are written no deeper
than they were read from or than `b`. -/
theorem depth_listField_lt (write : β → Json) {read : Json → Option β} {b : Nat}
    (hwrite : ∀ {i x}, read i = some x → (write x).depth ≤ max b i.depth) {j : Json}
    {names : List String} {fields : List (Option Json)} (hfields : j.record? names = some fields)
    {field : Option Json} (hmem : field ∈ fields) {xs : List β}
    (h : withDefault [] (list? read) field = some xs) :
    (array (xs.map write)).depth < max (b + 2) j.depth := by
  cases field with
  | none =>
    obtain rfl : [] = xs := Option.some.inj h
    change 1 < max (b + 2) j.depth
    omega
  | some k =>
    have hk := depth_field_lt hfields hmem
    have harray : (array (xs.map write)).depth ≤ max (b + 1) k.depth := by
      refine depth_list_le (fun i x hi hx => ?_) (Nat.le_max_right _ _) h
      have hle := hwrite hx
      omega
    omega

theorem exists_of_nullable {read : Json → Option β} {field : Option Json} {x : β}
    (h : nullable read field = some (some x)) : ∃ j, field = some j ∧ read j = some x := by
  unfold nullable at h
  split at h
  · cases h
  · cases h
  · next j _ =>
    obtain ⟨y, hy, heq⟩ := Option.map_eq_some_iff.mp h
    exact ⟨j, rfl, hy.trans heq⟩

theorem exists_of_required {read : Json → Option β} {field : Option Json} {x : β}
    (h : required read field = some x) : ∃ j, field = some j ∧ read j = some x :=
  Option.bind_eq_some_iff.mp h

theorem depth_map_le {write : β → Json} {d : Nat} (h : ∀ x, (write x).depth ≤ d) (xs : List β) :
    (array (xs.map write)).depth ≤ d + 1 := by
  rw [depth_array_le_iff, List.forall_mem_map]
  exact ⟨Nat.succ_pos d, fun x _ => Nat.lt_succ_of_le (h x)⟩

theorem depth_ofTable_le {write : β → Json} {d : Nat} (h : ∀ x, (write x).depth ≤ d) (t : Table β) :
    (ofTable write t).depth ≤ d + 1 := by
  rw [ofTable, depth_object_le_iff, List.forall_mem_map]
  exact ⟨Nat.succ_pos d, fun e _ => Nat.lt_succ_of_le (h e.2)⟩

end Json

/-! ### Parts of graphs -/

variable {w : Float32 → Json} (flat : ∀ x, (w x).depth = 0)

namespace Node

theorem depth_tagged?_le {below : Bool} {j fields : Json} {type : String}
    (h : tagged? below j = some (type, fields)) : fields.depth ≤ j.depth := by
  cases j with
  | object members =>
    obtain ⟨record, -, h⟩ := Option.bind_eq_some_iff.mp h
    split at h
    · obtain ⟨t, -, h⟩ := Option.bind_eq_some_iff.mp h
      cases h
      exact Nat.le_refl _
    · cases h
  | array items =>
    cases items with
    | nil => cases h
    | cons type items =>
      obtain ⟨t, -, h⟩ := Option.bind_eq_some_iff.mp h
      cases h
      have hle : (Json.array (type :: items)).depth ≤ (Json.array (type :: items)).depth := le_rfl
      rw [Json.depth_array_le_iff] at hle ⊢
      exact ⟨hle.1, fun j hj => hle.2 j (List.mem_cons_of_mem _ hj)⟩
  | _ => cases h

theorem exists_of_childOfJson? {label : String} {readLabel : Json → Option β}
    {read : Json → Option (Node Float32)} {j : Json} {c : β × Node Float32}
    (h : childOfJson? label readLabel read j = some c) :
    ∃ k, k.depth < j.depth ∧ read k = some c.2 := by
  obtain ⟨fields, hfields, h⟩ := Option.bind_eq_some_iff.mp h
  split at h
  · next l node =>
    obtain ⟨x, -, h⟩ := Option.bind_eq_some_iff.mp h
    obtain ⟨n, hn, h⟩ := Option.bind_eq_some_iff.mp h
    cases h
    obtain ⟨k, rfl, hk⟩ := Json.exists_of_required hn
    exact ⟨k, Json.depth_field_lt hfields (by simp), hk⟩
  · cases h

theorem depth_children_le {label : String} {readLabel : Json → Option β}
    {read : Json → Option (Node Float32)} {write : β → Json} (hwrite : ∀ x, (write x).depth = 0)
    (hread : ∀ {k n}, read k = some n → (n.toJson w).depth ≤ k.depth) {j : Json}
    {cs : List (β × Node Float32)} (h : list? (childOfJson? label readLabel read) j = some cs) :
    (Json.array (cs.map (childToJson label write w))).depth ≤ j.depth := by
  refine Json.depth_list_le (fun i c hi hc => ?_) (Nat.le_refl _) h
  obtain ⟨k, hk, hc⟩ := exists_of_childOfJson? hc
  have hlt := (hread hc).trans_lt hk
  have hchild : (childToJson label write w c).depth ≤ i.depth := by
    have hpos : 0 < i.depth := Nat.zero_lt_of_lt hlt
    simpa [childToJson, Json.depth_object_le_iff, hwrite] using ⟨hpos, hlt⟩
  exact hchild.trans_lt hi

include flat

theorem depth_toJson_le_within {fuel : Nat} {below : Bool} {j : Json} {n : Node Float32}
    (h : ofJsonWithin? fuel below j = some n) : (n.toJson w).depth ≤ j.depth := by
  induction fuel generalizing below j n with
  | zero => cases h
  | succ fuel ih =>
    obtain ⟨⟨type, fields⟩, htagged, h⟩ := Option.bind_eq_some_iff.mp h
    refine le_trans ?_ (depth_tagged?_le htagged)
    simp only at h
    split at h
    · obtain ⟨record, hrecord, h⟩ := Option.bind_eq_some_iff.mp h
      have hpos := Json.depth_pos_of_record? hrecord
      split at h
      · obtain ⟨clip, -, h⟩ := Option.bind_eq_some_iff.mp h
        cases h
        exact hpos
      · cases h
    · obtain ⟨record, hrecord, h⟩ := Option.bind_eq_some_iff.mp h
      have hpos := Json.depth_pos_of_record? hrecord
      split at h
      · simp only [Option.bind_eq_bind, Option.bind_eq_some_iff] at h
        obtain ⟨name, -, channel, -, cs, hcs, h⟩ := h
        cases h
        obtain ⟨k, rfl, hcs⟩ := Json.exists_of_required hcs
        have hk := Json.depth_field_lt (k := k) hrecord (by simp)
        have hchildren := (depth_children_le flat ih hcs).trans_lt hk
        simpa [toJson, Json.depth_object_le_iff] using ⟨hpos, hchildren⟩
      · cases h
    · obtain ⟨record, hrecord, h⟩ := Option.bind_eq_some_iff.mp h
      have hpos := Json.depth_pos_of_record? hrecord
      split at h
      · simp only [Option.bind_eq_bind, Option.bind_eq_some_iff] at h
        obtain ⟨name, -, cs, hcs, h⟩ := h
        cases h
        obtain ⟨k, rfl, hcs⟩ := Json.exists_of_required hcs
        have hk := Json.depth_field_lt (k := k) hrecord (by simp)
        have hchildren := (depth_children_le Json.depth_string ih hcs).trans_lt hk
        simpa [toJson, Json.depth_object_le_iff] using ⟨hpos, hchildren⟩
      · cases h
    · cases h

theorem depth_toJson_le {j : Json} {n : Node Float32} (h : ofJson? j = some n) :
    (n.toJson w).depth ≤ j.depth := by
  rw [ofJson?] at h
  split at h
  · exact depth_toJson_le_within flat h
  · cases h

end Node

include flat

namespace State

theorem depth_toJson_le {j : Json} {s : State Float32} (h : ofJson? j = some s) :
    (s.toJson w).depth ≤ j.depth := by
  obtain ⟨fields, hfields, h⟩ := Option.bind_eq_some_iff.mp h
  have hpos := Json.depth_pos_of_record? hfields
  split at h
  · simp only [Option.bind_eq_bind, Option.bind_eq_some_iff] at h
    obtain ⟨name, -, motion, hmotion, time, -, speed, -, cycle, -, mirror, -, h⟩ := h
    cases h
    have hlt : ∀ m ∈ motion, (m.toJson w).depth < j.depth := by
      rintro m rfl
      obtain ⟨k, rfl, hk⟩ := Json.exists_of_nullable hmotion
      exact (Node.depth_toJson_le flat hk).trans_lt (Json.depth_field_lt hfields (by simp))
    rw [toJson, Json.depth_object_le_iff]
    refine ⟨hpos, fun m hm => ?_⟩
    rw [List.cons_append, List.mem_cons, List.mem_append] at hm
    rcases hm with rfl | hm | hm
    · exact hpos
    · obtain ⟨n, hn, rfl⟩ := Option.map_eq_some_iff.mp (Option.mem_toList.mp hm)
      exact hlt n hn
    · obtain ⟨f, -, hf⟩ := List.mem_filterMap.mp hm
      obtain ⟨c, -, rfl⟩ := Option.map_eq_some_iff.mp hf
      exact hpos
  · cases h

end State

namespace Layer

theorem depth_toJson_le {j : Json} {l : Layer Float32} (h : ofJson? j = some l) :
    (l.toJson w).depth ≤ max 2 j.depth := by
  obtain ⟨fields, hfields, h⟩ := Option.bind_eq_some_iff.mp h
  have hpos := Json.depth_pos_of_record? hfields
  split at h
  · simp only [Option.bind_eq_bind, Option.bind_eq_some_iff] at h
    obtain ⟨name, -, states, hstates, h⟩ := h
    cases h
    have hstate : ∀ {i s}, State.ofJson? i = some s → (s.toJson w).depth ≤ max 0 i.depth :=
      fun hs => (State.depth_toJson_le flat hs).trans (Nat.le_max_right ..)
    have hlt : (Json.array (states.map (State.toJson w))).depth < max 2 j.depth :=
      Json.depth_listField_lt _ hstate hfields (by simp) hstates
    rw [toJson, Json.depth_object_le_iff]
    simp only [List.forall_mem_cons, Json.depth_string]
    exact ⟨by omega, by omega, hlt, List.forall_mem_nil _⟩
  · cases h

end Layer

theorem Channel.depth_toJson_le (c : Channel Float32) : (c.toJson w).depth ≤ 1 := by
  simp [toJson, Json.depth_object_le_iff, flat]

theorem Clip.depth_toJson_le (c : Clip Float32) : (c.toJson w).depth ≤ 3 := by
  have hkey (k : Keyframe Float32) : (k.toJson w).depth ≤ 1 := by
    simp [Keyframe.toJson, Json.depth_object_le_iff, flat]
  have hcurve : (c.curve.toJson w).depth < 3 :=
    Nat.lt_succ_of_le (Json.depth_map_le hkey c.curve.keys)
  simpa [toJson, Json.depth_object_le_iff] using hcurve

theorem Host.depth_toJson_le {j : Json} {h : Host Float32} (hj : ofJson? j = some h) :
    (h.toJson w).depth ≤ max 5 j.depth := by
  obtain ⟨fields, hfields, hj⟩ := Option.bind_eq_some_iff.mp hj
  split at hj
  · simp only [Option.bind_eq_bind, Option.bind_eq_some_iff] at hj
    obtain ⟨id, -, channels, -, layers, hlayers, clips, -, overrides, -, hj⟩ := hj
    cases hj
    have hchannels : (Json.array (channels.map (Channel.toJson w))).depth ≤ 2 :=
      Json.depth_map_le (Channel.depth_toJson_le flat) channels
    have hlayers : (Json.array (layers.map (Layer.toJson w))).depth < max 4 j.depth :=
      Json.depth_listField_lt _ (Layer.depth_toJson_le flat) hfields (by simp) hlayers
    have hclips : (Json.ofTable (Clip.toJson w) clips).depth ≤ 4 :=
      Json.depth_ofTable_le (Clip.depth_toJson_le flat) clips
    have hflags : ∀ t : Table Bool, (Json.ofTable .bool t).depth ≤ 1 :=
      Json.depth_ofTable_le fun b => (Json.depth_bool b).le
    have hoverrides : (Json.ofTable (Json.ofTable .bool) overrides).depth ≤ 2 :=
      Json.depth_ofTable_le hflags overrides
    rw [toJson, Json.depth_object_le_iff]
    refine ⟨by omega, ?_⟩
    split
    · simp only [List.append_nil, List.forall_mem_cons, Json.depth_string]
      exact ⟨by omega, by omega, by omega, by omega, List.forall_mem_nil _⟩
    · simp only [List.cons_append, List.nil_append, List.forall_mem_cons, Json.depth_string]
      exact ⟨by omega, by omega, by omega, by omega, by omega, List.forall_mem_nil _⟩
  · cases hj

end BlendGraph
