import BlendGraph.Namespace

/-!
# Recognising generated names

Every name that is built from the root carries it, hidden or not, and a name that carries the root
is none that a parameter may have.
-/

set_option autoImplicit false

namespace BlendGraph

/-- The first occurrence of an element splits a list in one way only. -/
theorem append_cons_inj_left {β : Type} {xs ys xs' ys' : List β} {c : β} (hx : c ∉ xs)
    (hx' : c ∉ xs') (h : xs ++ c :: ys = xs' ++ c :: ys') : xs = xs' ∧ ys = ys' := by
  rcases List.append_eq_append_iff.mp h with ⟨zs, hxs, hzs⟩ | ⟨zs, hxs, hzs⟩
  · cases zs with
    | nil => simp_all
    | cons z zs =>
      rw [List.cons_append, List.cons_eq_cons] at hzs
      exact absurd (by simp [hxs, hzs.1]) hx'
  · cases zs with
    | nil => simp_all
    | cons z zs =>
      rw [List.cons_append, List.cons_eq_cons] at hzs
      exact absurd (by simp [hxs, hzs.1]) hx

/-- The last occurrence of an element splits a list in one way only. -/
theorem append_cons_inj_right {β : Type} {xs ys xs' ys' : List β} {c : β} (hy : c ∉ ys)
    (hy' : c ∉ ys') (h : xs ++ c :: ys = xs' ++ c :: ys') : xs = xs' ∧ ys = ys' := by
  have hreverse : ys.reverse ++ c :: xs.reverse = ys'.reverse ++ c :: xs'.reverse := by
    simpa using congrArg List.reverse h
  obtain ⟨hys, hxs⟩ := append_cons_inj_left (by simpa using hy) (by simpa using hy') hreverse
  exact ⟨List.reverse_inj.mp hxs, List.reverse_inj.mp hys⟩

namespace Text

theorem toList_shift (k : Nat) (text : String) :
    (shift k text).toList = text.toList.map (shiftChar k) := by
  simp [shift]

theorem infix_shift (k : Nat) {part text : String} (h : part.toList <:+: text.toList) :
    (shift k part).toList <:+: (shift k text).toList := by
  rw [toList_shift, toList_shift]
  exact h.map _

/-- Shifts that make a whole turn together undo each other. -/
theorem shiftChar_shiftChar {j k : Nat} (h : (j + k) % scalarCount = 0) (c : Char) :
    shiftChar k (shiftChar j c) = c := by
  have hsum : (position c + j % scalarCount) % scalarCount < scalarCount :=
    Nat.mod_lt _ (by decide)
  have hback : ((position c + j % scalarCount) % scalarCount + k % scalarCount) % scalarCount
      = position c := by
    rw [← Nat.add_mod, Nat.add_right_comm, Nat.add_mod_mod, Nat.add_right_comm, Nat.add_assoc,
      Nat.add_mod, h, Nat.add_zero, Nat.mod_mod, Nat.mod_eq_of_lt (position_lt c)]
  rw [shiftChar, shiftChar, position_atPosition hsum, hback, atPosition_position]

theorem shift_shift {j k : Nat} (h : (j + k) % scalarCount = 0) (text : String) :
    shift k (shift j text) = text := by
  apply String.toList_injective
  rw [toList_shift, toList_shift, List.map_map]
  exact (List.map_congr_left fun c _ => shiftChar_shiftChar h c).trans (List.map_id' _)

theorem unshift_shift (k : Nat) (text : String) : unshift k (shift k text) = text := by
  apply shift_shift
  unfold scalarCount gapLength
  omega

theorem shift_unshift (k : Nat) (text : String) : shift k (unshift k text) = text := by
  apply shift_shift
  unfold scalarCount gapLength
  omega

@[simp] theorem reveal_hide (text : String) : reveal (hide text) = text :=
  unshift_shift hiddenShift text

@[simp] theorem hide_reveal (text : String) : hide (reveal text) = text :=
  shift_unshift hiddenShift text

theorem shiftChar_ne {k : Nat} (hk : k % scalarCount ≠ 0) (c : Char) : shiftChar k c ≠ c := by
  intro h
  have hc := position_lt c
  have hpos : 0 < scalarCount := by decide
  have hshift := Nat.mod_lt k hpos
  have hmod := Nat.mod_lt (position c + k % scalarCount) hpos
  have hposition := congrArg position h
  rw [shiftChar, position_atPosition hmod] at hposition
  rcases Nat.lt_or_ge (position c + k % scalarCount) scalarCount with hlt | hge
  · rw [Nat.mod_eq_of_lt hlt] at hposition
    omega
  · rw [Nat.mod_eq_sub_mod hge, Nat.mod_eq_of_lt (by omega)] at hposition
    omega

theorem hide_injective {s t : String} (h : hide s = hide t) : s = t := by
  rw [← reveal_hide s, h, reveal_hide]

end Text

namespace Namespace

variable {ns : Namespace}

theorem tags_iff {n : String} :
    ns.tags n = true ↔ ns.root ≠ "" ∧ ns.root.toList <:+: n.toList := by
  simp [tags]

theorem tags_append_left {n : String} (h : ns.tags n = true) (before : String) :
    ns.tags (before ++ n) = true := by
  rw [tags_iff] at h ⊢
  refine ⟨h.1, ?_⟩
  rw [String.toList_append]
  exact h.2.trans (List.suffix_append _ _).isInfix

theorem tags_append_right {n : String} (h : ns.tags n = true) (after : String) :
    ns.tags (n ++ after) = true := by
  rw [tags_iff] at h ⊢
  refine ⟨h.1, ?_⟩
  rw [String.toList_append]
  exact h.2.trans (List.prefix_append _ _).isInfix

theorem tags_root (h : ns.root ≠ "") : ns.tags ns.root = true :=
  tags_iff.mpr ⟨h, List.infix_rfl⟩

/-- Segments without a slash tell generated names apart. -/
theorem channel_inj {s t a b : String} (hs : '/' ∉ s.toList) (ht : '/' ∉ t.toList)
    (h : ns.channel s a = ns.channel t b) : s = t ∧ a = b := by
  have hlist := congrArg String.toList h
  simp only [channel, String.toList_append, List.append_assoc, List.append_cancel_left_eq]
    at hlist
  obtain ⟨hsegment, hrest⟩ := append_cons_inj_left hs ht hlist
  exact ⟨String.toList_injective hsegment, String.toList_injective hrest⟩

/-- A hidden name is none that starts with the root. -/
theorem hide_channel_ne (h : ns.root ≠ "") (s t a b : String) :
    Text.hide (ns.channel s a) ≠ ns.channel t b := by
  intro heq
  have hlist := congrArg String.toList heq
  cases hroot : ns.root.toList with
  | nil => exact h (String.toList_injective (by simpa using hroot))
  | cons c cs =>
    rw [Text.hide, Text.toList_shift] at hlist
    simp only [channel, String.toList_append, hroot, List.cons_append, List.map_cons,
      List.cons_eq_cons] at hlist
    exact Text.shiftChar_ne (by decide) c hlist.1

theorem tags_channel (h : ns.root ≠ "") (segment rest : String) :
    ns.tags (ns.channel segment rest) = true :=
  tags_append_right (tags_append_right (tags_append_right
    (tags_append_right (tags_root h) _) _) _) _

theorem tags_blendSet (h : ns.root ≠ "") : ns.tags ns.blendSet = true :=
  tags_append_right (tags_root h) _

theorem tags_layer (h : ns.root ≠ "") : ns.tags ns.layer = true :=
  tags_append_right (tags_append_left (tags_root h) _) _

theorem tags_of_startsWith {n segment : String} (h : ns.root ≠ "")
    (hn : Text.startsWith n (ns.start segment) = true) : ns.tags n = true := by
  rw [Text.startsWith_iff] at hn
  exact tags_iff.mpr ⟨h, (tags_iff.mp (tags_channel h segment "")).2.trans hn.isInfix⟩

/-- A revealed name carries the root if the name has the hidden root in it. -/
theorem tags_reveal_iff (h : ns.root ≠ "") {n : String} :
    ns.tags (Text.reveal n) = true ↔ Text.contains n (Text.hide ns.root) = true := by
  rw [tags_iff, Text.contains_iff, and_iff_right h]
  constructor
  · intro hn
    have hhidden : (Text.hide ns.root).toList <:+: (Text.hide (Text.reveal n)).toList :=
      Text.infix_shift _ hn
    rwa [Text.hide_reveal] at hhidden
  · intro hn
    have hshown : (Text.reveal (Text.hide ns.root)).toList <:+: (Text.reveal n).toList :=
      Text.infix_shift _ hn
    rwa [Text.reveal_hide] at hshown

theorem generates_of_tags {n : String} (h : ns.tags n = true) : ns.generates n = true := by
  simp [generates, h]

theorem generates_hide {n : String} (h : ns.tags n = true) :
    ns.generates (Text.hide n) = true := by
  simp [generates, h]

theorem generates_of_carriesBit {n : String} (h : ns.carriesBit n = true) :
    ns.generates n = true := by
  simp only [carriesBit, Bool.and_eq_true, Bool.not_eq_true', Bool.or_eq_true,
    String.isEmpty_eq_false_iff] at h
  obtain ⟨hroot, h | h⟩ := h
  · simp [generates, tags_of_startsWith hroot h]
  · simp [generates, tags_of_startsWith hroot h]

theorem carriesBit_iff {n : String} : ns.carriesBit n = true ↔ ns.root ≠ "" ∧
    ((ns.start "Binary").toList <+: n.toList ∨
      (ns.start "Binary").toList <+: (Text.reveal n).toList) := by
  simp [carriesBit]

theorem carriesBit_channel (h : ns.root ≠ "") (rest : String) :
    ns.carriesBit (ns.channel "Binary" rest) = true := by
  refine carriesBit_iff.mpr ⟨h, .inl ?_⟩
  simp [start, channel]

theorem carriesBit_hide (h : ns.root ≠ "") (rest : String) :
    ns.carriesBit (Text.hide (ns.channel "Binary" rest)) = true := by
  refine carriesBit_iff.mpr ⟨h, .inr ?_⟩
  simp [start, channel]

/-- Of the names that start with the root, those of bits go on with their segment. -/
theorem carriesBit_root_append {rest : String} (h : ns.carriesBit (ns.root ++ rest) = true) :
    "/Binary/".toList <+: rest.toList := by
  obtain ⟨hroot, h⟩ := carriesBit_iff.mp h
  have hstart : (ns.start "Binary").toList = ns.root.toList ++ "/Binary/".toList := by
    simp [start, channel]
  rw [hstart] at h
  rcases h with h | h
  · rw [String.toList_append] at h
    exact (List.prefix_append_right_inj _).mp h
  · -- the first character of a revealed name is not that of the root
    cases hchars : ns.root.toList with
    | nil => exact absurd (String.toList_injective (by simpa using hchars)) hroot
    | cons c cs =>
      rw [Text.reveal, Text.unshift, Text.toList_shift, String.toList_append, hchars] at h
      exact absurd (List.cons_prefix_cons.mp h).1.symm (Text.shiftChar_ne (by decide) c)

theorem carriesBit_blendSet (ns : Namespace) : ns.carriesBit ns.blendSet = false := by
  rw [← Bool.not_eq_true]
  intro h
  exact absurd (carriesBit_root_append h) (by decide)

theorem segment_of_carriesBit {segment rest : String}
    (h : ns.carriesBit (ns.channel segment rest) = true) :
    "Binary/".toList <+: segment.toList ++ '/' :: rest.toList := by
  have hassoc : ns.channel segment rest = ns.root ++ ("/" ++ (segment ++ ("/" ++ rest))) := by
    apply String.toList_injective
    simp [channel]
  rw [hassoc] at h
  simpa using carriesBit_root_append h

theorem carriesBit_proxy (ns : Namespace) (n : String) : ns.carriesBit (ns.proxy n) = false := by
  rw [← Bool.not_eq_true]
  intro h
  simpa using segment_of_carriesBit h

theorem carriesBit_coefficient (ns : Namespace) (o : Observer) (n : String) :
    ns.carriesBit (ns.coefficient o n) = false := by
  rw [← Bool.not_eq_true]
  intro h
  have hsegment := segment_of_carriesBit h
  cases o <;> simp [Observer.segment] at hsegment

theorem carriesBit_selectorChannel (ns : Namespace) :
    ns.carriesBit selectorChannel = false := by
  have hslash : '/' ∈ (ns.start "Binary").toList := by
    simp [start, channel]
  have hplain : '/' ∉ selectorChannel.toList := by decide
  have hrevealed : '/' ∉ (Text.reveal selectorChannel).toList := by decide +kernel
  have hnot {n : String} (hn : '/' ∉ n.toList) :
      Text.startsWith n (ns.start "Binary") = false := by
    rw [← Bool.not_eq_true, Text.startsWith_iff]
    exact fun hpre => hn (hpre.subset hslash)
  simp [carriesBit, hnot hplain, hnot hrevealed]

end Namespace

end BlendGraph
