import BlendGraph.Proofs.Json.WrittenContainers
import BlendGraph.Proofs.Json.WrittenStrings

/-!
# Written documents

A document that is written over several lines is read again value by value. Only numbers may change
on the way, so that a written value reads as itself with its numbers read from their texts.
-/

set_option autoImplicit false

namespace BlendGraph.Json

open Text (Scan)
open Text.Scan

variable {β γ : Type}

/-! ### Values -/

/-- A property holds of a value if it passes from the parts of each container to the container. -/
@[elab_as_elim]
theorem induction {motive : Json → Prop} (null : motive null) (bool : ∀ b, motive (bool b))
    (number : ∀ n, motive (number n)) (string : ∀ s, motive (string s))
    (array : ∀ items, (∀ j ∈ items, motive j) → motive (array items))
    (object : ∀ members, (∀ m ∈ members, motive m.2) → motive (object members))
    (unreadable : motive unreadable) (j : Json) : motive j :=
  @Json.rec motive (fun items => ∀ j ∈ items, motive j) (fun members => ∀ m ∈ members, motive m.2)
    (fun m => motive m.2) null bool number string (fun items h => array items h)
    (fun members h => object members h) unreadable (fun _ h => nomatch h)
    (fun _ _ h hs j hj => (List.mem_cons.mp hj).elim (fun e => e ▸ h) (hs j))
    (fun _ h => nomatch h)
    (fun _ _ h hs m hm => (List.mem_cons.mp hm).elim (fun e => e ▸ h) (hs m))
    (fun _ _ h => h) j

mutual

/-- The value that is read when this one has been written. -/
def reread : Json → Json
  | null | unreadable => null
  | bool b => bool b
  | number n => (numeral.parse? n.text).getD unreadable
  | string s => string s
  | array items => array (rereadItems items)
  | object members => object (rereadMembers members)

def rereadItems : List Json → List Json
  | [] => []
  | j :: js => reread j :: rereadItems js

def rereadMembers : List (String × Json) → List (String × Json)
  | [] => []
  | (name, j) :: js => (name, reread j) :: rereadMembers js

end

mutual

/-- The numbers of a value, in the order in which they are written. -/
def numbers : Json → List JsonNumber
  | null | bool _ | string _ | unreadable => []
  | number n => [n]
  | array items => numbersItems items
  | object members => numbersMembers members

def numbersItems : List Json → List JsonNumber
  | [] => []
  | j :: js => numbers j ++ numbersItems js

def numbersMembers : List (String × Json) → List JsonNumber
  | [] => []
  | (_, j) :: js => numbers j ++ numbersMembers js

end

@[simp] theorem rereadItems_eq (items : List Json) : rereadItems items = items.map reread := by
  induction items with
  | nil => rfl
  | cons j js ih => rw [rereadItems, ih, List.map_cons]

@[simp] theorem rereadMembers_eq (members : List (String × Json)) :
    rereadMembers members = members.map fun m => (m.1, m.2.reread) := by
  induction members with
  | nil => rfl
  | cons m ms ih => rw [rereadMembers, ih, List.map_cons]

@[simp] theorem numbersItems_eq (items : List Json) :
    numbersItems items = items.flatMap numbers := by
  induction items with
  | nil => rfl
  | cons j js ih => rw [numbersItems, ih, List.flatMap_cons]

@[simp] theorem numbersMembers_eq (members : List (String × Json)) :
    numbersMembers members = members.flatMap fun m => m.2.numbers := by
  induction members with
  | nil => rfl
  | cons m ms ih => rw [numbersMembers, ih, List.flatMap_cons]

/-- The texts of all numbers are numerals. -/
def Legible (j : Json) : Prop := ∀ n ∈ j.numbers, (numeral.parse? n.text).isSome = true

theorem Legible.item {items : List Json} (h : (array items).Legible) {j : Json} (hj : j ∈ items) :
    j.Legible := by
  intro n hn
  apply h n
  rw [numbers, numbersItems_eq]
  exact List.mem_flatMap.mpr ⟨j, hj, hn⟩

theorem Legible.member {members : List (String × Json)} (h : (object members).Legible)
    {m : String × Json} (hm : m ∈ members) : m.2.Legible := by
  intro n hn
  apply h n
  rw [numbers, numbersMembers_eq]
  exact List.mem_flatMap.mpr ⟨m, hm, hn⟩

@[simp] theorem depth_string (s : String) : (string s).depth = 0 := rfl

@[simp] theorem depth_bool (b : Bool) : (bool b).depth = 0 := rfl

theorem depthItems_le_iff {items : List Json} {d : Nat} :
    depthItems items ≤ d ↔ ∀ j ∈ items, j.depth ≤ d := by
  induction items with
  | nil => simp [depthItems]
  | cons j js ih => rw [depthItems, Nat.max_le, ih, List.forall_mem_cons]

theorem depthMembers_le_iff {members : List (String × Json)} {d : Nat} :
    depthMembers members ≤ d ↔ ∀ m ∈ members, m.2.depth ≤ d := by
  induction members with
  | nil => simp [depthMembers]
  | cons m ms ih => rw [depthMembers, Nat.max_le, ih, List.forall_mem_cons]

theorem depth_array_le_iff {items : List Json} {d : Nat} :
    (array items).depth ≤ d ↔ 0 < d ∧ ∀ j ∈ items, j.depth < d := by
  cases d with
  | zero => simp [depth]
  | succ d =>
    rw [depth, Nat.add_comm, Nat.succ_le_succ_iff, depthItems_le_iff]
    exact ⟨fun h => ⟨Nat.succ_pos d, fun j hj => Nat.lt_succ_of_le (h j hj)⟩,
      fun h j hj => Nat.le_of_lt_succ (h.2 j hj)⟩

theorem depth_object_le_iff {members : List (String × Json)} {d : Nat} :
    (object members).depth ≤ d ↔ 0 < d ∧ ∀ m ∈ members, m.2.depth < d := by
  cases d with
  | zero => simp [depth]
  | succ d =>
    rw [depth, Nat.add_comm, Nat.succ_le_succ_iff, depthMembers_le_iff]
    exact ⟨fun h => ⟨Nat.succ_pos d, fun m hm => Nat.lt_succ_of_le (h m hm)⟩,
      fun h m hm => Nat.le_of_lt_succ (h.2 m hm)⟩

theorem depth_item_lt {items : List Json} {j : Json} (hj : j ∈ items) :
    j.depth < (array items).depth :=
  (depth_array_le_iff.mp (Nat.le_refl _)).2 j hj

theorem depth_member_lt {members : List (String × Json)} {m : String × Json} (hm : m ∈ members) :
    m.2.depth < (object members).depth :=
  (depth_object_le_iff.mp (Nat.le_refl _)).2 m hm

/-! ### Scalars -/

theorem numeral_head {c : Char} {cs : List Char} (h : (numeral (c :: cs)).isSome = true) :
    c = '-' ∨ c.isDigit = true := by
  by_contra hnot
  rw [not_or, Bool.not_eq_true] at hnot
  have hsign : Text.Scan.optional (word "-") (c :: cs) = some (none, c :: cs) := by
    simp [Text.Scan.optional, word, Text.after?, Ne.symm hnot.1]
  have hdigits : run Char.isDigit (c :: cs) = some ([], c :: cs) := by
    simp [run, hnot.2]
  have hnone : numeral (c :: cs) = none := by
    rw [numeral, bind_eq hsign]
    change ((run1 Char.isDigit (c :: cs)).bind _) = none
    rw [run1, bind_eq hdigits]
    rfl
  rw [hnone] at h
  cases h

/-- A value that is not a container is a scalar, however deep it may stand. -/
theorem value_scalar (depth : Nat) {pad : List Char} (hpad : Blank pad) {c : Char}
    (hblank : isBlank c = false) (hopen : c ≠ '[' ∧ c ≠ '\x7b') (cs : List Char) :
    value depth (pad ++ c :: cs) = scalar (c :: cs) := by
  have hskip : blanks (pad ++ c :: cs) = some ((), c :: cs) := by
    refine blanks_append hpad fun d hd => ?_
    obtain rfl := Option.some.inj hd
    exact hblank
  have hpeek : peek (c :: cs) = some (some c, c :: cs) := rfl
  cases depth with
  | zero =>
    rw [value, bind_eq hskip, bind_eq hpeek]
    simp [closer?, hopen]
  | succ depth =>
    rw [value, bind_eq hskip, bind_eq hpeek]
    simp [hopen]

/-- The beginnings of numerals are those of no other value, and no blanks. -/
theorem ne_of_numeral_head {c : Char} (h : c = '-' ∨ c.isDigit = true) :
    isBlank c = false ∧ c ∉ ['[', '\x7b', ']', '\x7d', '"', 'n', 't', 'f'] := by
  have hother : ∀ d ∈ [' ', '\n', '\r', '\t', '[', '\x7b', ']', '\x7d', '"', 'n', 't', 'f'],
      c ≠ d := by
    rintro d hd rfl
    have hnot : ∀ d ∈ [' ', '\n', '\r', '\t', '[', '\x7b', ']', '\x7d', '"', 'n', 't', 'f'],
        d ≠ '-' ∧ d.isDigit = false := by simp
    rcases h with heq | hdigit
    · exact (hnot c hd).1 heq
    · rw [(hnot c hd).2] at hdigit
      cases hdigit
  constructor
  · simp [isBlank, hother]
  · exact fun hmem => hother c (by simp only [List.mem_cons] at hmem ⊢; tauto) rfl

theorem exists_text_eq {n : JsonNumber} (h : (numeral.parse? n.text).isSome = true) :
    ∃ c cs, n.text.toList = c :: cs ∧ (c = '-' ∨ c.isDigit = true) := by
  obtain ⟨j, hj⟩ := Option.isSome_iff_exists.mp h
  rw [parse?_eq_some_iff] at hj
  cases htext : n.text.toList with
  | nil =>
    rw [htext] at hj
    cases hj
  | cons c cs =>
    rw [htext] at hj
    exact ⟨c, cs, rfl, numeral_head (by rw [hj]; rfl)⟩

theorem reads_word (depth : Nat) {text : String} {c : Char} {cs : List Char}
    (htext : text.toList = c :: cs) (hblank : isBlank c = false) (hopen : c ≠ '[' ∧ c ≠ '\x7b')
    {j : Json}
    (hscalar : ∀ rest, scalar (c :: (cs ++ rest)) = (word text *> pure j) (c :: (cs ++ rest))) :
    Reads (value depth) text.toList j := by
  intro pad rest hpad _
  have hword : word text (text.toList ++ rest) = some ((), rest) := by
    rw [word, Text.after?_eq_some_iff.mpr rfl]
    rfl
  rw [htext, List.cons_append] at hword ⊢
  rw [value_scalar depth hpad hblank hopen, hscalar]
  exact bind_eq hword

theorem reads_null (depth : Nat) : Reads (value depth) "null".toList null :=
  reads_word depth (show "null".toList = 'n' :: ['u', 'l', 'l'] from rfl) rfl (by decide)
    fun _ => rfl

theorem reads_bool (depth : Nat) (b : Bool) :
    Reads (value depth) (if b then "true" else "false").toList (bool b) := by
  cases b with
  | false =>
    exact reads_word depth (show "false".toList = 'f' :: ['a', 'l', 's', 'e'] from rfl) rfl
      (by decide) fun _ => rfl
  | true =>
    exact reads_word depth (show "true".toList = 't' :: ['r', 'u', 'e'] from rfl) rfl
      (by decide) fun _ => rfl

theorem reads_number (depth : Nat) {n : JsonNumber} (h : (numeral.parse? n.text).isSome = true) :
    Reads (value depth) n.text.toList (number n).reread := by
  intro pad rest hpad hrest
  obtain ⟨j, hj⟩ := Option.isSome_iff_exists.mp h
  obtain ⟨c, cs, htext, hc⟩ := exists_text_eq h
  obtain ⟨hblank, hother⟩ := ne_of_numeral_head hc
  simp only [List.mem_cons, List.not_mem_nil, or_false, not_or] at hother
  have hscalar : scalar (c :: (cs ++ rest)) = numeral (c :: (cs ++ rest)) := by
    rw [scalar, bind_eq (show peek (c :: (cs ++ rest)) = some (some c, c :: (cs ++ rest)) from rfl)]
    simp [hother]
  have hnumeral := apart_numeral n.text.toList rest hrest
  rw [parse?_eq_some_iff.mp hj, htext, List.cons_append] at hnumeral
  rw [htext, List.cons_append, value_scalar depth hpad hblank ⟨hother.1, hother.2.1⟩, hscalar,
    hnumeral, reread, hj]
  rfl

theorem reads_string (depth : Nat) (s : String) :
    Reads (value depth) (quote s).toList (string s) := by
  intro pad rest hpad _
  have htail := stringTail_written s rest
  rw [toList_quote, List.cons_append, List.append_assoc, List.cons_append, List.nil_append,
    value_scalar depth hpad rfl (by decide)]
  change (stringTail _).bind (fun r => some (orUnreadable (r.1.map string), r.2)) = _
  rw [htail]
  rfl

/-! ### Values over several lines -/

theorem ofMembers_some (members : List (String × Json)) :
    ofMembers (members.map fun m => (some m.1, m.2)) = object members := by
  have hall : (members.map fun m => (some m.1, m.2)).mapM
      (fun m : Option String × Json => do return (← m.1, m.2)) = some members := by
    induction members with
    | nil => rfl
    | cons m ms ih => rw [List.map_cons, List.mapM_cons, ih]; rfl
  rw [ofMembers, hall]
  rfl

theorem opens_quote (s after : String) : Opens (quote s ++ after).toList :=
  ⟨'"', s.toList.flatMap escape ++ '"' :: after.toList, by simp [toList_quote], by decide⟩

theorem opens_pretty {j : Json} (legible : j.Legible) (indent : String) :
    Opens (pretty indent j).toList := by
  cases j with
  | null | unreadable => exact ⟨'n', ['u', 'l', 'l'], by rw [pretty]; rfl, by decide⟩
  | bool b =>
    cases b
    · exact ⟨'f', ['a', 'l', 's', 'e'], by rw [pretty]; rfl, by decide⟩
    · exact ⟨'t', ['r', 'u', 'e'], by rw [pretty]; rfl, by decide⟩
  | number n =>
    have hn := legible n (by rw [numbers]; exact List.mem_singleton_self _)
    obtain ⟨c, cs, htext, hc⟩ := exists_text_eq hn
    obtain ⟨hblank, hother⟩ := ne_of_numeral_head hc
    simp only [List.mem_cons, List.not_mem_nil, or_false, not_or] at hother
    exact ⟨c, cs, by rw [pretty, htext], hblank, hother.2.2.1, hother.2.2.2.1⟩
  | string s => exact ⟨'"', _, by rw [pretty, toList_quote], by decide⟩
  | array items =>
    exact ⟨'[', _, by rw [pretty, toList_block]; rfl, by decide⟩
  | object members =>
    exact ⟨'\x7b', _, by rw [pretty, toList_block]; rfl, by decide⟩

theorem memberName_quote (name : String) {pad : List Char} (hpad : Blank pad) (rest : List Char) :
    memberName (pad ++ ((quote name).toList ++ ':' :: rest)) = some (some name, rest) := by
  have hskip : blanks (pad ++ ((quote name).toList ++ ':' :: rest))
      = some ((), (quote name).toList ++ ':' :: rest) := by
    refine blanks_append hpad fun c hc => ?_
    rw [toList_quote] at hc
    obtain rfl := Option.some.inj hc
    rfl
  have hquote : word "\"" ((quote name).toList ++ ':' :: rest)
      = some ((), name.toList.flatMap escape ++ '"' :: ':' :: rest) := by
    rw [toList_quote, List.cons_append, List.append_assoc]
    rfl
  have hcolon : word ":" (':' :: rest) = some ((), rest) := rfl
  rw [memberName, bind_eq hskip, bind_eq hquote, bind_eq (stringTail_written name _),
    bind_eq (blanks_cons rfl rest), bind_eq hcolon]
  rfl

theorem prettyItems_eq (indent : String) (items : List Json) :
    prettyItems indent items = items.map (pretty indent) := by
  induction items with
  | nil => rfl
  | cons j js ih => rw [prettyItems, ih, List.map_cons]

theorem prettyMembers_eq (indent : String) (members : List (String × Json)) :
    prettyMembers indent members
      = members.map fun m => quote m.1 ++ ": " ++ pretty indent m.2 := by
  induction members with
  | nil => rfl
  | cons m ms ih => rw [prettyMembers, ih, List.map_cons]

/-- The scanner of a member: its name, a colon and its value. -/
def member (depth : Nat) : Scan (Option String × Json) := do
  return (← memberName, ← value depth)

theorem value_array {depth : Nat} {cs rest : List Char} {js : List Json}
    (h : container (value depth) ']' cs = some (js, rest)) {pad : List Char} (hpad : Blank pad) :
    value (depth + 1) (pad ++ '[' :: cs) = some (array js, rest) := by
  have hskip : blanks (pad ++ '[' :: cs) = some ((), '[' :: cs) :=
    blanks_append hpad fun c hc => by obtain rfl := Option.some.inj hc; rfl
  have hpeek : peek ('[' :: cs) = some (some '[', '[' :: cs) := rfl
  rw [value, bind_eq hskip, bind_eq hpeek]
  exact map_eq array h

theorem value_object {depth : Nat} {cs rest : List Char} {members : List (String × Json)}
    (h : container (member depth) '\x7d' cs = some (members.map fun m => (some m.1, m.2), rest))
    {pad : List Char} (hpad : Blank pad) :
    value (depth + 1) (pad ++ '\x7b' :: cs) = some (object members, rest) := by
  have hskip : blanks (pad ++ '\x7b' :: cs) = some ((), '\x7b' :: cs) :=
    blanks_append hpad fun c hc => by obtain rfl := Option.some.inj hc; rfl
  have hpeek : peek ('\x7b' :: cs) = some (some '\x7b', '\x7b' :: cs) := rfl
  rw [value, bind_eq hskip, bind_eq hpeek, ← ofMembers_some members]
  exact map_eq ofMembers h

theorem reads_member {depth : Nat} (name : String) {text : List Char} {j : Json}
    (h : Reads (value depth) text j) :
    Reads (member depth) ((quote name ++ ": ").toList ++ text) (some name, j) := by
  intro pad rest hpad hrest
  have htext : (quote name ++ ": ").toList ++ text ++ rest
      = (quote name).toList ++ ':' :: ([' '] ++ (text ++ rest)) := by
    simp
  have hblank : Blank [' '] := List.forall_mem_singleton.mpr rfl
  have hvalue := h [' '] rest hblank hrest
  rw [htext, member, bind_eq (memberName_quote name hpad _), bind_eq hvalue]
  rfl

/-- What a value was written as is read as the value with its numbers read from their texts. -/
theorem reads_pretty {j : Json} (legible : j.Legible) {depth : Nat} (hdepth : j.depth ≤ depth)
    {indent : String} (hindent : Blank indent.toList) :
    Reads (value depth) (pretty indent j).toList j.reread := by
  have hdeeper {indent : String} (h : Blank indent.toList) : Blank (indent ++ "  ").toList := by
    rw [String.toList_append]
    exact blank_deeper h
  induction j using Json.induction generalizing depth indent with
  | null | unreadable => simpa only [pretty, reread] using reads_null depth
  | bool b => simpa only [pretty, reread] using reads_bool depth b
  | number n =>
    have hn := legible n (by rw [numbers]; exact List.mem_singleton_self _)
    exact reads_number depth hn
  | string s => exact reads_string depth s
  | array items ih =>
    cases depth with
    | zero =>
      rw [Json.depth] at hdepth
      omega
    | succ depth =>
      have hitems : List.Forall₂ (Reads (value depth))
          ((items.map (pretty (indent ++ "  "))).map String.toList) (items.map reread) := by
        rw [List.map_map, List.forall₂_map_left_iff, List.forall₂_map_right_iff,
          List.forall₂_same]
        intro j hj
        have hlt := depth_item_lt hj
        exact ih j hj (legible.item hj) (by omega) (hdeeper hindent)
      have hopens : ∀ t ∈ (items.map (pretty (indent ++ "  "))).map String.toList, Opens t := by
        simp only [List.forall_mem_map]
        exact fun j hj => opens_pretty (legible.item hj) _
      intro pad rest hpad _
      have hcontainer := container_inner (.inl rfl) hindent hitems hopens rest
      rw [pretty, prettyItems_eq, toList_block, List.append_assoc, List.append_assoc, reread,
        rereadItems_eq]
      exact value_array hcontainer hpad
  | object members ih =>
    cases depth with
    | zero =>
      rw [Json.depth] at hdepth
      omega
    | succ depth =>
      have hmembers : List.Forall₂ (Reads (member depth))
          ((members.map fun m => quote m.1 ++ ": " ++ pretty (indent ++ "  ") m.2).map
            String.toList)
          ((members.map fun m => (m.1, m.2.reread)).map fun m => (some m.1, m.2)) := by
        rw [List.map_map, List.map_map, List.forall₂_map_left_iff, List.forall₂_map_right_iff,
          List.forall₂_same]
        intro m hm
        have hlt := depth_member_lt hm
        rw [Function.comp_apply, String.toList_append]
        exact reads_member m.1 (ih m hm (legible.member hm) (by omega) (hdeeper hindent))
      have hopens : ∀ t ∈ (members.map fun m =>
          quote m.1 ++ ": " ++ pretty (indent ++ "  ") m.2).map String.toList, Opens t := by
        simp only [List.forall_mem_map, String.append_assoc]
        exact fun m _ => opens_quote m.1 _
      intro pad rest hpad _
      have hcontainer := container_inner (.inr rfl) hindent hmembers hopens rest
      rw [pretty, prettyMembers_eq, toList_block, List.append_assoc, List.append_assoc, reread,
        rereadMembers_eq]
      exact value_object hcontainer hpad

/-- A written document is read as itself with its numbers read from their texts. -/
theorem parse?_pretty {j : Json} (legible : j.Legible) (hdepth : j.depth ≤ nesting) :
    parse? (pretty "" j ++ "\n") = some j.reread := by
  have hstop : Stops ['\n'] := stops_cons (.inr rfl) []
  have hnone : Blank [] := List.forall_mem_nil _
  have hindent : Blank "".toList := by rwa [String.toList_empty]
  have hvalue : value nesting (pretty "" j ++ "\n").toList = some (j.reread, ['\n']) := by
    rw [String.toList_append]
    exact reads_pretty legible hdepth hindent [] ['\n'] hnone hstop
  have hend : blanks ['\n'] = some ((), []) := rfl
  rw [parse?, parse?_eq_some_iff, bind_eq hvalue, bind_eq hend]
  rfl

end BlendGraph.Json
