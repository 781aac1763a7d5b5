import BlendGraph.Toml.Slot
import Mathlib.Data.List.Nodup

/-!
# Tables from statements

Pairs with different keys make the table of these keys and values, in order, and the pairs behind
each header of an array of tables make the next table of that array.
-/

set_option autoImplicit false

namespace BlendGraph.Toml

/-- The fields of a table, each one put at its key by a pair. -/
def pairs (fields : List (String × Toml)) : List Statement :=
  fields.map fun f => .pair (.single f.1) f.2

/-- Tables of one array, each one under a header of its own. -/
def items (key : String) (tables : List (List (String × Toml))) : List Statement :=
  tables.flatMap fun fields => .item (.single key) :: pairs fields

theorem items_cons (key : String) (fields : List (String × Toml))
    (tables : List (List (String × Toml))) :
    items key (fields :: tables) = .item (.single key) :: (pairs fields ++ items key tables) :=
  rfl

namespace Slots

/-- There is nothing at the key. -/
def Lacks (slots : Slots) (key : String) : Prop := ∀ s ∈ slots, s.1 ≠ key

def ofFields (fields : List (String × Toml)) : Slots := fields.map fun f => (f.1, .value f.2)

variable {slots : Slots} {key : String}

theorem Lacks.lookup (h : slots.Lacks key) : slots.lookup key = none := by
  rw [List.lookup_eq_none_iff]
  exact fun s hs => bne_iff_ne.mpr (h s hs).symm

theorem Lacks.lookup_append (h : slots.Lacks key) (slot : Slot) :
    (slots ++ [(key, slot)]).lookup key = some slot := by
  rw [List.lookup_append, h.lookup]
  simp

theorem Lacks.put (h : slots.Lacks key) (slot : Slot) :
    slots.put key slot = slots ++ [(key, slot)] := by
  induction slots with
  | nil => rfl
  | cons s slots ih =>
    obtain ⟨hs, h⟩ := List.forall_mem_cons.mp h
    rw [Slots.put, if_neg hs, ih h, List.cons_append]

theorem Lacks.put_append (h : slots.Lacks key) (old new : Slot) :
    Slots.put key new (slots ++ [(key, old)]) = slots ++ [(key, new)] := by
  induction slots with
  | nil => simp [Slots.put]
  | cons s slots ih =>
    obtain ⟨hs, h⟩ := List.forall_mem_cons.mp h
    rw [List.cons_append, Slots.put, if_neg hs, ih h, List.cons_append]

theorem lacks_ofFields {fields : List (String × Toml)} (h : key ∉ fields.map (·.1)) :
    Lacks (ofFields fields) key := by
  intro s hs heq
  obtain ⟨f, hf, rfl⟩ := List.mem_map.mp hs
  exact h (List.mem_map.mpr ⟨f, hf, heq⟩)

/-- The open table stands in its place among all slots. -/
def Opens (place : Slots → Slots) (current : List String) : Prop :=
  ∀ (f : Slots → Option Slots) (t : Slots), change f current (place t) = (f t).map place

theorem opens_root : Opens id [] := fun f t => (Option.map_id_fun' ▸ rfl : f t = (f t).map id)

/-- The last table of an array is open. -/
theorem Lacks.opens (h : slots.Lacks key) (earlier : List Slot) :
    Opens (fun t => slots ++ [(key, .items earlier t)]) [key] := by
  intro f t
  rw [change, h.lookup_append]
  simp only [change, h.put_append]

end Slots

open Slots

theorem tableToml_append (slots more : Slots) :
    Slot.tableToml (slots ++ more) = Slot.tableToml slots ++ Slot.tableToml more := by
  induction slots with
  | nil => rfl
  | cons s slots ih => rw [List.cons_append, Slot.tableToml, Slot.tableToml, ih, List.cons_append]

theorem tableToml_ofFields (fields : List (String × Toml)) :
    Slot.tableToml (ofFields fields) = fields := by
  induction fields with
  | nil => rfl
  | cons f fields ih =>
    rw [ofFields, List.map_cons, Slot.tableToml]
    exact congrArg (f :: ·) ih

theorem itemsToml_append (slots more : List Slot) :
    Slot.itemsToml (slots ++ more) = Slot.itemsToml slots ++ Slot.itemsToml more := by
  induction slots with
  | nil => rfl
  | cons s slots ih => rw [List.cons_append, Slot.itemsToml, Slot.itemsToml, ih, List.cons_append]

namespace Draft

/-- Pairs of different keys put their values behind each other into the open table. -/
theorem foldlM_pairs {place : Slots → Slots} {current : List String} (h : Opens place current)
    {fields : List (String × Toml)} {t : Slots}
    (hkeys : (fields.map (·.1)).Nodup) (hlacks : ∀ f ∈ fields, t.Lacks f.1) :
    (pairs fields).foldlM add ⟨place t, current⟩
      = some ⟨place (t ++ ofFields fields), current⟩ := by
  induction fields generalizing t with
  | nil => simp [pairs, ofFields]
  | cons f fields ih =>
    obtain ⟨hf, hlacks⟩ := List.forall_mem_cons.mp hlacks
    rw [List.map_cons, List.nodup_cons] at hkeys
    have hadd : add ⟨place t, current⟩ (.pair (.single f.1) f.2)
        = some ⟨place (t ++ [(f.1, .value f.2)]), current⟩ := by
      change (change (assign f.2 [] f.1) current (place t)).map (Draft.mk · current) = _
      rw [h, assign, hf.lookup]
      simp only [hf.put, Option.map_some]
    have hrest : ∀ g ∈ fields, Lacks (t ++ [(f.1, .value f.2)]) g.1 := by
      intro g hg s hs
      rcases List.mem_append.mp hs with hs | hs
      · exact hlacks g hg s hs
      · obtain rfl := List.mem_singleton.mp hs
        exact fun heq => hkeys.1 (List.mem_map.mpr ⟨g, hg, heq.symm⟩)
    rw [pairs, List.map_cons, List.foldlM_cons, hadd]
    refine (ih hkeys.2 hrest).trans ?_
    rw [List.append_assoc]
    rfl

variable {slots : Slots} {key : String} {tables : List (List (String × Toml))}

/-- The tables of an array, of which the last one is open. -/
def listed (earlier : List Slot) (last : Slots) : List Toml :=
  Slot.itemsToml earlier ++ [.table (Slot.tableToml last)]

/-- Each further header of the array closes its last table and opens the next one. -/
theorem foldlM_items (h : slots.Lacks key) (hkeys : ∀ fields ∈ tables, (fields.map (·.1)).Nodup)
    (earlier : List Slot) (last : Slots) :
    ∃ before opened, (items key tables).foldlM add ⟨slots ++ [(key, .items earlier last)], [key]⟩
        = some ⟨slots ++ [(key, .items before opened)], [key]⟩ ∧
      listed before opened = listed earlier last ++ tables.map .table := by
  induction tables generalizing earlier last with
  | nil => exact ⟨earlier, last, rfl, (List.append_nil _).symm⟩
  | cons fields tables ih =>
    obtain ⟨hfields, hkeys⟩ := List.forall_mem_cons.mp hkeys
    have hitem : add ⟨slots ++ [(key, .items earlier last)], [key]⟩ (.item (.single key))
        = some ⟨slots ++ [(key, .items (earlier ++ [.table .header last]) [])], [key]⟩ := by
      change (extend key (slots ++ [(key, .items earlier last)])).map (Draft.mk · [key]) = _
      rw [extend, h.lookup_append]
      simp only [h.put_append, Option.map_some]
    have hpairs := foldlM_pairs (h.opens (earlier ++ [.table .header last])) (t := []) hfields
      fun _ _ => List.forall_mem_nil _
    obtain ⟨before, opened, hfold, hlisted⟩ := ih hkeys (earlier ++ [.table .header last])
      (ofFields fields)
    refine ⟨before, opened, ?_, ?_⟩
    · rw [items_cons, List.foldlM_cons, hitem]
      refine (List.foldlM_append ..).trans ?_
      rw [hpairs]
      exact hfold
    · rw [hlisted, listed, listed, tableToml_ofFields, itemsToml_append, List.map_cons,
        ← List.append_cons]
      rfl

end Draft

theorem foldlM_pairs_empty {fields : List (String × Toml)} (hkeys : (fields.map (·.1)).Nodup) :
    (pairs fields).foldlM Draft.add .empty = some ⟨ofFields fields, []⟩ :=
  Draft.foldlM_pairs opens_root (t := []) hkeys fun _ _ => List.forall_mem_nil _

/-- A document of pairs is the table of its fields. -/
theorem ofStatements?_pairs {fields : List (String × Toml)} (hkeys : (fields.map (·.1)).Nodup) :
    ofStatements? (pairs fields) = some (.table fields) := by
  rw [ofStatements?, foldlM_pairs_empty hkeys, Option.map_some, tableToml_ofFields]

/-- Behind the pairs of a document an array of tables is its last field. -/
theorem ofStatements?_items {fields first : List (String × Toml)} {key : String}
    {tables : List (List (String × Toml))} (hkeys : (fields.map (·.1)).Nodup)
    (hkey : key ∉ fields.map (·.1)) (hfirst : (first.map (·.1)).Nodup)
    (htables : ∀ fields ∈ tables, (fields.map (·.1)).Nodup) :
    ofStatements? (pairs fields ++ items key (first :: tables))
      = some (.table (fields ++ [(key, .array ((first :: tables).map .table))])) := by
  have hlacks := lacks_ofFields hkey
  have hitem : Draft.add ⟨ofFields fields, []⟩ (.item (.single key))
      = some ⟨ofFields fields ++ [(key, .items [] [])], [key]⟩ := by
    change (extend key (ofFields fields)).map (Draft.mk · [key]) = _
    rw [extend, hlacks.lookup]
    simp only [hlacks.put, Option.map_some]
  have hpairs := Draft.foldlM_pairs (hlacks.opens []) (t := []) hfirst
    fun _ _ => List.forall_mem_nil _
  obtain ⟨before, opened, hfold, hlisted⟩ := Draft.foldlM_items hlacks htables [] (ofFields first)
  have hall : (pairs fields ++ items key (first :: tables)).foldlM Draft.add .empty
      = some ⟨ofFields fields ++ [(key, .items before opened)], [key]⟩ := by
    refine (List.foldlM_append ..).trans ?_
    rw [foldlM_pairs_empty hkeys, items_cons]
    change (Draft.add ⟨ofFields fields, []⟩ (.item (.single key))).bind _ = _
    rw [hitem]
    refine (List.foldlM_append ..).trans ?_
    rw [hpairs]
    exact hfold
  have harray : Slot.toToml (.items before opened) = .array ((first :: tables).map .table) := by
    rw [Slot.toToml, ← Draft.listed, hlisted, Draft.listed, tableToml_ofFields]
    rfl
  rw [ofStatements?, hall, Option.map_some, tableToml_append, tableToml_ofFields]
  simp only [Slot.tableToml, harray]

end BlendGraph.Toml
