/-!
# Tables

Finite maps from names, kept in strictly ascending order of the names by code point. Two tables
with the same entries are equal.
-/

set_option autoImplicit false

namespace BlendGraph

/-- Entries in strictly ascending order of their names. -/
structure Table (β : Type) where
  entries : List (String × β)
  ascending : entries.Pairwise fun a b => a.1 < b.1

namespace Table

variable {β : Type}

instance [DecidableEq β] : DecidableEq (Table β) := fun s t =>
  decidable_of_iff (s.entries = t.entries) (by cases s; cases t; simp)

/-- Puts an entry at its place, instead of one with the same name. -/
def insertEntry (k : String) (v : β) : List (String × β) → List (String × β)
  | [] => [(k, v)]
  | e :: es =>
    if k < e.1 then (k, v) :: e :: es
    else if k = e.1 then (k, v) :: es
    else e :: insertEntry k v es

theorem mem_insertEntry {k : String} {v : β} {es : List (String × β)} {e : String × β}
    (h : e ∈ insertEntry k v es) : e = (k, v) ∨ e ∈ es := by
  induction es with
  | nil => simpa [insertEntry] using h
  | cons f fs ih => grind [insertEntry]

theorem pairwise_insertEntry {k : String} {v : β} {es : List (String × β)}
    (h : es.Pairwise fun a b => a.1 < b.1) :
    (insertEntry k v es).Pairwise fun a b => a.1 < b.1 := by
  induction es with
  | nil => simp [insertEntry]
  | cons e es ih =>
    obtain ⟨he, hes⟩ := List.pairwise_cons.mp h
    simp only [insertEntry]
    split
    · rename_i hlt
      refine List.pairwise_cons.mpr ⟨fun f hf => ?_, h⟩
      rcases List.mem_cons.mp hf with rfl | hf
      · exact hlt
      · exact String.lt_trans hlt (he f hf)
    · split
      · rename_i heq
        refine List.pairwise_cons.mpr ⟨fun f hf => ?_, hes⟩
        show k < f.1
        exact heq ▸ he f hf
      · rename_i hnlt hne
        refine List.pairwise_cons.mpr ⟨fun f hf => ?_, ih hes⟩
        rcases mem_insertEntry hf with rfl | hf
        · exact String.not_le.mp fun hle => hne (String.le_antisymm hle (String.not_lt.mp hnlt))
        · exact he f hf

def empty : Table β := ⟨[], .nil⟩

instance : Inhabited (Table β) := ⟨empty⟩

def insert (t : Table β) (k : String) (v : β) : Table β :=
  ⟨insertEntry k v t.entries, pairwise_insertEntry t.ascending⟩

/-- The table of a list of entries, where the last one of a name counts. -/
def ofList (es : List (String × β)) : Table β :=
  es.foldl (fun t e => t.insert e.1 e.2) empty

def get? (t : Table β) (k : String) : Option β :=
  t.entries.lookup k

def contains (t : Table β) (k : String) : Bool :=
  (t.get? k).isSome

def erase (t : Table β) (k : String) : Table β :=
  ⟨t.entries.filter fun e => e.1 ≠ k, t.ascending.filter _⟩

def filter (t : Table β) (p : β → Bool) : Table β :=
  ⟨t.entries.filter fun e => p e.2, t.ascending.filter _⟩

def keys (t : Table β) : List String := t.entries.map Prod.fst

def values (t : Table β) : List β := t.entries.map Prod.snd

def size (t : Table β) : Nat := t.entries.length

def isEmpty (t : Table β) : Bool := t.entries.isEmpty

@[ext] theorem ext {s t : Table β} (h : s.entries = t.entries) : s = t := by
  cases s; cases t; simpa using h

@[simp] theorem entries_empty : (empty : Table β).entries = [] := rfl

@[simp] theorem get?_empty (k : String) : (empty : Table β).get? k = none := rfl

theorem lookup_insertEntry_self (k : String) (v : β) (es : List (String × β)) :
    (insertEntry k v es).lookup k = some v := by
  induction es with
  | nil => simp [insertEntry]
  | cons e es ih =>
    simp only [insertEntry]
    split
    · simp
    · split
      · simp
      · rename_i hne
        rw [List.lookup_cons, beq_false_of_ne hne]
        exact ih

theorem lookup_insertEntry_of_ne {k l : String} (v : β) (es : List (String × β)) (h : l ≠ k) :
    (insertEntry k v es).lookup l = es.lookup l := by
  induction es with
  | nil => simp [insertEntry, List.lookup_cons, beq_false_of_ne h]
  | cons e es ih =>
    simp only [insertEntry]
    split
    · rw [List.lookup_cons, beq_false_of_ne h]
    · split
      · rename_i heq
        rw [List.lookup_cons, List.lookup_cons, beq_false_of_ne h, beq_false_of_ne (heq ▸ h)]
      · rw [List.lookup_cons, List.lookup_cons, ih]

@[simp] theorem get?_insert_self (t : Table β) (k : String) (v : β) :
    (t.insert k v).get? k = some v :=
  lookup_insertEntry_self k v t.entries

theorem get?_insert_of_ne {k l : String} (t : Table β) (v : β) (h : l ≠ k) :
    (t.insert k v).get? l = t.get? l :=
  lookup_insertEntry_of_ne v t.entries h

@[simp] theorem contains_insert_self (t : Table β) (k : String) (v : β) :
    (t.insert k v).contains k = true := by
  simp [contains]

end Table

/-- A set of names, listed in ascending order. -/
abbrev NameSet := Table Unit

def NameSet.ofNames (names : List String) : NameSet := Table.ofList (names.map fun n => (n, ()))

end BlendGraph
