import BlendGraph.Table
import Mathlib.Data.List.Sort

/-!
# Laws of tables

A table is determined by what it looks up. Insertion, removal and filtering are described by their
effect on lookups, and equations between tables follow from those.
-/

set_option autoImplicit false

namespace BlendGraph.Table

variable {β γ : Type}

theorem lookup_of_mem {es : List (String × β)} (ascending : es.Pairwise fun a b => a.1 < b.1)
    {k : String} {v : β} (h : (k, v) ∈ es) : es.lookup k = some v := by
  induction es with
  | nil => cases h
  | cons e es ih =>
    obtain ⟨he, hes⟩ := List.pairwise_cons.mp ascending
    rcases List.mem_cons.mp h with rfl | h
    · simp
    · have hne : k ≠ e.1 := fun heq => String.lt_irrefl e.1 (heq ▸ he _ h)
      rw [List.lookup_cons, beq_false_of_ne hne]
      exact ih hes h

theorem mem_of_lookup {es : List (String × β)} {k : String} {v : β}
    (h : es.lookup k = some v) : (k, v) ∈ es := by
  obtain ⟨before, after, rfl, -⟩ := List.lookup_eq_some_iff.mp h
  simp

theorem mem_entries {t : Table β} {k : String} {v : β} :
    (k, v) ∈ t.entries ↔ t.get? k = some v :=
  ⟨lookup_of_mem t.ascending, mem_of_lookup⟩

theorem nodup_keys (t : Table β) : t.keys.Nodup := by
  refine List.pairwise_map.mpr (t.ascending.imp fun {a b} hlt heq => ?_)
  exact String.lt_irrefl b.1 (heq ▸ hlt)

theorem mem_keys {t : Table β} {k : String} : k ∈ t.keys ↔ ∃ v, t.get? k = some v := by
  simp only [keys, List.mem_map, Prod.exists, mem_entries]
  constructor
  · rintro ⟨_, v, h, rfl⟩
    exact ⟨v, h⟩
  · rintro ⟨v, h⟩
    exact ⟨k, v, h, rfl⟩

theorem mem_values {t : Table β} {v : β} : v ∈ t.values ↔ ∃ k, t.get? k = some v := by
  simp only [values, List.mem_map, Prod.exists, mem_entries]
  constructor
  · rintro ⟨k, _, h, rfl⟩
    exact ⟨k, h⟩
  · rintro ⟨k, h⟩
    exact ⟨k, v, h, rfl⟩

theorem contains_iff_mem_keys {t : Table β} {k : String} :
    t.contains k = true ↔ k ∈ t.keys := by
  rw [contains, Option.isSome_iff_exists, mem_keys]

/-- Tables that look up the same are equal. -/
theorem ext_get? {s t : Table β} (h : ∀ k, s.get? k = t.get? k) : s = t := by
  have irrefl : Std.Irrefl fun a b : String × β => a.1 < b.1 :=
    ⟨fun a => String.lt_irrefl a.1⟩
  have antisymm : Std.Antisymm fun a b : String × β => a.1 < b.1 :=
    ⟨fun a b hab hba => absurd (String.lt_trans hab hba) (String.lt_irrefl a.1)⟩
  apply ext
  apply List.Pairwise.eq_of_mem_iff s.ascending t.ascending
  rintro ⟨k, v⟩
  rw [mem_entries, mem_entries, h]

theorem get?_insert (t : Table β) (k l : String) (v : β) :
    (t.insert k v).get? l = if l = k then some v else t.get? l := by
  by_cases h : l = k
  · rw [if_pos h, h, get?_insert_self]
  · rw [if_neg h, get?_insert_of_ne t v h]

theorem lookup_filter_key (p : String → Bool) (es : List (String × β)) (k : String) :
    (es.filter fun e => p e.1).lookup k = if p k then es.lookup k else none := by
  induction es with
  | nil => simp
  | cons e es ih =>
    obtain ⟨l, v⟩ := e
    by_cases hkl : k = l
    · subst hkl
      cases hp : p k <;> simp [hp, ih]
    · cases hp : p l <;> simp [hp, ih, List.lookup_cons, beq_false_of_ne hkl]

theorem get?_erase (t : Table β) (k l : String) :
    (t.erase k).get? l = if l = k then none else t.get? l := by
  have h := lookup_filter_key (fun n => decide (n ≠ k)) t.entries l
  by_cases hl : l = k
  · simpa [get?, erase, hl] using h
  · simpa [get?, erase, hl] using h

theorem get?_filter (t : Table β) (p : β → Bool) (k : String) :
    (t.filter p).get? k = (t.get? k).filter p := by
  apply Option.ext
  intro v
  rw [← mem_entries, filter, List.mem_filter, mem_entries, Option.filter_eq_some_iff]

theorem erase_insert (t : Table β) (k : String) (v : β) :
    (t.insert k v).erase k = t.erase k := by
  apply ext_get?
  intro l
  rw [get?_erase, get?_erase, get?_insert]
  split <;> rfl

theorem erase_eq_self {t : Table β} {k : String} (h : t.get? k = none) : t.erase k = t := by
  apply ext_get?
  intro l
  rw [get?_erase]
  split
  · next heq => rw [heq, h]
  · rfl

theorem contains_insert (t : Table β) (k l : String) (v : β) :
    (t.insert k v).contains l = (decide (l = k) || t.contains l) := by
  rw [contains, get?_insert]
  by_cases h : l = k <;> simp [h, contains]

theorem contains_foldl_insert (es : List (String × β)) (t : Table β) (k : String) :
    (es.foldl (fun t e => t.insert e.1 e.2) t).contains k = true
      ↔ k ∈ es.map Prod.fst ∨ t.contains k = true := by
  induction es generalizing t with
  | nil => simp
  | cons e es ih =>
    rw [List.foldl_cons, ih, contains_insert]
    simp only [List.map_cons, List.mem_cons, Bool.or_eq_true, decide_eq_true_eq]
    tauto

theorem contains_ofList (es : List (String × β)) (k : String) :
    (ofList es).contains k = true ↔ k ∈ es.map Prod.fst := by
  rw [ofList, contains_foldl_insert]
  simp [contains]

theorem contains_ofNames (names : List String) (k : String) :
    (NameSet.ofNames names).contains k = true ↔ k ∈ names := by
  rw [NameSet.ofNames, contains_ofList, List.map_map]
  simp [Function.comp_def]

theorem insertEntry_of_lt {k : String} (v : β) {es : List (String × β)}
    (h : ∀ e ∈ es, e.1 < k) : insertEntry k v es = es ++ [(k, v)] := by
  induction es with
  | nil => rfl
  | cons e es ih =>
    have hlt := h e (List.mem_cons_self ..)
    rw [insertEntry, if_neg (String.lt_asymm hlt), if_neg (String.ne_of_lt hlt).symm,
      ih fun f hf => h f (List.mem_cons_of_mem _ hf), List.cons_append]

/-- Entries in order are put in one behind the other. -/
theorem entries_foldl_insert {es : List (String × β)} {t : Table β}
    (h : (t.entries ++ es).Pairwise fun a b => a.1 < b.1) :
    (es.foldl (fun t e => t.insert e.1 e.2) t).entries = t.entries ++ es := by
  induction es generalizing t with
  | nil => rw [List.foldl_nil, List.append_nil]
  | cons e es ih =>
    have hbefore : ∀ f ∈ t.entries, f.1 < e.1 := fun f hf =>
      (List.pairwise_append.mp h).2.2 f hf e (List.mem_cons_self ..)
    have hentries : (t.insert e.1 e.2).entries = t.entries ++ [e] := insertEntry_of_lt e.2 hbefore
    have happend : t.entries ++ e :: es = (t.insert e.1 e.2).entries ++ es := by
      rw [hentries, List.append_assoc, List.singleton_append]
    rw [happend] at h ⊢
    exact ih h

@[simp] theorem ofList_entries (t : Table β) : ofList t.entries = t :=
  ext (entries_foldl_insert (t := empty) t.ascending)

end BlendGraph.Table
