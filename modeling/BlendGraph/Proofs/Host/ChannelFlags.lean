import BlendGraph.Host.Basic
import BlendGraph.Proofs.Host.TableLaws

/-!
# Setting flags

The flag of a name is that of its first channel, and setting it changes no other channel. Flags of
different names are set in any order with the same outcome, so that a table of flags can be set as
a whole.
-/

set_option autoImplicit false

namespace BlendGraph

namespace Host

variable {α : Type}

/-- The flag of the first channel of a name. -/
def flagIn (n : String) (cs : List (Channel α)) : Option Bool :=
  (cs.find? fun c => c.name == n).map Channel.synced

@[simp] theorem flagIn_nil (n : String) : flagIn n ([] : List (Channel α)) = none := rfl

theorem flagIn_cons (n : String) (c : Channel α) (cs : List (Channel α)) :
    flagIn n (c :: cs) = if c.name = n then some c.synced else flagIn n cs := by
  by_cases h : c.name = n <;> simp [flagIn, h]

theorem flagIn_append (n : String) (cs ds : List (Channel α)) :
    flagIn n (cs ++ ds) = (flagIn n cs).or (flagIn n ds) := by
  induction cs with
  | nil => simp
  | cons c cs ih =>
    rw [List.cons_append, flagIn_cons, flagIn_cons, ih]
    split <;> simp

theorem flagIn_eq_none_iff {n : String} {cs : List (Channel α)} :
    flagIn n cs = none ↔ n ∉ cs.map Channel.name := by
  induction cs with
  | nil => simp
  | cons c cs ih =>
    rw [flagIn_cons, List.map_cons, List.mem_cons, not_or]
    by_cases h : c.name = n
    · simp [h]
    · simp [h, ih, Ne.symm h]

theorem isSome_flagIn_iff {n : String} {cs : List (Channel α)} :
    (flagIn n cs).isSome = true ↔ n ∈ cs.map Channel.name := by
  rw [Option.isSome_iff_ne_none, ne_eq, flagIn_eq_none_iff, not_not]

theorem setSyncedIn_cons (n : String) (v : Bool) (c : Channel α) (cs : List (Channel α)) :
    setSyncedIn n v (c :: cs)
      = if c.name = n then { c with synced := v } :: cs else c :: setSyncedIn n v cs := by
  by_cases h : c.name = n <;> simp [setSyncedIn, h]

@[simp] theorem map_name_setSyncedIn (n : String) (v : Bool) (cs : List (Channel α)) :
    (setSyncedIn n v cs).map Channel.name = cs.map Channel.name := by
  induction cs with
  | nil => rfl
  | cons c cs ih =>
    rw [setSyncedIn_cons]
    split <;> simp [ih]

theorem setSyncedIn_of_notMem {n : String} {v : Bool} {cs : List (Channel α)}
    (h : n ∉ cs.map Channel.name) : setSyncedIn n v cs = cs := by
  induction cs with
  | nil => rfl
  | cons c cs ih =>
    rw [List.map_cons, List.mem_cons, not_or] at h
    rw [setSyncedIn_cons, if_neg (Ne.symm h.1), ih h.2]

/-- A flag that is there already is set without a change. -/
theorem setSyncedIn_eq_self {n : String} {v : Bool} {cs : List (Channel α)}
    (h : ∀ w, flagIn n cs = some w → w = v) : setSyncedIn n v cs = cs := by
  induction cs with
  | nil => rfl
  | cons c cs ih =>
    rw [flagIn_cons] at h
    rw [setSyncedIn_cons]
    split
    · next hc =>
      have hv : c.synced = v := h c.synced (if_pos hc)
      rw [← hv]
    · next hc =>
      rw [if_neg hc] at h
      rw [ih h]

theorem flagIn_setSyncedIn (m n : String) (v : Bool) (cs : List (Channel α)) :
    flagIn m (setSyncedIn n v cs)
      = if m = n then (flagIn m cs).map (fun _ => v) else flagIn m cs := by
  induction cs with
  | nil => simp [setSyncedIn]
  | cons c cs ih =>
    rw [setSyncedIn_cons]
    by_cases hn : c.name = n
    · rw [if_pos hn, flagIn_cons, flagIn_cons]
      by_cases hm : m = n
      · simp [hm, hn]
      · simp [hm, hn, Ne.symm hm]
    · rw [if_neg hn, flagIn_cons, flagIn_cons, ih]
      by_cases hm : c.name = m
      · have hmn : m ≠ n := hm ▸ hn
        simp [hm, hmn]
      · rw [if_neg hm, if_neg hm]

theorem mem_of_mem_setSyncedIn {n : String} {v : Bool} {c : Channel α} {cs : List (Channel α)}
    (hn : c.name ≠ n) (h : c ∈ setSyncedIn n v cs) : c ∈ cs := by
  induction cs with
  | nil => exact h
  | cons d ds ih =>
    rw [setSyncedIn_cons] at h
    split at h
    · next hd =>
      rcases List.mem_cons.mp h with rfl | h
      · exact absurd hd hn
      · exact List.mem_cons_of_mem _ h
    · rcases List.mem_cons.mp h with rfl | h
      · exact List.mem_cons_self ..
      · exact List.mem_cons_of_mem _ (ih h)

/-- Setting a flag changes nothing else of a channel. -/
theorem exists_of_mem_setSyncedIn {n : String} {v : Bool} {c : Channel α} {cs : List (Channel α)}
    (h : c ∈ setSyncedIn n v cs) : ∃ d ∈ cs, c = d ∨ d.name = n ∧ c = { d with synced := v } := by
  induction cs with
  | nil => cases h
  | cons d ds ih =>
    rw [setSyncedIn_cons] at h
    split at h
    · next hd =>
      rcases List.mem_cons.mp h with rfl | h
      · exact ⟨d, List.mem_cons_self .., .inr ⟨hd, rfl⟩⟩
      · exact ⟨c, List.mem_cons_of_mem _ h, .inl rfl⟩
    · rcases List.mem_cons.mp h with rfl | h
      · exact ⟨c, List.mem_cons_self .., .inl rfl⟩
      · obtain ⟨e, he, hce⟩ := ih h
        exact ⟨e, List.mem_cons_of_mem _ he, hce⟩

theorem setSyncedIn_setSyncedIn (n : String) (v w : Bool) (cs : List (Channel α)) :
    setSyncedIn n v (setSyncedIn n w cs) = setSyncedIn n v cs := by
  induction cs with
  | nil => rfl
  | cons c cs ih =>
    by_cases h : c.name = n
    · simp [setSyncedIn_cons, h]
    · simp [setSyncedIn_cons, h, ih]

theorem setSyncedIn_comm {m n : String} (h : m ≠ n) (v w : Bool) (cs : List (Channel α)) :
    setSyncedIn m v (setSyncedIn n w cs) = setSyncedIn n w (setSyncedIn m v cs) := by
  induction cs with
  | nil => rfl
  | cons c cs ih =>
    by_cases hm : c.name = m
    · have hn : c.name ≠ n := hm ▸ h
      simp [setSyncedIn_cons, hm, h]
    · by_cases hn : c.name = n
      · simp [setSyncedIn_cons, hn, Ne.symm h]
      · simp [setSyncedIn_cons, hm, hn, ih]

theorem setSyncedIn_append {n : String} {v : Bool} {cs ds : List (Channel α)}
    (h : ∀ m ∈ cs.map Channel.name, m ∉ ds.map Channel.name) :
    setSyncedIn n v (cs ++ ds) = setSyncedIn n v cs ++ setSyncedIn n v ds := by
  induction cs with
  | nil => rfl
  | cons c cs ih =>
    have hcs : ∀ m ∈ cs.map Channel.name, m ∉ ds.map Channel.name :=
      fun m hm => h m (List.mem_cons_of_mem _ hm)
    rw [List.cons_append, setSyncedIn_cons, setSyncedIn_cons]
    split
    · next hc =>
      have hds : n ∉ ds.map Channel.name := hc ▸ h c.name (List.mem_cons_self ..)
      rw [List.cons_append, setSyncedIn_of_notMem hds]
    · rw [ih hcs, List.cons_append]

/-! ### Several flags -/

/-- Sets flags one after another. -/
def setAll (flags : List (String × Bool)) (cs : List (Channel α)) : List (Channel α) :=
  flags.foldl (fun cs f => setSyncedIn f.1 f.2 cs) cs

@[simp] theorem setAll_nil (cs : List (Channel α)) : setAll [] cs = cs := rfl

@[simp] theorem setAll_cons (f : String × Bool) (flags : List (String × Bool))
    (cs : List (Channel α)) : setAll (f :: flags) cs = setAll flags (setSyncedIn f.1 f.2 cs) := rfl

@[simp] theorem map_name_setAll (flags : List (String × Bool)) (cs : List (Channel α)) :
    (setAll flags cs).map Channel.name = cs.map Channel.name := by
  induction flags generalizing cs with
  | nil => rfl
  | cons f flags ih => rw [setAll_cons, ih, map_name_setSyncedIn]

theorem setAll_append {flags : List (String × Bool)} {cs ds : List (Channel α)}
    (h : ∀ m ∈ cs.map Channel.name, m ∉ ds.map Channel.name) :
    setAll flags (cs ++ ds) = setAll flags cs ++ setAll flags ds := by
  induction flags generalizing cs ds with
  | nil => rfl
  | cons f flags ih =>
    rw [setAll_cons, setSyncedIn_append h, ih (by simpa using h), setAll_cons, setAll_cons]

theorem mem_of_mem_setAll {flags : List (String × Bool)} {c : Channel α} {cs : List (Channel α)}
    (hn : c.name ∉ flags.map Prod.fst) (h : c ∈ setAll flags cs) : c ∈ cs := by
  induction flags generalizing cs with
  | nil => exact h
  | cons f flags ih =>
    rw [List.map_cons, List.mem_cons, not_or] at hn
    exact mem_of_mem_setSyncedIn hn.1 (ih hn.2 h)

/-- Flags of names that no channel has are set without a change. -/
theorem setAll_of_notMem {flags : List (String × Bool)} {cs : List (Channel α)}
    (h : ∀ f ∈ flags, f.1 ∉ cs.map Channel.name) : setAll flags cs = cs := by
  induction flags with
  | nil => rfl
  | cons f flags ih =>
    obtain ⟨hf, hflags⟩ := List.forall_mem_cons.mp h
    rw [setAll_cons, setSyncedIn_of_notMem hf, ih hflags]

theorem filter_setSyncedIn {p : String → Bool} {n : String} (hn : p n = false) (v : Bool)
    (cs : List (Channel α)) :
    (setSyncedIn n v cs).filter (fun c => p c.name) = cs.filter fun c => p c.name := by
  induction cs with
  | nil => rfl
  | cons c cs ih =>
    rw [setSyncedIn_cons]
    split
    · next hc => simp [hc, hn]
    · rw [List.filter_cons, List.filter_cons, ih]

/-- Channels of names that get no flag are not changed, also where several have one name. -/
theorem filter_setAll {p : String → Bool} {flags : List (String × Bool)} {cs : List (Channel α)}
    (h : ∀ f ∈ flags, f.1 ∈ cs.map Channel.name → p f.1 = false) :
    (setAll flags cs).filter (fun c => p c.name) = cs.filter fun c => p c.name := by
  induction flags generalizing cs with
  | nil => rfl
  | cons f flags ih =>
    obtain ⟨hf, hflags⟩ := List.forall_mem_cons.mp h
    rw [setAll_cons, ih (by simpa using hflags)]
    by_cases hn : f.1 ∈ cs.map Channel.name
    · exact filter_setSyncedIn (hf hn) f.2 cs
    · rw [setSyncedIn_of_notMem hn]

/-- A flag of another name may be set before or after. -/
theorem setAll_setSyncedIn_of_notMem {flags : List (String × Bool)} {n : String} {v : Bool}
    (h : n ∉ flags.map Prod.fst) (cs : List (Channel α)) :
    setAll flags (setSyncedIn n v cs) = setSyncedIn n v (setAll flags cs) := by
  induction flags generalizing cs with
  | nil => rfl
  | cons f flags ih =>
    rw [List.map_cons, List.mem_cons, not_or] at h
    rw [setAll_cons, setAll_cons, setSyncedIn_comm (Ne.symm h.1), ih h.2]

/-- What a flag was before it is set again does not matter. -/
theorem setAll_setSyncedIn_of_mem {flags : List (String × Bool)} {n : String} {v : Bool}
    (h : n ∈ flags.map Prod.fst) (cs : List (Channel α)) :
    setAll flags (setSyncedIn n v cs) = setAll flags cs := by
  induction flags generalizing cs with
  | nil => cases h
  | cons f flags ih =>
    rw [setAll_cons, setAll_cons]
    by_cases hf : f.1 = n
    · rw [hf, setSyncedIn_setSyncedIn]
    · have hmem : n ∈ flags.map Prod.fst := by
        simpa [Ne.symm hf] using h
      rw [setSyncedIn_comm hf, ih hmem]

/-- A new entry of a table of flags is set last. -/
theorem setAll_insertEntry {n : String} {v : Bool} {flags : List (String × Bool)}
    (h : n ∉ flags.map Prod.fst) (cs : List (Channel α)) :
    setAll (Table.insertEntry n v flags) cs = setSyncedIn n v (setAll flags cs) := by
  induction flags generalizing cs with
  | nil => rfl
  | cons f flags ih =>
    have hne : n ≠ f.1 := fun heq => h (by simp [heq])
    have hmem : n ∉ flags.map Prod.fst := fun hmem => h (by simp [hmem])
    by_cases hlt : n < f.1
    · rw [Table.insertEntry, if_pos hlt, setAll_cons, setAll_setSyncedIn_of_notMem h]
    · rw [Table.insertEntry, if_neg hlt, if_neg hne, setAll_cons, ih hmem, setAll_cons]

theorem flagIn_setAll_of_notMem {n : String} {flags : List (String × Bool)}
    (h : n ∉ flags.map Prod.fst) (cs : List (Channel α)) :
    flagIn n (setAll flags cs) = flagIn n cs := by
  induction flags generalizing cs with
  | nil => rfl
  | cons f flags ih =>
    rw [List.map_cons, List.mem_cons, not_or] at h
    rw [setAll_cons, ih h.2, flagIn_setSyncedIn, if_neg h.1]

theorem flagIn_setAll_of_mem {n : String} {v : Bool} {flags : List (String × Bool)}
    (nodup : (flags.map Prod.fst).Nodup) (h : (n, v) ∈ flags) (cs : List (Channel α)) :
    flagIn n (setAll flags cs) = (flagIn n cs).map fun _ => v := by
  induction flags generalizing cs with
  | nil => cases h
  | cons f flags ih =>
    obtain ⟨hf, nodup⟩ := List.nodup_cons.mp nodup
    rw [setAll_cons]
    rcases List.mem_cons.mp h with rfl | h
    · rw [flagIn_setAll_of_notMem hf, flagIn_setSyncedIn, if_pos rfl]
    · have hne : n ≠ f.1 := fun heq => hf (heq ▸ List.mem_map_of_mem h)
      rw [ih nodup h, flagIn_setSyncedIn, if_neg hne]

/-- The flags after those of a table are set. -/
theorem flagIn_setAll (t : Table Bool) (n : String) (cs : List (Channel α)) :
    flagIn n (setAll t.entries cs)
      = (flagIn n cs).map fun w => (t.get? n).getD w := by
  cases h : t.get? n with
  | none =>
    have hmem : n ∉ t.entries.map Prod.fst := by
      intro hmem
      obtain ⟨v, hv⟩ := Table.mem_keys.mp hmem
      simp [h] at hv
    rw [flagIn_setAll_of_notMem hmem]
    simp
  | some v =>
    rw [flagIn_setAll_of_mem t.nodup_keys (Table.mem_entries.mpr h)]
    rfl

/-! ### Distinct names -/

theorem flagIn_of_mem {cs : List (Channel α)} (nodup : (cs.map Channel.name).Nodup)
    {c : Channel α} (hc : c ∈ cs) : flagIn c.name cs = some c.synced := by
  induction cs with
  | nil => cases hc
  | cons d ds ih =>
    obtain ⟨hd, nodup⟩ := List.nodup_cons.mp nodup
    rw [flagIn_cons]
    rcases List.mem_cons.mp hc with rfl | hc
    · rw [if_pos rfl]
    · have hne : d.name ≠ c.name := fun heq => hd (heq ▸ List.mem_map_of_mem hc)
      rw [if_neg hne, ih nodup hc]

end Host

/-- The channel with the flag that is given for its name, or else with its own. -/
def Channel.flagged {α : Type} (f : String → Option Bool) (c : Channel α) : Channel α :=
  { c with synced := (f c.name).getD c.synced }

@[simp] theorem Channel.name_flagged {α : Type} (f : String → Option Bool) (c : Channel α) :
    (c.flagged f).name = c.name := rfl

@[simp] theorem Channel.flagged_flagged {α : Type} (f g : String → Option Bool) (c : Channel α) :
    (c.flagged f).flagged g = c.flagged fun n => (g n).or (f n) := by
  cases hg : g c.name <;> simp [flagged, hg]

@[simp] theorem Channel.map_name_flagged {α : Type} (f : String → Option Bool)
    (cs : List (Channel α)) : (cs.map (flagged f)).map name = cs.map name := by
  rw [List.map_map]
  rfl

namespace Host

variable {α : Type}

theorem setSyncedIn_eq_map {n : String} {v : Bool} {cs : List (Channel α)}
    (nodup : (cs.map Channel.name).Nodup) :
    setSyncedIn n v cs = cs.map (Channel.flagged fun m => if m = n then some v else none) := by
  induction cs with
  | nil => rfl
  | cons c cs ih =>
    obtain ⟨hc, nodup⟩ := List.nodup_cons.mp nodup
    have hrest := ih nodup
    rw [setSyncedIn_cons, List.map_cons]
    split
    · next heq =>
      rw [setSyncedIn_of_notMem (heq ▸ hc)] at hrest
      rw [← hrest]
      simp [Channel.flagged, heq]
    · next hne =>
      rw [hrest]
      simp [Channel.flagged, hne]

/-- Where names are distinct, each channel gets the flag of its name. -/
theorem setAll_eq_map (t : Table Bool) {cs : List (Channel α)}
    (nodup : (cs.map Channel.name).Nodup) :
    setAll t.entries cs = cs.map (Channel.flagged t.get?) := by
  have general : ∀ (flags : List (String × Bool)) (cs : List (Channel α)),
      (flags.map Prod.fst).Nodup → (cs.map Channel.name).Nodup →
      setAll flags cs = cs.map (Channel.flagged fun n => flags.lookup n) := by
    intro flags
    induction flags with
    | nil => exact fun cs _ _ => (List.map_id' cs).symm
    | cons f flags ih =>
      intro cs hflags hcs
      obtain ⟨hf, hflags⟩ := List.nodup_cons.mp hflags
      rw [setAll_cons, ih _ hflags (by simpa using hcs), setSyncedIn_eq_map hcs, List.map_map]
      apply List.map_congr_left
      intro c _
      rw [Function.comp_apply, Channel.flagged_flagged]
      have hlater : flags.lookup f.1 = none := by
        rw [List.lookup_eq_none_iff]
        intro g hg
        have hne : f.1 ≠ g.1 := fun heq => hf (List.mem_map.mpr ⟨g, hg, heq.symm⟩)
        simp [hne]
      congr 1
      funext n
      rw [List.lookup_cons]
      by_cases hn : n = f.1
      · simp [hn, hlater]
      · simp [hn, beq_false_of_ne hn]
  exact general t.entries cs t.nodup_keys nodup

end Host

end BlendGraph
