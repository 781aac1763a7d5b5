import BlendGraph.Proofs.Host.ChannelFlags
import BlendGraph.Registry

/-!
# Requests of channels

A compilation requests channels that may be there, and sets the flags of some of them. Such requests
never fail, and a list of them is entered into a registry as a whole: which channels it creates and
which flags it sets depends only on the list and on the channels of the host. That rests on the
invariant of registries, by which the taken names are those of the host and of the new channels.
-/

set_option autoImplicit false

namespace BlendGraph

variable {α : Type}

/-- A request of a channel under its final name. An existing channel is used again; if `forced`, its
flag is set as that of a new one. -/
structure Request (α : Type) where
  name : String
  kind : ChannelKind
  default : α
  synced : Bool
  forced : Bool

namespace Request

def channel (q : Request α) : Channel α := ⟨q.name, q.kind, q.default, q.synced⟩

/-- The flag that a list of requests forces on a name: that of the last one which does. -/
def forcedFlag (qs : List (Request α)) (n : String) : Option Bool :=
  match qs with
  | [] => none
  | q :: qs => (forcedFlag qs n).or (if q.forced ∧ q.name = n then some q.synced else none)

theorem mem_of_forcedFlag {qs : List (Request α)} {n : String} {v : Bool}
    (h : forcedFlag qs n = some v) : n ∈ qs.map Request.name := by
  induction qs with
  | nil => cases h
  | cons q qs ih =>
    rw [forcedFlag, Option.or_eq_some_iff] at h
    rcases h with h | ⟨-, h⟩
    · exact List.mem_cons_of_mem _ (ih h)
    · by_cases hq : q.forced ∧ q.name = n
      · simp [hq.2]
      · simp [hq] at h

end Request

namespace Registry

/-- The registry after a request, apart from its flag. -/
def take (r : Registry α) (q : Request α) : Registry α :=
  if r.contains q.name then
    if r.creates q.name then r else { r with reused := r.reused.insert q.name () }
  else { r with taken := r.taken.insert q.name (), created := r.created ++ [q.channel] }

def enter (r : Registry α) (q : Request α) : Registry α :=
  if q.forced then (r.take q).setSynced q.name q.synced else r.take q

def enterAll (r : Registry α) (qs : List (Request α)) : Registry α := qs.foldl enter r

/-- Sets flags one after another. -/
def flagAll (r : Registry α) (ns : List String) (v : Bool) : Registry α :=
  ns.foldl (fun r n => r.setSynced n v) r

@[simp] theorem enterAll_nil (r : Registry α) : r.enterAll [] = r := rfl

@[simp] theorem enterAll_cons (r : Registry α) (q : Request α) (qs : List (Request α)) :
    r.enterAll (q :: qs) = (r.enter q).enterAll qs := rfl

theorem enterAll_append (r : Registry α) (qs rs : List (Request α)) :
    r.enterAll (qs ++ rs) = (r.enterAll qs).enterAll rs :=
  List.foldl_append

/-! ### One request -/

/-- Whether a request asks for a new channel under a taken name. -/
def Clashes (r : Registry α) (name : String) (options : ChannelOptions α) : Prop :=
  options.reuse = false ∧ r.contains (finalName name options) = true

instance (r : Registry α) (name : String) (options : ChannelOptions α) :
    Decidable (r.Clashes name options) :=
  inferInstanceAs (Decidable (_ ∧ _))

theorem register_of_clashes {r : Registry α} {name : String} {options : ChannelOptions α}
    (h : r.Clashes name options) (kind : ChannelKind) :
    r.register name kind options = (.error (.duplicateChannel (finalName name options)), r) := by
  obtain ⟨hreuse, hcontains⟩ := h
  simp [register, hreuse, hcontains]

theorem register_of_not_clashes {r : Registry α} {name : String} {options : ChannelOptions α}
    (h : ¬r.Clashes name options) (kind : ChannelKind) :
    r.register name kind options = (.ok (finalName name options),
      r.take ⟨finalName name options, kind, options.default, options.synced, false⟩) := by
  simp only [register, take]
  by_cases hcontains : r.contains (finalName name options) = true
  · have hreuse : options.reuse = true := by
      simpa [Clashes, hcontains] using h
    by_cases hcreates : r.creates (finalName name options) = true
    · simp [hcontains, hreuse, hcreates]
    · simp [hcontains, hreuse, hcreates]
  · simp [hcontains, Request.channel]

/-- A request that may use an existing channel succeeds. -/
theorem request_eq (r : Registry α) (n : String) (kind : ChannelKind) {o : ChannelOptions α}
    (h : o.reuse = true) :
    r.request n kind o = .ok (finalName n o,
      r.take ⟨finalName n o, kind, o.default, o.synced, false⟩) := by
  have hfree : ¬r.Clashes n o := fun hclash => by simp [hclash.1] at h
  simp only [request, register_of_not_clashes hfree]

theorem creates_iff {r : Registry α} {n : String} :
    r.creates n = true ↔ n ∈ r.created.map Channel.name := by
  simp [creates]

theorem isRequested_iff {r : Registry α} {n : String} :
    r.isRequested n = true ↔ n ∈ r.reused.keys ∨ r.creates n = true := by
  simp [isRequested, Table.contains_iff_mem_keys]

/-! ### Setting a flag -/

@[simp] theorem taken_setSynced (r : Registry α) (n : String) (v : Bool) :
    (r.setSynced n v).taken = r.taken := by
  unfold setSynced
  split <;> rfl

@[simp] theorem contains_setSynced (r : Registry α) (n m : String) (v : Bool) :
    (r.setSynced n v).contains m = r.contains m := by
  rw [contains, contains, taken_setSynced]

@[simp] theorem reused_setSynced (r : Registry α) (n : String) (v : Bool) :
    (r.setSynced n v).reused = r.reused := by
  unfold setSynced
  split <;> rfl

@[simp] theorem map_name_created_setSynced (r : Registry α) (n : String) (v : Bool) :
    (r.setSynced n v).created.map Channel.name = r.created.map Channel.name := by
  unfold setSynced
  split
  · exact Host.map_name_setSyncedIn n v r.created
  · rfl

theorem created_setSynced (r : Registry α) (n : String) (v : Bool) :
    (r.setSynced n v).created = Host.setSyncedIn n v r.created := by
  unfold setSynced
  split
  · rfl
  · next h => rw [Host.setSyncedIn_of_notMem (mt creates_iff.mpr h)]

theorem get?_flags_setSynced (r : Registry α) (n m : String) (v : Bool) :
    (r.setSynced n v).flags.get? m
      = if m = n ∧ r.creates n = false then some v else r.flags.get? m := by
  unfold setSynced
  by_cases h : r.creates n = true
  · simp [h]
  · simp [h, Table.get?_insert]

@[simp] theorem creates_setSynced (r : Registry α) (n m : String) (v : Bool) :
    (r.setSynced n v).creates m = r.creates m := by
  rw [Bool.eq_iff_iff, creates_iff, creates_iff, map_name_created_setSynced]

@[simp] theorem isRequested_setSynced (r : Registry α) (n m : String) (v : Bool) :
    (r.setSynced n v).isRequested m = r.isRequested m := by
  rw [isRequested, isRequested, reused_setSynced, creates_setSynced]

/-! ### Taking a channel -/

@[simp] theorem flags_take (r : Registry α) (q : Request α) : (r.take q).flags = r.flags := by
  unfold take
  split
  · split <;> rfl
  · rfl

theorem taken_take (r : Registry α) (q : Request α) :
    (r.take q).taken = if r.contains q.name then r.taken else r.taken.insert q.name () := by
  unfold take
  split
  · split <;> rfl
  · rfl

theorem contains_take (r : Registry α) (q : Request α) (n : String) :
    (r.take q).contains n = true ↔ n = q.name ∨ r.contains n = true := by
  rw [contains, taken_take]
  split
  · next h =>
    refine ⟨.inr, ?_⟩
    rintro (rfl | hn)
    · exact h
    · exact hn
  · rw [Table.contains_insert, Bool.or_eq_true, decide_eq_true_eq, contains]

theorem created_take (r : Registry α) (q : Request α) :
    (r.take q).created = if r.contains q.name then r.created else r.created ++ [q.channel] := by
  unfold take
  split
  · split <;> rfl
  · rfl

theorem isRequested_take (r : Registry α) (q : Request α) (n : String) :
    (r.take q).isRequested n = true ↔ r.isRequested n = true ∨ n = q.name := by
  unfold take
  split
  · next hc =>
    split
    · next h =>
      refine ⟨Or.inl, ?_⟩
      rintro (hn | rfl)
      · exact hn
      · exact isRequested_iff.mpr (.inr h)
    · simp only [isRequested, creates, Table.contains_insert, Bool.or_eq_true, decide_eq_true_eq]
      tauto
  · simp only [isRequested, creates, List.any_append, Bool.or_eq_true, List.any_cons, List.any_nil,
      Request.channel, beq_iff_eq, Bool.or_false]
    rw [eq_comm (a := n)]
    tauto

theorem isRequested_enter (r : Registry α) (q : Request α) (n : String) :
    (r.enter q).isRequested n = true ↔ r.isRequested n = true ∨ n = q.name := by
  unfold enter
  split
  · rw [isRequested_setSynced, isRequested_take]
  · rw [isRequested_take]

theorem isRequested_enterAll (r : Registry α) (qs : List (Request α)) (n : String) :
    (r.enterAll qs).isRequested n = true
      ↔ r.isRequested n = true ∨ n ∈ qs.map Request.name := by
  induction qs generalizing r with
  | nil => simp
  | cons q qs ih =>
    rw [enterAll_cons, ih, isRequested_enter, List.map_cons, List.mem_cons, or_assoc]

/-! ### The invariant -/

/-- The containers of a registry agree, for a host with these names. The host's channels are not
created again, and no channel twice. -/
structure Sound (r : Registry α) (names : List String) : Prop where
  taken : ∀ n, r.contains n = true ↔ n ∈ names ∨ r.creates n = true
  nodup : (r.created.map Channel.name).Nodup
  fresh : ∀ n, r.creates n = true → n ∉ names
  reused : ∀ n ∈ r.reused.keys, n ∈ names

theorem sound_ofHost [Scalar α] (h : Host α) : (ofHost h).Sound h.channelNames where
  taken n := by
    rw [contains, ofHost, Table.contains_ofNames]
    simp [creates, empty]
  nodup := .nil
  fresh := nofun
  reused := nofun

variable {names : List String}

section Sound

variable {r : Registry α} (sound : r.Sound names)

include sound

theorem Sound.creates_take (q : Request α) (n : String) :
    (r.take q).creates n = true ↔ r.creates n = true ∨ n = q.name ∧ n ∉ names := by
  rw [creates_iff, created_take]
  split
  · next h =>
    rw [← creates_iff]
    refine ⟨Or.inl, ?_⟩
    rintro (hn | ⟨rfl, hn⟩)
    · exact hn
    · exact ((sound.taken _).mp h).resolve_left hn
  · next h =>
    have hq : q.name ∉ names := fun hq => h ((sound.taken _).mpr (.inl hq))
    simp only [List.map_append, List.mem_append, creates_iff, List.map_cons, List.map_nil,
      List.mem_singleton, Request.channel]
    constructor
    · rintro (hn | rfl)
      · exact .inl hn
      · exact .inr ⟨rfl, hq⟩
    · exact Or.imp_right And.left

/-- A request uses a channel again if the host has it. -/
theorem Sound.mem_reused_take (q : Request α) (n : String) :
    n ∈ (r.take q).reused.keys ↔ n ∈ r.reused.keys ∨ n = q.name ∧ n ∈ names := by
  unfold Registry.take
  split
  · next hc =>
    split
    · next hn =>
      refine ⟨.inl, ?_⟩
      rintro (h | ⟨rfl, hmem⟩)
      · exact h
      · exact absurd hmem (sound.fresh _ hn)
    · next hn =>
      have hmem := ((sound.taken _).mp hc).resolve_right hn
      simp only [← Table.contains_iff_mem_keys, Table.contains_insert, Bool.or_eq_true,
        decide_eq_true_eq]
      constructor
      · rintro (rfl | h)
        · exact .inr ⟨rfl, hmem⟩
        · exact .inl h
      · rintro (h | ⟨rfl, -⟩)
        · exact .inr h
        · exact .inl rfl
  · next hc =>
    refine ⟨.inl, ?_⟩
    rintro (h | ⟨rfl, hmem⟩)
    · exact h
    · exact absurd ((sound.taken _).mpr (.inl hmem)) hc

theorem Sound.take (q : Request α) : (r.take q).Sound names where
  taken n := by
    rw [contains_take, sound.taken, sound.creates_take]
    tauto
  nodup := by
    rw [created_take]
    split
    · exact sound.nodup
    · next hc =>
      rw [sound.taken, not_or, creates_iff] at hc
      simpa [List.nodup_append, Request.channel] using
        ⟨sound.nodup, fun c hmem heq => hc.2 (List.mem_map.mpr ⟨c, hmem, heq⟩)⟩
  fresh n hn := by
    rcases (sound.creates_take q n).mp hn with hn | ⟨-, hn⟩
    · exact sound.fresh n hn
    · exact hn
  reused n hn := by
    rcases (sound.mem_reused_take q n).mp hn with hn | ⟨-, hn⟩
    · exact sound.reused n hn
    · exact hn

theorem Sound.setSynced (n : String) (v : Bool) : (r.setSynced n v).Sound names where
  taken m := by rw [contains_setSynced, creates_setSynced, sound.taken]
  nodup := by rw [map_name_created_setSynced]; exact sound.nodup
  fresh m hm := sound.fresh m (creates_setSynced r n m v ▸ hm)
  reused m hm := sound.reused m (reused_setSynced r n v ▸ hm)

theorem Sound.enter (q : Request α) : (r.enter q).Sound names := by
  unfold Registry.enter
  split
  · exact (sound.take q).setSynced _ _
  · exact sound.take q

theorem Sound.enterAll (qs : List (Request α)) : (r.enterAll qs).Sound names := by
  induction qs generalizing r with
  | nil => exact sound
  | cons q qs ih => exact ih (sound.enter q)

theorem Sound.flagAll (ns : List String) (v : Bool) : (r.flagAll ns v).Sound names := by
  induction ns generalizing r with
  | nil => exact sound
  | cons n ns ih => exact ih (sound.setSynced n v)

/-! ### Entering a request -/

theorem Sound.creates_enter (q : Request α) (n : String) :
    (r.enter q).creates n = true ↔ r.creates n = true ∨ n = q.name ∧ n ∉ names := by
  unfold Registry.enter
  split
  · rw [creates_setSynced, sound.creates_take]
  · rw [sound.creates_take]

theorem Sound.get?_flags_enter (q : Request α) (n : String) :
    (r.enter q).flags.get? n
      = if (q.forced ∧ q.name = n) ∧ n ∈ names then some q.synced else r.flags.get? n := by
  unfold Registry.enter
  split
  · next hf =>
    rw [get?_flags_setSynced, flags_take]
    by_cases hn : n = q.name
    · subst hn
      by_cases hmem : q.name ∈ names
      · have hc : (r.take q).creates q.name = false :=
          Bool.eq_false_iff.mpr fun hc => (sound.take q).fresh _ hc hmem
        simp [hf, hmem, hc]
      · have hc : (r.take q).creates q.name = true :=
          (sound.creates_take q _).mpr (.inr ⟨rfl, hmem⟩)
        simp [hmem, hc]
    · simp [hn, Ne.symm hn]
  · next hf => simp [hf]

theorem Sound.flagIn_created_take (q : Request α) {n : String} (hnew : n ∉ names) :
    Host.flagIn n (r.take q).created
      = (Host.flagIn n r.created).or (if q.name = n then some q.synced else none) := by
  rw [created_take]
  split
  · next hc =>
    split
    · next hn =>
      subst hn
      have hmem := creates_iff.mp (((sound.taken _).mp hc).resolve_left hnew)
      obtain ⟨v, hv⟩ := Option.isSome_iff_exists.mp (Host.isSome_flagIn_iff.mpr hmem)
      simp [hv]
    · simp
  · rw [Host.flagIn_append, Host.flagIn_cons]
    rfl

theorem Sound.flagIn_created_enter (q : Request α) {n : String} (hnew : n ∉ names) :
    Host.flagIn n (r.enter q).created
      = (if q.forced ∧ q.name = n then some q.synced else none).or
          ((Host.flagIn n r.created).or (if q.name = n then some q.synced else none)) := by
  unfold Registry.enter
  split
  · next hf =>
    rw [created_setSynced, Host.flagIn_setSyncedIn, sound.flagIn_created_take q hnew]
    by_cases hn : q.name = n
    · subst hn
      cases Host.flagIn q.name r.created <;> simp [hf]
    · simp [hn, Ne.symm hn]
  · next hf =>
    rw [sound.flagIn_created_take q hnew]
    simp [hf]

/-! ### Entering a list of requests -/

theorem Sound.creates_enterAll (qs : List (Request α)) (n : String) :
    (r.enterAll qs).creates n = true
      ↔ r.creates n = true ∨ n ∈ qs.map Request.name ∧ n ∉ names := by
  induction qs generalizing r with
  | nil => simp
  | cons q qs ih =>
    rw [enterAll_cons, ih (sound.enter q), sound.creates_enter, List.map_cons, List.mem_cons]
    tauto

/-- Flags of the host's channels that a list of requests sets. -/
theorem Sound.get?_flags_enterAll (qs : List (Request α)) {n : String} (hmem : n ∈ names) :
    (r.enterAll qs).flags.get? n = (Request.forcedFlag qs n).or (r.flags.get? n) := by
  induction qs generalizing r with
  | nil => rfl
  | cons q qs ih =>
    rw [enterAll_cons, ih (sound.enter q), sound.get?_flags_enter, Request.forcedFlag,
      Option.or_assoc]
    by_cases hq : q.forced ∧ q.name = n
    · simp [hq, hmem]
    · simp [hq]

/-- A new channel has the flag that is forced on it last, or else the one of the first request. -/
theorem Sound.flagIn_created_enterAll (qs : List (Request α)) {n : String} (hnew : n ∉ names) :
    Host.flagIn n (r.enterAll qs).created = (Request.forcedFlag qs n).or
      ((Host.flagIn n r.created).or ((qs.find? (·.name = n)).map Request.synced)) := by
  induction qs generalizing r with
  | nil => simp [Request.forcedFlag]
  | cons q qs ih =>
    rw [enterAll_cons, ih (sound.enter q), sound.flagIn_created_enter q hnew, Request.forcedFlag,
      List.find?_cons]
    by_cases hn : q.name = n
    · by_cases hf : q.forced = true
      · simp [hn, hf]
      · simp [hn, hf]
    · simp [hn]

end Sound

/-! ### Flags without a request -/

@[simp] theorem contains_flagAll (r : Registry α) (ns : List String) (v : Bool) (m : String) :
    (r.flagAll ns v).contains m = r.contains m := by
  induction ns generalizing r with
  | nil => rfl
  | cons n ns ih => exact (ih _).trans (contains_setSynced r n m v)

@[simp] theorem creates_flagAll (r : Registry α) (ns : List String) (v : Bool) (m : String) :
    (r.flagAll ns v).creates m = r.creates m := by
  induction ns generalizing r with
  | nil => rfl
  | cons n ns ih => exact (ih _).trans (creates_setSynced r n m v)

@[simp] theorem isRequested_flagAll (r : Registry α) (ns : List String) (v : Bool) (m : String) :
    (r.flagAll ns v).isRequested m = r.isRequested m := by
  induction ns generalizing r with
  | nil => rfl
  | cons n ns ih => exact (ih _).trans (isRequested_setSynced r n m v)

theorem lacks_setSynced {r : Registry α} {n : String} {ns : List String}
    (h : ∀ m ∈ n :: ns, r.creates m = false) (v : Bool) :
    r.creates n = false ∧ ∀ m ∈ ns, (r.setSynced n v).creates m = false := by
  simpa using h

/-- Flags of channels that are not new are set in the host. -/
theorem created_flagAll {r : Registry α} {ns : List String} {v : Bool}
    (h : ∀ n ∈ ns, r.creates n = false) : (r.flagAll ns v).created = r.created := by
  induction ns generalizing r with
  | nil => rfl
  | cons n ns ih =>
    obtain ⟨hn, hns⟩ := lacks_setSynced h v
    have hr : (r.setSynced n v).created = r.created := by
      rw [setSynced, hn]
      rfl
    exact (ih hns).trans hr

theorem get?_flags_flagAll {r : Registry α} {ns : List String} {v : Bool}
    (h : ∀ n ∈ ns, r.creates n = false) (m : String) :
    (r.flagAll ns v).flags.get? m = if m ∈ ns then some v else r.flags.get? m := by
  induction ns generalizing r with
  | nil => simp [flagAll]
  | cons n ns ih =>
    obtain ⟨hn, hns⟩ := lacks_setSynced h v
    refine (ih hns).trans ?_
    rw [get?_flags_setSynced]
    by_cases hm : m ∈ ns <;> by_cases hmn : m = n <;> simp [hm, hmn, hn]

end Registry

end BlendGraph
