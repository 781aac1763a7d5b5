import BlendGraph.Proofs.Compile.Outcome
import BlendGraph.Proofs.Registry.RegistryRuns

/-!
# The last flag that is set

A registry keeps the flag of a new channel in the channel and that of one of the host in a table. In
either place a later flag replaces an earlier one, so that a committed channel has the flag that was
set last since its name is taken. A flag for a name that nothing has yet goes into the table too,
where nothing looks it up: it is lost, even if a channel of the name is requested afterwards.
-/

set_option autoImplicit false

namespace BlendGraph

variable {α : Type}

/-- Tables that agree on some names have the same entries for them. -/
theorem Table.filter_entries_congr {β : Type} {s t : Table β} {p : String → Bool}
    (h : ∀ k, p k = true → s.get? k = t.get? k) :
    s.entries.filter (fun e => p e.1) = t.entries.filter (fun e => p e.1) := by
  let part (u : Table β) : Table β := ⟨u.entries.filter fun e => p e.1, u.ascending.filter _⟩
  have hpart (u : Table β) (k : String) : (part u).get? k = if p k then u.get? k else none :=
    Table.lookup_filter_key p u.entries k
  have heq : part s = part t := by
    apply Table.ext_get?
    intro k
    rw [hpart, hpart]
    by_cases hk : p k = true
    · rw [if_pos hk, if_pos hk, h k hk]
    · rw [if_neg hk, if_neg hk]
  exact congrArg Table.entries heq

namespace Registry

/-- The flag that the last of the actions which set one for the name sets. -/
def lastSet? (n : String) : List (Action α) → Option Bool
  | [] => none
  | .request .. :: actions => lastSet? n actions
  | .setSynced m v :: actions => (lastSet? n actions).or (if m = n then some v else none)

/-! ### Flags that are found again -/

/-- The flag that a channel has once the registry is committed. -/
def pendingFlag (r : Registry α) (cs : List (Channel α)) (n : String) : Option Bool :=
  ((Host.flagIn n cs).map fun w => (r.flags.get? n).getD w).or (Host.flagIn n r.created)

theorem contains_step {r : Registry α} {n : String} (h : r.contains n = true) (a : Action α) :
    (r.step a).contains n = true := by
  obtain ⟨m, v, -, hstep, -⟩ | ⟨-, -, -, -, -, hstep, -⟩ | ⟨m, kind, o, -, -, hstep, -⟩ :=
    step_cases r a
  · rw [hstep, contains_setSynced, h]
  · rw [hstep, h]
  · rw [hstep, contains_take]
    exact .inr h

theorem contains_run {r : Registry α} {n : String} (h : r.contains n = true)
    (actions : List (Action α)) : (r.run actions).contains n = true := by
  induction actions generalizing r with
  | nil => exact h
  | cons a actions ih => exact ih (contains_step h a)

section Pending

variable {r : Registry α} {cs : List (Channel α)} {n : String}

/-- The flag of a taken name is set where it is looked up. -/
theorem pendingFlag_setSynced (sound : r.Sound (cs.map Channel.name))
    (taken : r.contains n = true) (m : String) (v : Bool) :
    (r.setSynced m v).pendingFlag cs n = if m = n then some v else r.pendingFlag cs n := by
  rw [pendingFlag, pendingFlag, get?_flags_setSynced, created_setSynced, Host.flagIn_setSyncedIn]
  by_cases hm : m = n
  · subst hm
    rw [if_pos rfl, if_pos rfl]
    by_cases hcreates : r.creates m = true
    · have habsent : Host.flagIn m cs = none :=
        Host.flagIn_eq_none_iff.mpr (sound.fresh m hcreates)
      obtain ⟨w, hw⟩ := Option.isSome_iff_exists.mp
        (Host.isSome_flagIn_iff.mpr (creates_iff.mp hcreates))
      simp [habsent, hw]
    · have hmem : m ∈ cs.map Channel.name := ((sound.taken m).mp taken).resolve_right hcreates
      obtain ⟨w, hw⟩ := Option.isSome_iff_exists.mp (Host.isSome_flagIn_iff.mpr hmem)
      simp [hcreates, hw]
  · simp [hm, Ne.symm hm]

/-- A request does not touch the flag of a taken name. -/
theorem pendingFlag_take (taken : r.contains n = true) (q : Request α) :
    (r.take q).pendingFlag cs n = r.pendingFlag cs n := by
  rw [pendingFlag, pendingFlag, flags_take, created_take]
  split
  · rfl
  · next hq =>
    have hne : q.name ≠ n := fun heq => hq (heq ▸ taken)
    have hlast : Host.flagIn n [q.channel] = none := by
      simp [Host.flagIn_cons, Request.channel, hne]
    rw [Host.flagIn_append, hlast, Option.or_none]

theorem pendingFlag_step (sound : r.Sound (cs.map Channel.name)) (taken : r.contains n = true)
    (a : Action α) :
    (r.step a).pendingFlag cs n = (lastSet? n [a]).or (r.pendingFlag cs n) := by
  obtain ⟨m, v, rfl, hstep, -⟩ | ⟨m, kind, o, rfl, -, hstep, -⟩ | ⟨m, kind, o, rfl, -, hstep, -⟩ :=
    step_cases r a
  · rw [hstep, pendingFlag_setSynced sound taken]
    by_cases hm : m = n <;> simp [lastSet?, hm]
  · rw [hstep]
    rfl
  · rw [hstep, pendingFlag_take taken]
    rfl

theorem lastSet?_cons (a : Action α) (actions : List (Action α)) :
    lastSet? n (a :: actions) = (lastSet? n actions).or (lastSet? n [a]) := by
  cases a with
  | request => exact (Option.or_none ..).symm
  | setSynced => rfl

/-- The flag of a taken name is the last one that a run sets. -/
theorem pendingFlag_run (sound : r.Sound (cs.map Channel.name)) (taken : r.contains n = true)
    (actions : List (Action α)) :
    (r.run actions).pendingFlag cs n = (lastSet? n actions).or (r.pendingFlag cs n) := by
  induction actions generalizing r with
  | nil => rfl
  | cons a actions ih =>
    rw [run_cons, ih (sound.step a) (contains_step taken a), pendingFlag_step sound taken,
      lastSet?_cons a actions, Option.or_assoc]

end Pending

/-! ### Flags that are lost -/

/-- Registries that differ in nothing but the flags of names that the host lacks. -/
structure Alike (names : List String) (r s : Registry α) : Prop where
  taken : s.taken = r.taken
  created : s.created = r.created
  reused : s.reused = r.reused
  flags : ∀ n ∈ names, s.flags.get? n = r.flags.get? n

namespace Alike

variable {names : List String} {r s : Registry α}

theorem creates (h : Alike names r s) (n : String) : s.creates n = r.creates n := by
  rw [Registry.creates, Registry.creates, h.created]

theorem contains (h : Alike names r s) (n : String) : s.contains n = r.contains n := by
  rw [Registry.contains, Registry.contains, h.taken]

theorem setSynced (h : Alike names r s) (n : String) (v : Bool) :
    Alike names (r.setSynced n v) (s.setSynced n v) where
  taken := by rw [taken_setSynced, taken_setSynced, h.taken]
  created := by rw [created_setSynced, created_setSynced, h.created]
  reused := by rw [reused_setSynced, reused_setSynced, h.reused]
  flags m hm := by
    rw [get?_flags_setSynced, get?_flags_setSynced, h.creates, h.flags m hm]

theorem take (h : Alike names r s) (q : Request α) : Alike names (r.take q) (s.take q) where
  taken := by rw [taken_take, taken_take, h.contains, h.taken]
  created := by rw [created_take, created_take, h.contains, h.created]
  reused := by
    rw [Registry.take, Registry.take, h.contains, h.creates]
    split
    · split
      · exact h.reused
      · exact congrArg (fun t => Table.insert t q.name ()) h.reused
    · exact h.reused
  flags m hm := by rw [flags_take, flags_take, h.flags m hm]

theorem clashes_iff (h : Alike names r s) {n : String} {o : ChannelOptions α} :
    s.Clashes n o ↔ r.Clashes n o := by
  rw [Clashes, Clashes, h.contains]

theorem step (h : Alike names r s) (a : Action α) :
    Alike names (r.step a) (s.step a) := by
  cases a with
  | setSynced n v => exact h.setSynced n v
  | request n kind o =>
    by_cases hclash : r.Clashes n o
    · rw [step_of_clashes hclash, step_of_clashes (h.clashes_iff.mpr hclash)]
      exact h
    · rw [step_of_not_clashes hclash, step_of_not_clashes (mt h.clashes_iff.mp hclash)]
      exact h.take _

theorem run (h : Alike names r s) (actions : List (Action α)) :
    Alike names (r.run actions) (s.run actions) := by
  induction actions generalizing r s with
  | nil => exact h
  | cons a actions ih => exact ih (h.step a)

end Alike

/-- A flag for a name that is not taken changes no other one. -/
theorem Sound.alike_setSynced {r : Registry α} {names : List String} (sound : r.Sound names)
    {n : String} (free : r.contains n = false) (v : Bool) :
    Alike names (r.setSynced n v) r := by
  rw [← Bool.not_eq_true, sound.taken, not_or] at free
  obtain ⟨hlacks, hcreates⟩ := free
  refine ⟨(taken_setSynced r n v).symm, ?_, (reused_setSynced r n v).symm, fun m hm => ?_⟩
  · rw [created_setSynced, Host.setSyncedIn_of_notMem (mt creates_iff.mpr hcreates)]
  · have hne : m ≠ n := fun heq => hlacks (heq ▸ hm)
    rw [get?_flags_setSynced, if_neg fun h => hne h.1]

/-! ### Committed registries -/

variable [Scalar α]

/-- The flags of names that the host lacks are passed over. -/
theorem foldl_applyFlag_filter (ns : Namespace) (h : Host α) (fs : List (String × Bool)) :
    fs.foldl (applyFlag ns) h
      = (fs.filter fun f => decide (f.1 ∈ h.channelNames)).foldl (applyFlag ns) h := by
  induction fs generalizing h with
  | nil => rfl
  | cons f fs ih =>
    have hnames : (applyFlag ns h f).channelNames = h.channelNames := by
      rw [Host.channelNames, channels_applyFlag, Host.map_name_setSyncedIn]
      rfl
    rw [List.foldl_cons, ih, hnames]
    by_cases hf : f.1 ∈ h.channelNames
    · simp [hf]
    · have hnone : Host.flagIn f.1 h.channels = none := Host.flagIn_eq_none_iff.mpr hf
      have hself : applyFlag ns h f = h := by
        apply applyFlag_eq_self
        intro w hw
        rw [hnone] at hw
        cases hw
      simp [hf, hself]

theorem Alike.apply_eq {r s : Registry α} {h : Host α} (alike : Alike h.channelNames r s)
    (ns : Namespace) : s.apply ns h = r.apply ns h := by
  have hentries : s.flags.entries.filter (fun f => decide (f.1 ∈ h.channelNames))
      = r.flags.entries.filter fun f => decide (f.1 ∈ h.channelNames) := by
    apply Table.filter_entries_congr (p := fun n => decide (n ∈ h.channelNames))
    intro n hn
    exact alike.flags n (of_decide_eq_true hn)
  rw [apply, apply, alike.created, foldl_applyFlag_filter, hentries, ← foldl_applyFlag_filter]

/-- The host after a run of its registry is committed. -/
def committed (h : Host α) (ns : Namespace) (actions : List (Action α)) : Host α :=
  ((ofHost h).run actions).apply ns h

theorem flagIn_apply (r : Registry α) (ns : Namespace) (h : Host α) (n : String) :
    Host.flagIn n (r.apply ns h).channels = r.pendingFlag h.channels n := by
  rw [channels_apply, Host.flagIn_append, Host.flagIn_setAll, pendingFlag]

theorem mem_channelNames_committed {h : Host α} {ns : Namespace} {actions : List (Action α)}
    {n : String} : n ∈ (committed h ns actions).channelNames
      ↔ ((ofHost h).run actions).contains n = true := by
  have sound := (sound_ofHost h).run actions
  rw [committed, channelNames_apply, List.mem_append, sound.taken, creates_iff]

/-- Where names are distinct, a committed channel has the flag that was set last since its name is
taken. One that was set before, for a name that nothing had yet, changes nothing in the host. -/
theorem last_flag_wins {h : Host α} (nodup : h.channelNames.Nodup) (ns : Namespace)
    (before after : List (Action α)) (n : String) :
    (committed h ns (before ++ after)).channelNames.Nodup ∧
    (((ofHost h).run before).contains n = true →
      n ∈ (committed h ns (before ++ after)).channelNames ∧
      ∀ v, lastSet? n after = some v →
        ∀ c ∈ (committed h ns (before ++ after)).channels, c.name = n → c.synced = v) ∧
    (((ofHost h).run before).contains n = false → ∀ v,
      committed h ns (before ++ .setSynced n v :: after) = committed h ns (before ++ after)) := by
  have hnodup : (committed h ns (before ++ after)).channelNames.Nodup :=
    (((sound_ofHost h).run (before ++ after)).nodup_apply_iff ns).mpr nodup
  have sound := (sound_ofHost h).run before
  refine ⟨hnodup, fun taken => ⟨?_, fun v hv c hc hname => ?_⟩, fun free v => ?_⟩
  · rw [mem_channelNames_committed, run_append]
    exact contains_run taken after
  · have hflag := Host.flagIn_of_mem hnodup hc
    have hrun := pendingFlag_run sound taken after
    rw [hname, committed, flagIn_apply, run_append, hrun, hv, Option.some_or] at hflag
    exact (Option.some.inj hflag).symm
  · have alike := (sound.alike_setSynced free v).run after
    rw [committed, committed, run_append, run_append]
    exact (alike.apply_eq ns).symm

end Registry

/-! ### A sample -/

open Registry

/-- A request of a channel that the host lacks. -/
def Sample.nose : Action Float32 := .request "Nose" .continuous (.plain Float32)

theorem Sample.last_flag_of_nose : Sample.host.channelNames.Nodup ∧
    ((ofHost Sample.host).run [Sample.nose]).contains "Nose" = true ∧
    ∀ c ∈ (committed Sample.host ⟨"OSCm"⟩
        ([Sample.nose] ++ [.setSynced "Nose" true, Sample.nose])).channels,
      c.name = "Nose" → c.synced = true := by
  have nodup : Sample.host.channelNames.Nodup := by decide +kernel
  have taken : ((ofHost Sample.host).run [Sample.nose]).contains "Nose" = true := by
    decide +kernel
  have hlast : lastSet? "Nose" [.setSynced "Nose" true, Sample.nose] = some true := rfl
  have hwins := (last_flag_wins nodup ⟨"OSCm"⟩ [Sample.nose]
    [.setSynced "Nose" true, Sample.nose] "Nose").2.1 taken
  exact ⟨nodup, taken, hwins.2 true hlast⟩

/-- The flag is set once, before its channel is requested, and the channel does not have it. -/
theorem Sample.early_flag_lost : Sample.host.channelNames.Nodup ∧
    lastSet? "Nose" [.setSynced "Nose" true, Sample.nose] = some true ∧
    (committed Sample.host ⟨"OSCm"⟩ [.setSynced "Nose" true, Sample.nose]).channelNames
      = ["Jaw", "Cheek", "Nose"] ∧
    Host.flagIn "Nose"
      (committed Sample.host ⟨"OSCm"⟩ [.setSynced "Nose" true, Sample.nose]).channels
      = some false := by
  refine ⟨?_, rfl, ?_, ?_⟩
  all_goals decide +kernel

end BlendGraph
