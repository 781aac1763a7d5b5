import BlendGraph.Proofs.Registry.CommittedFlags
import BlendGraph.Proofs.Registry.Requests
import BlendGraph.Proofs.Removal.UntouchedParts

/-!
# Runs of a registry

The passes of a compilation make their requests and set flags in any order. What a registry holds
after such a run is given by the names that its requests resolved to, in the order of the requests:
those of the host are used again, and each other one is created once, where it came first.
-/

set_option autoImplicit false

namespace BlendGraph

variable {α : Type}

namespace Registry

/-! ### Actions -/

/-- What a pass may do with a registry. -/
inductive Action (α : Type) where
  | request (name : String) (kind : ChannelKind) (options : ChannelOptions α)
  | setSynced (name : String) (synced : Bool)

/-- The registry that an action leaves. -/
def step (r : Registry α) : Action α → Registry α
  | .request name kind options => (r.register name kind options).2
  | .setSynced name synced => r.setSynced name synced

def run (r : Registry α) (actions : List (Action α)) : Registry α := actions.foldl step r

/-- The name that an action resolves to, if it is a request that succeeds. -/
def resolved? (r : Registry α) : Action α → Option String
  | .request name kind options => (r.register name kind options).1.toOption
  | .setSynced .. => none

/-- The names that the requests of a run resolve to, one for each that succeeds. -/
def resolved (r : Registry α) : List (Action α) → List String
  | [] => []
  | a :: actions => (r.resolved? a).toList ++ (r.step a).resolved actions

@[simp] theorem run_nil (r : Registry α) : r.run [] = r := rfl

@[simp] theorem run_cons (r : Registry α) (a : Action α) (actions : List (Action α)) :
    r.run (a :: actions) = (r.step a).run actions := rfl

theorem run_append (r : Registry α) (before after : List (Action α)) :
    r.run (before ++ after) = (r.run before).run after :=
  List.foldl_append

/-! ### One action -/

/-- A request that fails leaves the registry as it is. -/
theorem step_of_clashes {r : Registry α} {name : String} {options : ChannelOptions α}
    (h : r.Clashes name options) (kind : ChannelKind) :
    r.step (.request name kind options) = r := by
  rw [step, register_of_clashes h kind]

theorem step_of_not_clashes {r : Registry α} {name : String} {options : ChannelOptions α}
    (h : ¬r.Clashes name options) (kind : ChannelKind) :
    r.step (.request name kind options)
      = r.take ⟨finalName name options, kind, options.default, options.synced, false⟩ := by
  rw [step, register_of_not_clashes h kind]

theorem register_fails_iff {r : Registry α} {name : String} {kind : ChannelKind}
    {options : ChannelOptions α} :
    (∃ e, (r.register name kind options).1 = .error e) ↔ r.Clashes name options := by
  constructor
  · rintro ⟨e, he⟩
    by_contra h
    rw [register_of_not_clashes h kind] at he
    cases he
  · intro h
    exact ⟨_, congrArg Prod.fst (register_of_clashes h kind)⟩

/-- An action sets a flag, or it is a request that fails, or it enters a channel under the name that
it resolves to. -/
theorem step_cases (r : Registry α) (a : Action α) :
    (∃ n v, a = .setSynced n v ∧ r.step a = r.setSynced n v ∧ r.resolved? a = none) ∨
    (∃ n kind o, a = .request n kind o ∧ r.Clashes n o ∧ r.step a = r ∧ r.resolved? a = none) ∨
    ∃ n kind o, a = .request n kind o ∧ ¬r.Clashes n o ∧
      r.step a = r.take ⟨finalName n o, kind, o.default, o.synced, false⟩ ∧
      r.resolved? a = some (finalName n o) := by
  cases a with
  | setSynced n v => exact .inl ⟨n, v, rfl, rfl, rfl⟩
  | request n kind o =>
    right
    by_cases h : r.Clashes n o
    · refine .inl ⟨n, kind, o, rfl, h, step_of_clashes h kind, ?_⟩
      rw [resolved?, register_of_clashes h kind]
      rfl
    · refine .inr ⟨n, kind, o, rfl, h, step_of_not_clashes h kind, ?_⟩
      rw [resolved?, register_of_not_clashes h kind]
      rfl

theorem Sound.step {r : Registry α} {names : List String} (sound : r.Sound names) (a : Action α) :
    (r.step a).Sound names := by
  obtain ⟨n, v, -, hstep, -⟩ | ⟨-, -, -, -, -, hstep, -⟩ | ⟨n, kind, o, -, -, hstep, -⟩ :=
    step_cases r a
  · exact hstep ▸ sound.setSynced n v
  · rwa [hstep]
  · exact hstep ▸ sound.take _

theorem Sound.run {r : Registry α} {names : List String} (sound : r.Sound names)
    (actions : List (Action α)) : (r.run actions).Sound names := by
  induction actions generalizing r with
  | nil => exact sound
  | cons a actions ih => exact ih (sound.step a)

/-! ### What a registry has resolved -/

/-- The registry holds what requests that resolved to the names in `found` leave in it, for a host
with the names in `names`. -/
structure Tracks (r : Registry α) (names found : List String) : Prop where
  sound : r.Sound names
  created : r.created.map Channel.name = (found.filter (· ∉ names)).eraseDups
  reused : ∀ n, n ∈ r.reused.keys ↔ n ∈ found ∧ n ∈ names

namespace Tracks

variable {r : Registry α} {names found : List String}

theorem creates_iff (t : r.Tracks names found) {n : String} :
    r.creates n = true ↔ n ∈ found ∧ n ∉ names := by
  simp [Registry.creates_iff, t.created, List.mem_eraseDups]

theorem setSynced (t : r.Tracks names found) (n : String) (v : Bool) :
    (r.setSynced n v).Tracks names found where
  sound := t.sound.setSynced n v
  created := by rw [map_name_created_setSynced, t.created]
  reused m := by rw [reused_setSynced, t.reused]

theorem take (t : r.Tracks names found) (q : Request α) :
    (r.take q).Tracks names (found ++ [q.name]) where
  sound := t.sound.take q
  created := by
    rw [List.filter_append, List.eraseDups_append, ← t.created, created_take]
    by_cases hmem : q.name ∈ names
    · have hcontains : r.contains q.name = true := (t.sound.taken _).mpr (.inl hmem)
      simp [hcontains, hmem, List.removeAll]
    · -- The name is new exactly if no request before resolved to it.
      have hcontains : r.contains q.name = true ↔ q.name ∈ found := by
        rw [t.sound.taken, t.creates_iff]
        tauto
      by_cases hseen : q.name ∈ found
      · simp [hcontains.mpr hseen, hmem, hseen, List.removeAll]
      · have hfree : ¬r.contains q.name = true := mt hcontains.mp hseen
        simp [hfree, hmem, hseen, List.removeAll, Request.channel, List.eraseDups_cons]
  reused n := by
    rw [t.sound.mem_reused_take, t.reused, List.mem_append, List.mem_singleton]
    tauto

theorem step (t : r.Tracks names found) (a : Action α) :
    (r.step a).Tracks names (found ++ (r.resolved? a).toList) := by
  obtain ⟨n, v, -, hstep, hnone⟩ | ⟨-, -, -, -, -, hstep, hnone⟩ |
    ⟨n, kind, o, -, -, hstep, hsome⟩ := step_cases r a
  · simpa [hstep, hnone] using t.setSynced n v
  · simpa [hstep, hnone] using t
  · simpa [hstep, hsome] using t.take _

theorem run (t : r.Tracks names found) (actions : List (Action α)) :
    (r.run actions).Tracks names (found ++ r.resolved actions) := by
  induction actions generalizing r found with
  | nil => simpa [resolved] using t
  | cons a actions ih =>
    rw [run_cons, resolved, ← List.append_assoc]
    exact ih (t.step a)

end Tracks

/-! ### Registries of a host -/

variable [Scalar α]

theorem tracks_ofHost (h : Host α) : (ofHost h).Tracks h.channelNames [] where
  sound := sound_ofHost h
  created := rfl
  reused _ := by simp [ofHost, empty, Table.keys]

theorem tracks_run (h : Host α) (actions : List (Action α)) :
    ((ofHost h).run actions).Tracks h.channelNames ((ofHost h).resolved actions) :=
  (tracks_ofHost h).run actions

theorem channels_apply (r : Registry α) (ns : Namespace) (h : Host α) :
    (r.apply ns h).channels = Host.setAll r.flags.entries h.channels ++ r.created := by
  rw [apply_eq]

theorem channelNames_apply (r : Registry α) (ns : Namespace) (h : Host α) :
    (r.apply ns h).channelNames = h.channelNames ++ r.created.map Channel.name := by
  rw [Host.channelNames, channels_apply, List.map_append, Host.map_name_setAll]
  rfl

theorem Sound.nodup_apply_iff {r : Registry α} {h : Host α} (sound : r.Sound h.channelNames)
    (ns : Namespace) : (r.apply ns h).channelNames.Nodup ↔ h.channelNames.Nodup := by
  rw [channelNames_apply, List.nodup_append]
  constructor
  · exact And.left
  · intro hnodup
    refine ⟨hnodup, sound.nodup, ?_⟩
    rintro n hn m hm rfl
    exact sound.fresh n (Registry.creates_iff.mpr hm) hn

/-- Names stay distinct over any run. The taken names are those of the host and of the new channels.
Of the names that the requests resolved to, those that the host lacks are the names of the new
channels, each at its first request, and those that it has are used again. A request fails if and
only if it asks for a new channel under a name that is taken, and then it leaves the registry as it
is. Committing the registry leaves the channels of the host in their places, but for their flags,
and puts the new ones behind them. -/
theorem names_distinct (h : Host α) (ns : Namespace) (actions : List (Action α)) :
    ∃ r, (ofHost h).run actions = r ∧
      (∀ n, r.contains n = true ↔ n ∈ h.channelNames ∨ n ∈ r.created.map Channel.name) ∧
      r.created.map Channel.name
        = (((ofHost h).resolved actions).filter (· ∉ h.channelNames)).eraseDups ∧
      (r.created.map Channel.name).Nodup ∧
      (∀ n ∈ r.created.map Channel.name, n ∉ h.channelNames) ∧
      (∀ n, n ∈ r.reused.keys ↔ n ∈ (ofHost h).resolved actions ∧ n ∈ h.channelNames) ∧
      (∀ n, r.isRequested n = true ↔ n ∈ r.created.map Channel.name ∨ n ∈ r.reused.keys) ∧
      (∀ n kind o,
        ((∃ e, (r.register n kind o).1 = .error e)
          ↔ o.reuse = false ∧ r.contains (finalName n o) = true) ∧
        ((∃ e, (r.register n kind o).1 = .error e)
          ↔ r.register n kind o = (.error (.duplicateChannel (finalName n o)), r))) ∧
      (∃ kept, (r.apply ns h).channels = kept ++ r.created ∧
        List.Forall₂ (Channel.Reset r.flags.entries) h.channels kept) ∧
      ((r.apply ns h).channelNames.Nodup ↔ h.channelNames.Nodup) := by
  have tracks := tracks_run h actions
  have sound := tracks.sound
  refine ⟨_, rfl, fun n => ?_, tracks.created, sound.nodup, ?_, tracks.reused, fun n => ?_,
    fun n kind o => ⟨register_fails_iff, ?_⟩, ⟨_, channels_apply _ ns h, Host.reset_setAll _ _⟩,
    sound.nodup_apply_iff ns⟩
  · rw [sound.taken, Registry.creates_iff]
  · intro n hn
    exact sound.fresh n (Registry.creates_iff.mpr hn)
  · rw [isRequested_iff, Registry.creates_iff, or_comm]
  · constructor
    · intro hfails
      exact register_of_clashes (register_fails_iff.mp hfails) kind
    · intro heq
      exact ⟨_, congrArg Prod.fst heq⟩

end Registry

end BlendGraph
