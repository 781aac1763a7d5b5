import BlendGraph.Proofs.Host.TreeOutlines
import BlendGraph.Proofs.Removal.RemainingHost

/-!
# What a removal does not touch

A removal goes by names only: a layer, a subtree, a channel or a clip goes if its name passes the
test of its kind. Whatever else is in the host stays in its order, but for references that are
turned back and recorded flags that are set again.
-/

set_option autoImplicit false

namespace BlendGraph

variable {α β γ δ : Type}

theorem forall₂_trans {R : β → γ → Prop} {S : γ → δ → Prop} {T : β → δ → Prop}
    (trans : ∀ a b c, R a b → S b c → T a c) {xs : List β} {ys : List γ} {zs : List δ}
    (h : List.Forall₂ R xs ys) (h' : List.Forall₂ S ys zs) : List.Forall₂ T xs zs := by
  induction h generalizing zs with
  | nil =>
    cases h'
    exact .nil
  | cons hxy _ ih =>
    cases h' with
    | cons hyz hrest => exact .cons (trans _ _ _ hxy hyz) (ih hrest)

/-! ### Channels -/

/-- The second channel is the first one, perhaps with one of the given flags. -/
structure Channel.Reset (flags : List (String × Bool)) (c d : Channel α) : Prop where
  name : d.name = c.name
  kind : d.kind = c.kind
  default : d.default = c.default
  synced : d.synced = c.synced ∨ (c.name, d.synced) ∈ flags

namespace Host

theorem reset_setSyncedIn (f : String × Bool) (cs : List (Channel α)) :
    List.Forall₂ (Channel.Reset [f]) cs (setSyncedIn f.1 f.2 cs) := by
  have hself (c : Channel α) : Channel.Reset [f] c c := ⟨rfl, rfl, rfl, .inl rfl⟩
  induction cs with
  | nil => exact .nil
  | cons c cs ih =>
    rw [setSyncedIn_cons]
    split
    · next hc =>
      refine .cons ⟨rfl, rfl, rfl, .inr ?_⟩ (List.forall₂_same.mpr fun d _ => hself d)
      rw [hc]
      exact List.mem_singleton_self _
    · exact .cons (hself c) ih

theorem reset_setAll (flags : List (String × Bool)) (cs : List (Channel α)) :
    List.Forall₂ (Channel.Reset flags) cs (setAll flags cs) := by
  induction flags generalizing cs with
  | nil => exact List.forall₂_same.mpr fun c _ => ⟨rfl, rfl, rfl, .inl rfl⟩
  | cons f flags ih =>
    refine forall₂_trans (fun a b c hab hbc => ?_) (reset_setSyncedIn f cs) (ih _)
    refine ⟨hbc.name.trans hab.name, hbc.kind.trans hab.kind, hbc.default.trans hab.default, ?_⟩
    rcases hbc.synced with hsame | hset
    · rw [hsame]
      exact hab.synced.imp_right fun hmem =>
        List.mem_cons.mpr (.inl (List.mem_singleton.mp hmem))
    · exact .inr (List.mem_cons_of_mem _ (hab.name ▸ hset))

end Host

/-! ### Layers -/

/-- The second state is the first one with its motion pared and names replaced. -/
structure State.Pared (test : String → Bool) (f : String → String) (s t : State α) : Prop where
  name : t.name = s.name
  time : t.timeChannel = s.timeChannel.map f
  speed : t.speedChannel = s.speedChannel.map f
  cycle : t.cycleChannel = s.cycleChannel.map f
  mirror : t.mirrorChannel = s.mirrorChannel.map f
  motion : ∀ m, t.motion = some m ↔
    ∃ n, s.motion = some n ∧ test n.name = false ∧ Node.Pared test f n m

theorem State.pared_prune (test : String → Bool) (f : String → String) (s : State α) :
    State.Pared test f s ((s.prune fun n => test n.name).mapChannels f) where
  name := rfl
  time := rfl
  speed := rfl
  cycle := rfl
  mirror := rfl
  motion m := by
    simp only [State.mapChannels, State.prune, Node.pared_iff, Option.map_eq_some_iff,
      Option.bind_eq_some_iff, Option.ite_none_left_eq_some, Bool.not_eq_true]
    constructor
    · rintro ⟨k, ⟨n, hn, hkept, hk⟩, rfl⟩
      exact ⟨n, hn, hkept, by rw [← Option.some.inj hk]⟩
    · rintro ⟨n, hn, hkept, rfl⟩
      exact ⟨_, ⟨n, hn, hkept, rfl⟩, rfl⟩

/-- The second layer is the first one with its states pared. -/
structure Layer.Pared (test : String → Bool) (f : String → String) (l k : Layer α) : Prop where
  name : k.name = l.name
  states : List.Forall₂ (State.Pared test f) l.states k.states

theorem Layer.pared_prune (test : String → Bool) (f : String → String) (l : Layer α) :
    Layer.Pared test f l ((l.prune fun n => test n.name).mapChannels f) where
  name := rfl
  states := by
    change List.Forall₂ _ _ ((l.states.map (State.prune _)).map (State.mapChannels f))
    rw [List.map_map, List.forall₂_map_right_iff, List.forall₂_same]
    exact fun s _ => State.pared_prune test f s

/-- The function takes one start off each name that has one, and leaves any other name. -/
def Namespace.TurnsBack (ns : Namespace) (f : String → String) : Prop :=
  ∀ n, (∃ start ∈ ns.starts, n = start ++ f n) ∨
    f n = n ∧ ∀ start ∈ ns.starts, Text.startsWith n start = false

theorem Removal.turnsBack_turned (ns : Namespace) : ns.TurnsBack (turned ns) := by
  intro n
  rw [turned, Host.replaced]
  cases hraw : rawName? ns n with
  | none => exact .inr ⟨rfl, rawName?_eq_none_iff.mp hraw⟩
  | some m => exact .inl (rawName?_eq_some_iff.mp hraw)

/-! ### Hosts -/

variable [Scalar α]

/-- The second host has all of the first one that a removal has no name to go by for. -/
structure Host.Spared (ns : Namespace) (f : String → String) (h g : Host α) : Prop where
  id : g.id = h.id
  layers : List.Forall₂ (Layer.Pared ns.tags f) (h.layers.filter fun l => !ns.tags l.name) g.layers
  channels : List.Forall₂ (Channel.Reset (h.overridesOf ns.root).entries)
    (h.channels.filter fun c => !ns.generates c.name) g.channels
  clips : ∀ k c, h.clips.get? k = some c → ClipName.isGenerated c.name h.id = false →
    g.clips.get? k = some c
  clipsBefore : ∀ k c, g.clips.get? k = some c → h.clips.get? k = some c
  overrides : ∀ root ≠ ns.root, g.overrides.get? root = h.overrides.get? root

namespace Removal

/-- A removal touches nothing that is not tagged. -/
theorem spared_removeAll (h : Host α) {ns : Namespace} (hroot : ns.root ≠ "") :
    ∃ f, ns.TurnsBack f ∧ h.Spared ns f (removeAll h ns.root).1 := by
  refine ⟨turned ns, turnsBack_turned ns, ?_⟩
  rw [removeAll_fst h hroot]
  constructor
  case id => rfl
  case layers =>
    dsimp only
    rw [remaining, List.map_map, List.forall₂_map_right_iff, List.forall₂_same]
    exact fun l _ => Layer.pared_prune ns.tags (turned ns) l
  case channels => exact Host.reset_setAll _ _
  case clips =>
    intro k c hc hplain
    rw [Table.get?_filter, hc, Option.filter_some, hplain, Bool.and_false]
    rfl
  case clipsBefore =>
    intro k c hc
    rw [Table.get?_filter] at hc
    exact (Option.filter_eq_some_iff.mp hc).1
  case overrides =>
    intro root hne
    rw [Table.get?_erase, if_neg hne]

theorem spared_removeAll_sample : "OSCm" ≠ "" ∧ ∃ f, Namespace.TurnsBack ⟨"OSCm"⟩ f ∧
    Host.Spared ⟨"OSCm"⟩ f Sample.nested (removeAll Sample.nested "OSCm").1 := by
  have hroot : (⟨"OSCm"⟩ : Namespace).root ≠ "" := by decide
  exact ⟨hroot, spared_removeAll Sample.nested hroot⟩

end Removal

end BlendGraph
