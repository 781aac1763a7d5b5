import BlendGraph.Proofs.Compile.AdmittedLists
import BlendGraph.Proofs.Compile.Blueprint
import BlendGraph.Proofs.Host.Redirection
import BlendGraph.Proofs.Naming.GeneratedNames
import BlendGraph.Proofs.Registry.CommittedFlags

/-!
# The outcome of a compilation

A compilation succeeds if its list is admitted and the values of its clips are curves, neither of
which depends on what is in the host. What the host is then is told part by part.
-/

set_option autoImplicit false

namespace BlendGraph

variable {α : Type} [Scalar α]

/-! ### Requests of a list -/

namespace Compile

def requestsOf (ns : Namespace) (hidden : Bool) (p : Parameter α) : List (Request α) :=
  Filter.requestsOf ns p ++ if p.isQuantized then Decoder.requestsOf ns p hidden else []

theorem names_requestsOf (ns : Namespace) (hidden : Bool) (p : Parameter α) :
    (requestsOf ns hidden p).map Request.name
      = [p.name, ns.proxy p.name, ns.coefficient .owner p.name, ns.coefficient .remote p.name]
        ++ if p.isQuantized then (Decoder.channelsOf ns p hidden).bits
          ++ (Decoder.channelsOf ns p hidden).sign.toList else [] := by
  have hbits (ns : List String) :
      (ns.map Decoder.bitRequest : List (Request α)).map Request.name = ns :=
    List.map_map.trans (List.map_id' ns)
  rw [requestsOf, List.map_append]
  congr 1
  split
  · rw [Decoder.requestsOf, List.map_append, hbits, hbits]
  · rfl

theorem requests_firstEdits (ns : Namespace) (host : String) (hidden : Bool)
    (ps : List (Parameter α)) :
    (firstEdits ns host hidden ps).requests
      = blendSetRequest ns :: ps.flatMap (requestsOf ns hidden) := by
  have hp : (fun p => (parameterEdits (α := α) ns host hidden p).requests)
      = requestsOf ns hidden := by
    funext p
    cases hq : p.isQuantized <;> cases hr : p.redirect <;>
      simp [parameterEdits, requestsOf, hq, hr, Edits.append_eq, Edits.none, Decoder.edits,
        Decoder.sumEdits, Edits.each]
  rw [← hp]
  rfl

/-- The redirected parameters with their smoothed channels. -/
def renamesOf (ns : Namespace) (ps : List (Parameter α)) : List (String × String) :=
  (ps.filter Parameter.redirect).map fun p => (p.name, ns.proxy p.name)

theorem renames_firstEdits (ns : Namespace) (host : String) (hidden : Bool)
    (ps : List (Parameter α)) : (firstEdits ns host hidden ps).renames = renamesOf ns ps := by
  have hp : (fun p => (parameterEdits (α := α) ns host hidden p).renames)
      = fun p => if p.redirect then [(p.name, ns.proxy p.name)] else [] := by
    funext p
    cases hq : p.isQuantized <;> cases hr : p.redirect <;>
      simp [parameterEdits, hq, hr, Edits.append_eq, Edits.none, Decoder.edits,
        Decoder.sumEdits, Edits.each]
  change ps.flatMap (fun p => (parameterEdits (α := α) ns host hidden p).renames) = _
  rw [hp]
  induction ps with
  | nil => rfl
  | cons p ps ih =>
    rw [List.flatMap_cons, ih, renamesOf, renamesOf, List.filter_cons]
    cases p.redirect <;> rfl

omit [Scalar α] in
theorem lookup_renamesOf (ns : Namespace) (ps : List (Parameter α)) (n : String) :
    (renamesOf ns ps).lookup n
      = if n ∈ (ps.filter Parameter.redirect).map Parameter.name then some (ns.proxy n)
        else none := by
  unfold renamesOf
  induction ps.filter Parameter.redirect with
  | nil => simp
  | cons p ps ih =>
    rw [List.map_cons, List.lookup_cons, ih, List.map_cons]
    by_cases hn : n = p.name
    · simp [hn]
    · simp [hn, beq_false_of_ne hn]

/-- Parameters are renamed all at once. -/
theorem applyRenames_renamesOf {ns : Namespace} {ps : List (Parameter α)} (hroot : ns.root ≠ "")
    (h : Admits ns ps) (g : Host α) :
    Synthesis.applyRenames g (renamesOf ns ps) = g.redirect ((renamesOf ns ps).lookup ·) := by
  apply Synthesis.applyRenames_eq
  simp only [renamesOf, List.mem_map, List.mem_filter]
  rintro _ ⟨p, -, rfl⟩ _ ⟨q, ⟨hq, -⟩, rfl⟩ heq
  exact h.name_ne hq (Namespace.tags_channel hroot ..) heq.symm

end Compile

/-! ### The host -/

namespace Synthesis

theorem storeClips_fst (h : Host α) (cs : List (Clip α)) :
    (storeClips h cs).1 = { h with clips := stored h.clips cs } := by
  induction cs generalizing h with
  | nil => rfl
  | cons c cs ih => rw [storeClips, ih]; rfl

end Synthesis

namespace Compile

open Synthesis

/-- The layer that a compilation generates. -/
def generated (ns : Namespace) (host : String) (hidden : Bool) (ps : List (Parameter α)) :
    Layer α :=
  ⟨ns.layer, [.playing Namespace.stateName (motion ns host hidden ps)]⟩

/-- What a compilation makes of the host and what it changes, once its clips are recorded. -/
def outcome (h : Host α) (ps : List (Parameter α)) (o : CompileOptions) (cs : List (Clip α)) :
    Host α × Commit :=
  (pending h ps o cs).commit (generated o.names h.id o.hideBits ps) h

def report (h : Host α) (ps : List (Parameter α)) (o : CompileOptions) (b : Budget)
    (cs : List (Clip α)) : CompileReport where
  budget := b
  layer := o.names.layer
  created := (outcome h ps o cs).2.created
  reused := (outcome h ps o cs).2.reused
  unsynced := stale h ps o
  redirected := (outcome h ps o cs).2.redirected
  nodes := (motion o.names h.id o.hideBits ps).nodeCount
  clips := (pending h ps o cs).clips.size
  replaced := (outcome h ps o cs).2.replaced

variable {h h' : Host α} {ps : List (Parameter α)} {o : CompileOptions} {r : CompileReport}

/-- The checks and the values of the clips decide whether a compilation succeeds, and neither
depends on more of the host than its identifier. -/
theorem compile_eq (h : Host α) (ps : List (Parameter α)) (o : CompileOptions) :
    compile h ps o = (validate ps o).bind fun b =>
      (HeldClip.recordAll? (heldClips o.names h.id o.hideBits ps)).map fun cs =>
        ((outcome h ps o cs).1, report h ps o b cs) := by
  unfold compile
  cases hv : validate ps o with
  | error e => rfl
  | ok b =>
    have hrun := run_synthesize (h := h) (o := o) fun p hp => (admits_of_validate hv).width hp
    simp only [bind, Except.bind] at hrun ⊢
    rw [hrun]
    cases HeldClip.recordAll? (heldClips o.names h.id o.hideBits ps) <;> rfl

theorem compile_ok_iff : compile h ps o = .ok (h', r) ↔ ∃ b cs, validate ps o = .ok b ∧
    HeldClip.recordAll? (heldClips o.names h.id o.hideBits ps) = .ok cs ∧
    h' = (outcome h ps o cs).1 ∧ r = report h ps o b cs := by
  rw [compile_eq]
  cases validate ps o with
  | error e => simp [Except.bind]
  | ok b =>
    cases HeldClip.recordAll? (heldClips o.names h.id o.hideBits ps) with
    | error e => simp [Except.bind, Except.map]
    | ok cs =>
      simp only [Except.bind, Except.map, Except.ok.injEq, Prod.mk.injEq]
      constructor
      · rintro ⟨rfl, rfl⟩
        exact ⟨b, cs, rfl, rfl, rfl, rfl⟩
      · rintro ⟨-, -, rfl, rfl, rfl, rfl⟩
        exact ⟨rfl, rfl⟩

/-- What a reference names after the renames of a compilation. -/
def smoothed (ns : Namespace) (ps : List (Parameter α)) (n : String) : String :=
  Host.replaced ((renamesOf ns ps).lookup ·) n

/-- The host after a compilation, part by part. -/
theorem outcome_fst (hroot : o.names.root ≠ "") (admits : Admits o.names ps)
    (cs : List (Clip α)) : (outcome h ps o cs).1 =
      { id := h.id
        channels := Host.setAll (registry h ps o).flags.entries h.channels
          ++ (registry h ps o).created
        layers := (h.layers.filter fun l => !(l.name == o.names.layer)).map
          (Layer.mapChannels (smoothed o.names ps)) ++ [generated o.names h.id o.hideBits ps]
        clips := stored h.clips cs
        overrides := ((registry h ps o).flags.entries.foldl
          (Registry.applyFlag o.names) h).overrides } := by
  rw [outcome, commit]
  simp only [pending, renames_firstEdits, applyRenames_renamesOf hroot admits, storeClips_fst,
    Registry.apply_eq, stored_values]
  have hoverrides := congrArg Host.overrides (Registry.foldl_applyFlag_withLayers o.names h
    ((h.layers.filter fun l => !(l.name == o.names.layer)).map
      (Layer.mapChannels (smoothed o.names ps))) (registry h ps o).flags.entries)
  exact congrArg (Host.mk _ _ _ _) hoverrides

theorem created_outcome (h : Host α) (ps : List (Parameter α)) (o : CompileOptions)
    (cs : List (Clip α)) :
    (outcome h ps o cs).2.created = (registry h ps o).created.map Channel.name := rfl

theorem redirected_outcome (hroot : o.names.root ≠ "") (admits : Admits o.names ps)
    (cs : List (Clip α)) : (outcome h ps o cs).2.redirected
      = ((h.removeLayers fun l => l.name == o.names.layer).1.redirect
          ((renamesOf o.names ps).lookup ·)).2 := by
  rw [outcome, commit]
  simp only [pending, renames_firstEdits, applyRenames_renamesOf hroot admits]
  rfl

end Compile

/-! ### A sample -/

namespace Sample

/-- Two parameters, one of them quantized. -/
def parameters : List (Parameter Float32) :=
  [(Parameter.ofName "Jaw").withBits 2 true, Parameter.ofName "Mouth/Lips"]

def options : CompileOptions := ⟨⟨"OSCm"⟩, true, 16⟩

/-- A host that names one of the parameters and another channel. -/
def host : Host Float32 where
  id := "demo"
  channels := [⟨"Jaw", .continuous, 0, true⟩, ⟨"Cheek", .continuous, 0, true⟩]
  layers := [⟨"Face", [.playing "Open"
    (.sum "Mix" [("Jaw", .leaf "Open"), ("Cheek", .leaf "Puff")])]⟩]
  clips := .empty
  overrides := .empty

end Sample

end BlendGraph
