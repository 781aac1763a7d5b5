import BlendGraph.Compile
import BlendGraph.Proofs.Compile.BuilderEdits
import BlendGraph.Proofs.Number.ScalarLaws

/-!
# The blueprint of a generated layer

What each builder does, in closed form: the channels it requests, the clips it puts down and the
tree it gives. All of it follows from the namespace, the identifier of the host and the parameters,
so that nothing else in the host has an influence on the generated layer.
-/

set_option autoImplicit false

namespace BlendGraph

variable {α : Type} [Scalar α]

open Synthesis

/-! ### Filters -/

namespace Filter

def channelsOf (ns : Namespace) (parameter : String) : FilterChannels :=
  ⟨parameter, ns.proxy parameter, ns.coefficient .remote parameter, ns.coefficient .owner parameter⟩

def coefficientRequest (ns : Namespace) (p : Parameter α) (o : Observer) : Request α :=
  ⟨ns.coefficient o p.name, .continuous, p.smoothness o, false, false⟩

def requestsOf (ns : Namespace) (p : Parameter α) : List (Request α) :=
  [⟨p.name, .continuous, 0, !p.isQuantized, true⟩, ⟨ns.proxy p.name, .continuous, 0, false, false⟩,
    coefficientRequest ns p .owner, coefficientRequest ns p .remote]

/-- The clips at both bounds of a filter. -/
def clipsOf (host parameter proxy : String) : List (HeldClip α) :=
  [⟨ClipName.smoother parameter (-1 : α) host, proxy, -1⟩,
    ⟨ClipName.smoother parameter (1 : α) host, proxy, 1⟩]

/-- The blend between both bounds along one channel. -/
def blend (host parameter name key : String) : Node α :=
  ((Node.interp name key []).withThreshold (-1)
    (.leaf (ClipName.smoother parameter (-1 : α) host))).withThreshold 1
    (.leaf (ClipName.smoother parameter (1 : α) host))

def tree (ns : Namespace) (host parameter : String) (o : Observer) (c : FilterChannels) : Node α :=
  ((Node.interp (ns.filterRoot parameter) (c.coefficient o) []).withThreshold 0
    (blend host parameter (ns.filterInput parameter) c.raw)).withThreshold 1
    (blend host parameter (ns.filterDriver parameter) c.proxy)

def sumTree (ns : Namespace) (host blendSet : String) (filters : List (String × FilterChannels))
    (o : Observer) : Node α :=
  (filters.map fun f => tree ns host f.1 o f.2).foldl (fun sum b => sum.withWeight blendSet b)
    (.sum (ns.observerRoot o) [])

def selectorRequest : Request α := ⟨Namespace.selectorChannel, .discrete, 0, false, false⟩

def rootTree (ns : Namespace) (host blendSet : String) (filters : List (String × FilterChannels)) :
    Node α :=
  (Observer.all.map fun o => (o, sumTree ns host blendSet filters o)).foldl
    (fun root b => root.withThreshold b.1.threshold b.2)
    (.interp ns.smootherRoot Namespace.selectorChannel [])

def sumEdits (host : String) (filters : List (String × FilterChannels)) : Edits α :=
  Edits.each (fun f => ⟨[], clipsOf host f.1 f.2.proxy, []⟩) filters

variable {ns : Namespace} {host : String}

theorem performs_registerCoefficient (p : Parameter α) (o : Observer) :
    Performs ns host (registerCoefficient p o) ⟨[coefficientRequest ns p o], [], []⟩
      (ns.coefficient o p.name) := by
  apply Performs.get
  intro s hs _
  subst hs
  exact .channel _ _ rfl

theorem performs_register (p : Parameter α) :
    Performs ns host (register p) ⟨requestsOf ns p, [], []⟩ (channelsOf ns p.name) := by
  apply Performs.get
  intro s hs _
  subst hs
  exact .bind (.forcedChannel _ _ rfl) (.bind (.channel _ _ rfl)
    (.bind (performs_registerCoefficient p .owner)
      (.bind (performs_registerCoefficient p .remote) (.pure _) rfl) rfl) rfl) rfl

theorem performs_build (parameter : String) (o : Observer) (c : FilterChannels) :
    Performs ns host (build parameter o c) ⟨[], clipsOf host parameter c.proxy, []⟩
      (tree (α := α) ns host parameter o c) := by
  apply Performs.get
  intro s hs hh
  subst hs hh
  exact .bind (.clip _ _ _) (.bind (.clip _ _ _) (.pure _) rfl) rfl

theorem performs_buildSum (filters : List (String × FilterChannels)) (blendSet : String)
    (o : Observer) :
    Performs ns host (buildSum filters blendSet o) (sumEdits host filters)
      (sumTree (α := α) ns host blendSet filters o) := by
  apply Performs.get
  intro s hs hh
  subst hs hh
  exact .bind (.mapM fun f _ => performs_build f.1 o f.2) (.pure _) (Edits.append_none _)

theorem performs_buildAll (filters : List (String × FilterChannels)) (blendSet : String) :
    Performs ns host (buildAll filters blendSet)
      (⟨[selectorRequest], [], []⟩ ++ Edits.each (fun _ => sumEdits host filters) Observer.all)
      (rootTree (α := α) ns host blendSet filters) := by
  apply Performs.get
  intro s hs hh
  subst hs hh
  refine .bind (.channel _ _ rfl) (.bind (.mapM fun o _ => ?_) (.pure _) (Edits.append_none _)) rfl
  exact .bind (performs_buildSum filters blendSet o) (.pure _) (Edits.append_none _)

end Filter

/-! ### Decoders -/

namespace Decoder

/-- The name of a bit channel as it is registered. -/
def given (hidden : Bool) (n : String) : String := if hidden then Text.hide n else n

def channelsOf (ns : Namespace) (p : Parameter α) (hidden : Bool) : DecoderChannels where
  bits := (List.range p.bits).map fun i => given hidden (ns.bit p.name i)
  sign := if p.signBit then some (given hidden (ns.sign p.name)) else none

def bitRequest (n : String) : Request α := ⟨n, .discrete, 0, true, true⟩

def requestsOf (ns : Namespace) (p : Parameter α) (hidden : Bool) : List (Request α) :=
  (channelsOf ns p hidden).bits.map bitRequest
    ++ (channelsOf ns p hidden).sign.toList.map bitRequest

/-- The bits of a decoder with their channels and weights. -/
def wires (p : Parameter α) (c : DecoderChannels) : List (Nat × String × α) :=
  (List.range p.bits).zip (c.bits.zip ((weights? p.bits).getD []))

def bitClips (host : String) (p : Parameter α) (target : String) (negative : Bool)
    (w : Nat × String × α) : List (HeldClip α) :=
  [⟨ClipName.decoder p.name false w.1 (0 : α) host, target, 0⟩,
    ⟨ClipName.decoder p.name true w.1 (signed negative w.2.2) host, target, signed negative w.2.2⟩]

def bitTree (ns : Namespace) (host : String) (p : Parameter α) (negative : Bool)
    (w : Nat × String × α) : Node α :=
  ((Node.interp (ns.decoderBit p.name w.1 negative) w.2.1 []).withThreshold 0
    (.leaf (ClipName.decoder p.name false w.1 (0 : α) host))).withThreshold 1
    (.leaf (ClipName.decoder p.name true w.1 (signed negative w.2.2) host))

def sumTree (ns : Namespace) (host : String) (p : Parameter α) (c : DecoderChannels)
    (blendSet : String) (negative : Bool) : Node α :=
  ((wires p c).map (bitTree ns host p negative)).foldl (fun sum b => sum.withWeight blendSet b)
    (.sum (ns.decoderSum p.name negative) [])

def sumEdits (host : String) (p : Parameter α) (target : String) (c : DecoderChannels)
    (negative : Bool) : Edits α :=
  Edits.each (fun w => ⟨[], bitClips host p target negative w, []⟩) (wires p c)

def tree (ns : Namespace) (host : String) (p : Parameter α) (c : DecoderChannels)
    (blendSet : String) : Node α :=
  match c.sign with
  | none => sumTree ns host p c blendSet false
  | some sign => ((Node.interp (ns.decoderRoot p.name) sign []).withThreshold 0
      (sumTree ns host p c blendSet false)).withThreshold 1 (sumTree ns host p c blendSet true)

/-- The sums of a decoder, told by whether they are negated. -/
def signs (c : DecoderChannels) : List Bool := false :: (c.sign.map fun _ => true).toList

def edits (host : String) (p : Parameter α) (target : String) (c : DecoderChannels) : Edits α :=
  Edits.each (sumEdits host p target c) (signs c)

variable {ns : Namespace} {host : String}

theorem performs_checkWidth {p : Parameter α} (h : isWidth p.bits = true) :
    Performs ns host (checkWidth p) .none () := by
  rw [checkWidth, if_pos h]
  exact .pure ()

theorem performs_requestBit (n : String) (hidden : Bool) :
    Performs (α := α) ns host (requestBit n hidden) ⟨[bitRequest (given hidden n)], [], []⟩
      (given hidden n) :=
  .forcedChannel _ _ rfl

theorem performs_register {p : Parameter α} (h : isWidth p.bits = true) (hidden : Bool) :
    Performs ns host (register p hidden) ⟨requestsOf ns p hidden, [], []⟩
      (channelsOf ns p hidden) := by
  refine .bind (performs_checkWidth h) (.get fun s hs _ => ?_) (Edits.none_append _)
  subst hs
  have hbits : Performs s.names host
      ((List.range p.bits).mapM fun i => requestBit (α := α) (s.names.bit p.name i) hidden)
      ⟨(channelsOf s.names p hidden).bits.map bitRequest, [], []⟩
      (channelsOf s.names p hidden).bits := by
    have hrequests : (channelsOf s.names p hidden).bits.map bitRequest = (List.range p.bits).map
        fun i => bitRequest (α := α) (given hidden (s.names.bit p.name i)) :=
      List.map_map
    rw [hrequests, ← Edits.each_request]
    exact .mapM fun i _ => performs_requestBit (s.names.bit p.name i) hidden
  cases hp : p.signBit with
  | false =>
    have hchannels : channelsOf s.names p hidden = ⟨(channelsOf s.names p hidden).bits, none⟩ := by
      simp [channelsOf, hp]
    simp only [Bool.false_eq_true, if_false]
    rw [requestsOf, hchannels]
    exact .bind hbits (.bind (.pure none) (.pure _) rfl) rfl
  | true =>
    have hchannels : channelsOf s.names p hidden
        = ⟨(channelsOf s.names p hidden).bits, some (given hidden (s.names.sign p.name))⟩ := by
      simp [channelsOf, hp]
    simp only [if_true]
    rw [requestsOf, hchannels]
    exact .bind hbits (.bind (.map some (performs_requestBit _ hidden)) (.pure _) rfl) rfl

theorem performs_buildBit (p : Parameter α) (target : String) (negative : Bool)
    (w : Nat × String × α) :
    Performs ns host (buildBit p target negative w.1 w.2.1 w.2.2)
      ⟨[], bitClips host p target negative w, []⟩ (bitTree ns host p negative w) := by
  apply Performs.get
  intro s hs hh
  subst hs hh
  exact .bind (.clip _ _ _) (.bind (.clip _ _ _) (.pure _) rfl) rfl

theorem performs_buildSum {p : Parameter α} (h : isWidth p.bits = true) (target : String)
    (c : DecoderChannels) (blendSet : String) (negative : Bool) :
    Performs ns host (buildSum p target c blendSet negative) (sumEdits host p target c negative)
      (sumTree ns host p c blendSet negative) := by
  apply Performs.get
  intro s hs hh
  subst hs hh
  exact .bind (performs_checkWidth h)
    (.bind (.mapM fun w _ => performs_buildBit p target negative w) (.pure _)
      (Edits.append_none _)) (Edits.none_append _)

theorem performs_build {p : Parameter α} (h : isWidth p.bits = true) (target : String)
    (c : DecoderChannels) (blendSet : String) :
    Performs ns host (build p target c blendSet) (edits host p target c)
      (tree ns host p c blendSet) := by
  have hpos : Performs ns host (buildSum p target c blendSet false) (sumEdits host p target c false)
      (sumTree ns host p c blendSet false) := performs_buildSum h target c blendSet false
  cases hc : c.sign with
  | none =>
    simp only [build, tree, edits, signs, hc, Option.map_none, Option.toList_none]
    exact .bind hpos (.pure _) (by rw [Edits.each_cons, Edits.each_nil])
  | some sign =>
    simp only [build, tree, edits, signs, hc, Option.map_some, Option.toList_some]
    refine .bind hpos (.bind (performs_buildSum h target c blendSet true) (.get fun s hs _ => ?_)
      rfl) (by rw [Edits.each_cons, Edits.each_cons, Edits.each_nil])
    subst hs
    exact .pure _

end Decoder

/-! ### Compilations -/

namespace Compile

def decoder? (ns : Namespace) (host : String) (hidden : Bool) (p : Parameter α) :
    Option (Node α) :=
  if p.isQuantized then
    some (Decoder.tree ns host p (Decoder.channelsOf ns p hidden) ns.blendSet)
  else none

/-- What is done for one parameter before the filters are built. -/
def parameterEdits (ns : Namespace) (host : String) (hidden : Bool) (p : Parameter α) : Edits α :=
  ⟨Filter.requestsOf ns p, [], []⟩
    ++ (if p.isQuantized then
        ⟨Decoder.requestsOf ns p hidden, [], []⟩
          ++ Decoder.edits host p p.name (Decoder.channelsOf ns p hidden)
      else .none)
    ++ if p.redirect then ⟨[], [], [(p.name, ns.proxy p.name)]⟩ else .none

def blendSetRequest (ns : Namespace) : Request α := ⟨ns.blendSet, .continuous, 1, false, false⟩

/-- What is done before stale bits are looked for. -/
def firstEdits (ns : Namespace) (host : String) (hidden : Bool) (ps : List (Parameter α)) :
    Edits α :=
  ⟨[blendSetRequest ns], [], []⟩ ++ Edits.each (parameterEdits ns host hidden) ps

def filters (ns : Namespace) (ps : List (Parameter α)) : List (String × FilterChannels) :=
  ps.map fun p => (p.name, Filter.channelsOf ns p.name)

/-- What is done after stale bits are looked for. -/
def lastEdits (ns : Namespace) (host : String) (ps : List (Parameter α)) : Edits α :=
  ⟨[Filter.selectorRequest], [], []⟩
    ++ Edits.each (fun _ => Filter.sumEdits host (filters ns ps)) Observer.all

theorem requests_lastEdits (ns : Namespace) (host : String) (ps : List (Parameter α)) :
    (lastEdits ns host ps).requests = [Filter.selectorRequest] := by
  simp [lastEdits, Edits.append_eq, Edits.each, Filter.sumEdits]

theorem renames_lastEdits (ns : Namespace) (host : String) (ps : List (Parameter α)) :
    (lastEdits ns host ps).renames = [] := by
  simp [lastEdits, Edits.append_eq, Edits.each, Filter.sumEdits]

/-- The clips of a generated layer, in the order in which they are put down. -/
def heldClips (ns : Namespace) (host : String) (hidden : Bool) (ps : List (Parameter α)) :
    List (HeldClip α) :=
  (firstEdits ns host hidden ps).clips ++ (lastEdits ns host ps).clips

/-- What the parameters give, before the filters are built. -/
def parts (ns : Namespace) (host : String) (hidden : Bool) (ps : List (Parameter α)) :
    List ((String × FilterChannels) × Option (Node α)) :=
  ps.map fun p => ((p.name, Filter.channelsOf ns p.name), decoder? ns host hidden p)

def motion (ns : Namespace) (host : String) (hidden : Bool) (ps : List (Parameter α)) : Node α :=
  let decoders := ps.filterMap (decoder? ns host hidden)
  let root := Node.sum ns.rootNode []
  let root := if decoders.isEmpty then root
    else root.withWeight ns.blendSet
      (decoders.foldl (fun sum d => sum.withWeight ns.blendSet d) (Node.sum ns.binaryRoot []))
  root.withWeight ns.blendSet (Filter.rootTree ns host ns.blendSet (filters ns ps))

def firstRegistry (h : Host α) (ps : List (Parameter α)) (o : CompileOptions) : Registry α :=
  (Registry.ofHost h).enterAll (firstEdits o.names h.id o.hideBits ps).requests

/-- The transmitted bits of the host that a compilation does not request. -/
def stale (h : Host α) (ps : List (Parameter α)) (o : CompileOptions) : List String :=
  staleBits o.names h (firstRegistry h ps o)

def registry (h : Host α) (ps : List (Parameter α)) (o : CompileOptions) : Registry α :=
  ((firstRegistry h ps o).flagAll (stale h ps o) false).enterAll
    (lastEdits o.names h.id ps).requests

/-- The edits that a compilation commits, once its clips are recorded. -/
def pending (h : Host α) (ps : List (Parameter α)) (o : CompileOptions) (cs : List (Clip α)) :
    Synthesis α where
  names := o.names
  host := h.id
  registry := registry h ps o
  clips := stored .empty cs
  renames := (firstEdits o.names h.id o.hideBits ps).renames

variable {ns : Namespace} {host : String}

theorem performs_prepare {o : CompileOptions} {p : Parameter α}
    (width : p.isQuantized = true → Decoder.isWidth p.bits = true) :
    Performs o.names host (prepare o o.names.blendSet p)
      (parameterEdits o.names host o.hideBits p)
      ((p.name, Filter.channelsOf o.names p.name), decoder? o.names host o.hideBits p) := by
  have hregister : Performs o.names host (Filter.register p)
      ⟨Filter.requestsOf o.names p, [], []⟩ (Filter.channelsOf o.names p.name) :=
    Filter.performs_register p
  have hrename : Performs (α := α) o.names host (rename p.name (o.names.proxy p.name)) _ _ :=
    .rename _ _
  cases hq : p.isQuantized with
  | false =>
    cases hr : p.redirect with
    | false =>
      simp only [prepare, parameterEdits, decoder?, hq, hr, Bool.false_eq_true, if_false]
      exact .bind hregister (.bind (.pure none) (.pure _) rfl) rfl
    | true =>
      simp only [prepare, parameterEdits, decoder?, hq, hr, Bool.false_eq_true, if_false, if_true]
      exact .bind hregister (.bind (.pure none) (.bind hrename (.pure _) rfl) rfl) rfl
  | true =>
    have hchannels : Performs o.names host (Decoder.register p o.hideBits)
        ⟨Decoder.requestsOf o.names p o.hideBits, [], []⟩
        (Decoder.channelsOf o.names p o.hideBits) := Decoder.performs_register (width hq) _
    have hbuild : Performs o.names host
        (Decoder.build p p.name (Decoder.channelsOf o.names p o.hideBits) o.names.blendSet) _ _ :=
      Decoder.performs_build (width hq) _ _ _
    cases hr : p.redirect with
    | false =>
      simp only [prepare, parameterEdits, decoder?, hq, hr, Bool.false_eq_true, if_false, if_true]
      exact .bind hregister (.bind hchannels (.bind (.map some hbuild) (.pure _) rfl) rfl)
        (by rw [Edits.append_none, Edits.append_none])
    | true =>
      simp only [prepare, parameterEdits, decoder?, hq, hr, if_true]
      exact .bind hregister
        (.bind hchannels (.bind (.map some hbuild) (.bind hrename (.pure _) rfl) rfl) rfl)
        (by rw [Edits.append_none, Edits.append_assoc, Edits.append_assoc])

theorem run_synthesize {h : Host α} {ps : List (Parameter α)} {o : CompileOptions}
    (width : ∀ p ∈ ps, p.isQuantized = true → Decoder.isWidth p.bits = true) :
    (synthesize h ps o).run (.ofHost h o.names)
      = (HeldClip.recordAll? (heldClips o.names h.id o.hideBits ps)).map fun cs =>
          ((motion o.names h.id o.hideBits ps, stale h ps o), pending h ps o cs) := by
  have hblend : Performs (α := α) o.names h.id
      (channel o.names.blendSet .continuous { ChannelOptions.plain α with default := 1 })
      ⟨[blendSetRequest o.names], [], []⟩ o.names.blendSet := .channel _ _ rfl
  have hprepare : ∀ p ∈ ps, Performs o.names h.id (prepare o o.names.blendSet p)
      (parameterEdits o.names h.id o.hideBits p)
      ((p.name, Filter.channelsOf o.names p.name), decoder? o.names h.id o.hideBits p) :=
    fun p hp => performs_prepare (width p hp)
  have hparts := Performs.mapM hprepare
  have hfilters : (parts o.names h.id o.hideBits ps).map Prod.fst = filters o.names ps := by
    rw [parts, List.map_map]
    rfl
  have hdecoders : (parts o.names h.id o.hideBits ps).filterMap Prod.snd
      = ps.filterMap (decoder? o.names h.id o.hideBits) := by
    rw [parts, List.filterMap_map]
    rfl
  have hsmoother : Performs (α := α) o.names h.id
      (Filter.buildAll (filters o.names ps) o.names.blendSet) _ _ :=
    Filter.performs_buildAll (filters o.names ps) o.names.blendSet
  rw [synthesize, hblend.run_bind rfl rfl, HeldClip.recordAll?_nil]
  change (StateT.run (ps.mapM (prepare o o.names.blendSet) >>= _) _) = _
  have hclips : heldClips o.names h.id o.hideBits ps
      = (Edits.each (parameterEdits o.names h.id o.hideBits) ps).clips
        ++ (lastEdits o.names h.id ps).clips := rfl
  rw [hparts.run_bind rfl rfl, hclips, HeldClip.recordAll?_append]
  cases HeldClip.recordAll? (Edits.each (parameterEdits o.names h.id o.hideBits) ps).clips with
  | error e => rfl
  | ok cs =>
    -- the stale bits are read off the registry after the first edits
    simp only [Except.bind, perform_perform, List.nil_append]
    change StateT.run ((stale h ps o).forM (fun n => setSynced (α := α) n false) >>= fun _ =>
      Filter.buildAll (α := α) ((parts o.names h.id o.hideBits ps).map Prod.fst)
        o.names.blendSet >>= _) _ = _
    rw [run_forM_setSynced, hfilters, hsmoother.run_bind rfl rfl]
    change (HeldClip.recordAll? (lastEdits (α := α) o.names h.id ps).clips).bind _ = _
    cases HeldClip.recordAll? (lastEdits o.names h.id ps).clips with
    | error e => rfl
    | ok ds =>
      have hstate : (perform
          { (ofHost h o.names).perform (firstEdits o.names h.id o.hideBits ps) cs with
            registry := (firstRegistry h ps o).flagAll (stale h ps o) false }
          (lastEdits o.names h.id ps) ds) = pending h ps o (cs ++ ds) := by
        simp only [perform, pending, stored, renames_lastEdits, List.append_nil, List.foldl_append]
        rfl
      simp only [motion, Except.map]
      rw [← hdecoders, ← hstate]
      rfl

end Compile

end BlendGraph
