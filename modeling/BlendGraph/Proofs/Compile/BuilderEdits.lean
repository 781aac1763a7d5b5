import BlendGraph.Proofs.Registry.Requests
import BlendGraph.Synthesis

/-!
# The edits of a builder

A builder of the generated layer reads nothing but the namespace and the identifier of the host.
What it does to the pending edits is therefore a fixed list of requests, clips and renames, and the
edits of builders that run one after another are put together in order. The only thing that can fail
is a clip whose value is no curve.
-/

set_option autoImplicit false

namespace BlendGraph

variable {α β γ : Type}

/-- A clip that holds a value, before it is known to be a curve. -/
structure HeldClip (α : Type) where
  name : String
  target : String
  value : α

/-- Edits of a host graph, in order. -/
structure Edits (α : Type) where
  requests : List (Request α)
  clips : List (HeldClip α)
  renames : List (String × String)

namespace Edits

def none : Edits α := ⟨[], [], []⟩

instance : Append (Edits α) :=
  ⟨fun e f => ⟨e.requests ++ f.requests, e.clips ++ f.clips, e.renames ++ f.renames⟩⟩

theorem append_eq (e f : Edits α) : e ++ f
    = ⟨e.requests ++ f.requests, e.clips ++ f.clips, e.renames ++ f.renames⟩ := rfl

theorem append_assoc (e f g : Edits α) : e ++ f ++ g = e ++ (f ++ g) := by
  simp [append_eq]

@[simp] theorem append_none (e : Edits α) : e ++ none = e := by
  simp [append_eq, none]

@[simp] theorem none_append (e : Edits α) : none ++ e = e := rfl

/-- The edits for each element of a list, one after another. -/
def each (f : β → Edits α) (xs : List β) : Edits α :=
  ⟨xs.flatMap fun x => (f x).requests, xs.flatMap fun x => (f x).clips,
    xs.flatMap fun x => (f x).renames⟩

@[simp] theorem each_nil (f : β → Edits α) : each f [] = none := rfl

theorem each_request (f : β → Request α) (xs : List β) :
    each (fun x => ⟨[f x], [], []⟩) xs = ⟨xs.map f, [], []⟩ := by
  induction xs with
  | nil => rfl
  | cons x xs ih => simp [each, ← List.map_eq_flatMap]

theorem each_cons (f : β → Edits α) (x : β) (xs : List β) :
    each f (x :: xs) = f x ++ each f xs := by
  simp [each, append_eq]

end Edits

variable [Scalar α]

namespace HeldClip

def record? (c : HeldClip α) : Except (CompileError α) (Clip α) :=
  match Curve.constant? c.value with
  | .ok curve => .ok ⟨c.name, c.target, curve⟩
  | .error e => .error (.curve c.name e)

def recordAll? (cs : List (HeldClip α)) : Except (CompileError α) (List (Clip α)) :=
  cs.mapM record?

@[simp] theorem recordAll?_nil : recordAll? ([] : List (HeldClip α)) = .ok [] := rfl

theorem recordAll?_cons (c : HeldClip α) (cs : List (HeldClip α)) :
    recordAll? (c :: cs)
      = (record? c).bind fun d => (recordAll? cs).map fun ds => d :: ds := by
  rw [recordAll?, List.mapM_cons]
  cases record? c with
  | error e => rfl
  | ok d =>
    change (do let ds ← recordAll? cs; pure (d :: ds)) = _
    cases recordAll? cs <;> rfl

theorem recordAll?_append (cs ds : List (HeldClip α)) :
    recordAll? (cs ++ ds)
      = (recordAll? cs).bind fun as => (recordAll? ds).map fun bs => as ++ bs := by
  induction cs with
  | nil => cases h : recordAll? ds <;> simp [Except.bind, Except.map, h]
  | cons c cs ih =>
    rw [List.cons_append, recordAll?_cons, recordAll?_cons, ih]
    cases record? c with
    | error e => rfl
    | ok d =>
      cases recordAll? cs with
      | error e => rfl
      | ok as => cases recordAll? ds <;> rfl

/-- What is recorded is a clip of the same name and target that holds the value at time zero. -/
def Records (c : HeldClip α) (d : Clip α) : Prop :=
  d.name = c.name ∧ d.target = c.target ∧ d.curve.keys = [⟨0, c.value⟩]

theorem records_of_record? {c : HeldClip α} {d : Clip α} (h : record? c = .ok d) :
    c.Records d := by
  unfold record? at h
  split at h
  · next curve hc =>
    cases h
    exact ⟨rfl, rfl, Curve.keys_of_ofKeys? hc⟩
  · cases h

theorem forall₂_records {cs : List (HeldClip α)} {ds : List (Clip α)}
    (h : recordAll? cs = .ok ds) : List.Forall₂ Records cs ds := by
  induction cs generalizing ds with
  | nil => cases h; exact .nil
  | cons c cs ih =>
    rw [recordAll?_cons] at h
    cases hc : record? c with
    | error e => simp [hc, Except.bind] at h
    | ok d =>
      cases hcs : recordAll? cs with
      | error e => simp [hc, hcs, Except.bind, Except.map] at h
      | ok rest =>
        simp only [hc, hcs, Except.bind, Except.map, Except.ok.injEq] at h
        subst h
        exact .cons (records_of_record? hc) (ih hcs)

end HeldClip

namespace Synthesis

/-- The clips of a table after others are stored one after another. -/
def stored (t : Table (Clip α)) (cs : List (Clip α)) : Table (Clip α) :=
  cs.foldl (fun t c => t.insert c.name c) t

/-- The last clip of a name is the one that stays. -/
theorem get?_stored (t : Table (Clip α)) (cs : List (Clip α)) (k : String) :
    (stored t cs).get? k = (cs.reverse.find? (·.name = k)).or (t.get? k) := by
  induction cs generalizing t with
  | nil => rfl
  | cons c cs ih =>
    change (stored (t.insert c.name c) cs).get? k = _
    rw [ih, List.reverse_cons, List.find?_append, Option.or_assoc, Table.get?_insert]
    by_cases hk : k = c.name
    · simp [hk]
    · simp [hk, Ne.symm hk]

theorem name_of_get?_stored {cs : List (Clip α)} {k : String} {c : Clip α}
    (hc : (stored .empty cs).get? k = some c) : c.name = k := by
  rw [get?_stored, Table.get?_empty, Option.or_none] at hc
  simpa using List.find?_some hc

/-- In a table whose clips are found under their names, the last clip of a name is the one found. -/
theorem find?_values {t : Table (Clip α)} (h : ∀ k c, t.get? k = some c → c.name = k)
    (k : String) : t.values.reverse.find? (·.name = k) = t.get? k := by
  have hfound : ∀ c ∈ t.values, c.name = k → t.get? k = some c := by
    intro c hc hname
    obtain ⟨l, hl⟩ := Table.mem_values.mp hc
    rw [← hname, h l c hl, hl]
  cases hk : t.get? k with
  | none =>
    rw [List.find?_eq_none]
    intro c hc hname
    have hsome := hfound c (List.mem_reverse.mp hc) (of_decide_eq_true hname)
    rw [hk] at hsome
    cases hsome
  | some c =>
    have hc : c ∈ t.values.reverse := List.mem_reverse.mpr (Table.mem_values.mpr ⟨k, hk⟩)
    cases hd : t.values.reverse.find? (·.name = k) with
    | none => exact absurd (decide_eq_true (h k c hk)) (List.find?_eq_none.mp hd c hc)
    | some d =>
      have hname : d.name = k := by simpa using List.find?_some hd
      rw [← hk, hfound d (List.mem_reverse.mp (List.mem_of_find?_eq_some hd)) hname]

/-- Clips may be collected in a table before they are stored. -/
theorem stored_values (t : Table (Clip α)) (cs : List (Clip α)) :
    stored t (stored .empty cs).values = stored t cs := by
  apply Table.ext_get?
  intro k
  rw [get?_stored, find?_values fun _ _ => name_of_get?_stored, get?_stored, get?_stored,
    Table.get?_empty, Option.or_none]

theorem stored_stored (t : Table (Clip α)) (cs : List (Clip α)) :
    stored (stored t cs) cs = stored t cs := by
  apply Table.ext_get?
  intro k
  rw [get?_stored, get?_stored, ← Option.or_assoc, Option.or_self]

/-- The pending edits after further ones, whose clips have been recorded. -/
def perform (s : Synthesis α) (e : Edits α) (cs : List (Clip α)) : Synthesis α :=
  { s with
    registry := s.registry.enterAll e.requests
    clips := stored s.clips cs
    renames := s.renames ++ e.renames }

theorem perform_none (s : Synthesis α) : s.perform .none [] = s := by
  cases s
  simp [perform, stored, Edits.none]

theorem perform_perform (s : Synthesis α) (e f : Edits α) (cs ds : List (Clip α)) :
    (s.perform e cs).perform f ds = s.perform (e ++ f) (cs ++ ds) := by
  cases s
  simp only [perform, stored, List.foldl_append, List.append_assoc]
  congr 1
  exact (Registry.enterAll_append _ e.requests f.requests).symm

/-- Under these names, the builder makes the edits and gives the value. -/
def Performs (ns : Namespace) (host : String) (x : SynthesisM α β) (e : Edits α) (b : β) : Prop :=
  ∀ s : Synthesis α, s.names = ns → s.host = host →
    x.run s = (HeldClip.recordAll? e.clips).map fun cs => (b, s.perform e cs)

namespace Performs

variable {ns : Namespace} {host : String}

theorem pure (b : β) : Performs (α := α) ns host (Pure.pure b) .none b := by
  intro s _ _
  change Except.ok (b, s) = Except.ok (b, s.perform .none [])
  rw [perform_none]

/-- Reading the pending edits shows the namespace and the host, whatever else there is. -/
theorem get {f : Synthesis α → SynthesisM α β} {e : Edits α} {b : β}
    (h : ∀ s, s.names = ns → s.host = host → Performs ns host (f s) e b) :
    Performs ns host (MonadState.get >>= f) e b :=
  fun s hs hh => h s hs hh s hs hh

theorem run_bind {x : SynthesisM α β} {f : β → SynthesisM α γ} {e : Edits α} {b : β}
    (hx : Performs ns host x e b) {s : Synthesis α} (hs : s.names = ns) (hh : s.host = host) :
    (x >>= f).run s
      = (HeldClip.recordAll? e.clips).bind fun cs => (f b).run (s.perform e cs) := by
  rw [StateT.run_bind, hx s hs hh]
  cases HeldClip.recordAll? e.clips <;> rfl

theorem bind {x : SynthesisM α β} {f : β → SynthesisM α γ} {e₁ e₂ e : Edits α} {b : β} {c : γ}
    (hx : Performs ns host x e₁ b) (hf : Performs ns host (f b) e₂ c) (he : e₁ ++ e₂ = e) :
    Performs ns host (x >>= f) e c := by
  subst he
  intro s hs hh
  have hclips : (e₁ ++ e₂).clips = e₁.clips ++ e₂.clips := rfl
  rw [hx.run_bind hs hh, hclips, HeldClip.recordAll?_append]
  cases HeldClip.recordAll? e₁.clips with
  | error e => rfl
  | ok cs =>
    refine (hf (s.perform e₁ cs) hs hh).trans ?_
    cases HeldClip.recordAll? e₂.clips with
    | error e => rfl
    | ok ds =>
      change Except.ok (c, (s.perform e₁ cs).perform e₂ ds) = Except.ok (c, _)
      rw [perform_perform]

theorem map {x : SynthesisM α β} {e : Edits α} {b : β} (f : β → γ)
    (hx : Performs ns host x e b) : Performs ns host (f <$> x) e (f b) := by
  intro s hs hh
  rw [StateT.run_map, hx s hs hh]
  cases HeldClip.recordAll? e.clips <;> rfl

theorem mapM {f : β → SynthesisM α γ} {e : β → Edits α} {g : β → γ} {xs : List β}
    (h : ∀ x ∈ xs, Performs ns host (f x) (e x) (g x)) :
    Performs ns host (xs.mapM f) (Edits.each e xs) (xs.map g) := by
  induction xs with
  | nil => exact pure []
  | cons x xs ih =>
    have hx := h x (List.mem_cons_self ..)
    have hxs := ih fun y hy => h y (List.mem_cons_of_mem _ hy)
    rw [List.mapM_cons, Edits.each_cons, List.map_cons]
    exact .bind hx (.bind hxs (pure _) (Edits.append_none _)) rfl

theorem channel (n : String) (kind : ChannelKind) {o : ChannelOptions α} (h : o.reuse = true) :
    Performs ns host (channel n kind o)
      ⟨[⟨Registry.finalName n o, kind, o.default, o.synced, false⟩], [], []⟩
      (Registry.finalName n o) := by
  intro s _ _
  simp only [Synthesis.channel, StateT.run_bind, StateT.run_get, pure_bind,
    Registry.request_eq s.registry n kind h, HeldClip.recordAll?_nil, Except.map, perform,
    List.append_nil]
  rfl

theorem forcedChannel (n : String) (kind : ChannelKind) {o : ChannelOptions α}
    (h : o.reuse = true) :
    Performs ns host (forcedChannel n kind o)
      ⟨[⟨Registry.finalName n o, kind, o.default, o.synced, true⟩], [], []⟩
      (Registry.finalName n o) := by
  intro s hs hh
  rw [Synthesis.forcedChannel, StateT.run_bind, channel n kind h s hs hh]
  simp [Except.map, perform, Registry.enter, setSynced]
  rfl

theorem clip (n target : String) (v : α) :
    Performs ns host (clip n target v) ⟨[], [⟨n, target, v⟩], []⟩ (.leaf n) := by
  intro s _ _
  rw [HeldClip.recordAll?_cons, HeldClip.record?]
  simp only [Synthesis.clip]
  cases h : Curve.constant? v with
  | error e => rfl
  | ok curve =>
    simp [Except.bind, Except.map, perform]
    rfl

theorem rename (old new : String) :
    Performs (α := α) ns host (rename old new) ⟨[], [], [(old, new)]⟩ () := by
  intro s _ _
  rfl

end Performs

theorem run_forM_setSynced (ns : List String) (v : Bool) (f : Unit → SynthesisM α β)
    (s : Synthesis α) : ((ns.forM fun n => setSynced n v) >>= f).run s
      = (f ()).run { s with registry := s.registry.flagAll ns v } := by
  induction ns generalizing s with
  | nil => rfl
  | cons n ns ih => exact ih _

end Synthesis

end BlendGraph
