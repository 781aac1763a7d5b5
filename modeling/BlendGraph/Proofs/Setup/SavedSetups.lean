import BlendGraph.Proofs.Number.FloatTexts
import BlendGraph.Proofs.Toml.StatementTexts
import BlendGraph.Proofs.Toml.TablesFromStatements
import BlendGraph.Setup.Document

/-!
# Setups saved and opened again

What is left out of a saved setup is what its reader takes for left out: a description or a capacity
that is not there. All other fields are written, those of the parameters too, so that no default
comes into play. Parameters stand behind everything else, each one under a header of its own.
-/

set_option autoImplicit false

namespace BlendGraph

open Toml

namespace Toml

/-! ### Fields written and read -/

/-- One field is read for the other, at the same key. -/
def FieldRereads (f g : String × Toml) : Prop := f.1 = g.1 ∧ Bare f.1 ∧ f.2.Rereads g.2

theorem fieldRereads {name : String} (hname : Bare name) {v w : Toml} (h : v.Rereads w) :
    FieldRereads (name, v) (name, w) :=
  ⟨rfl, hname, h⟩

theorem rereads_pairs {before after : List (String × Toml)}
    (h : List.Forall₂ FieldRereads before after) :
    List.Forall₂ Statement.Rereads (pairs before) (pairs after) := by
  rw [pairs, pairs, List.forall₂_map_left_iff, List.forall₂_map_right_iff]
  refine h.imp fun f g hread => ?_
  obtain ⟨hname, hbare, hvalue⟩ := hread
  rw [← hname]
  exact .pair hbare hvalue

theorem rereads_items {key : String} (hkey : Bare key) {before after : List (List (String × Toml))}
    (h : List.Forall₂ (List.Forall₂ FieldRereads) before after) :
    List.Forall₂ Statement.Rereads (items key before) (items key after) :=
  List.rel_flatMap h fun _ _ hfields => .cons (.item hkey) (rereads_pairs hfields)

/-- A number as it is written. -/
def written (x : Float32) : Toml := .float (.ofSingle x)

/-- A number as it is read again. -/
def restored (x : Float32) : Toml := .float (TomlFloat.ofSingle x).reread

end Toml

/-! ### The fields of setups -/

/-- The fields of a parameter, with `write` for its numbers. -/
def Parameter.fields (write : Float32 → Toml) (p : Parameter Float32) : List (String × Toml) :=
  fieldNames.zip [.string p.name, write p.ownerSmoothness, write p.remoteSmoothness,
    .integer p.bits, .boolean p.signBit, .boolean p.redirect]

/-- The fields that a setup has beside its parameters. -/
def Setup.fields (s : Setup Float32) : List (String × Toml) :=
  [("name", .string s.name)] ++ s.description.toList.map (fun d => ("description", .string d))
    ++ [("namespace", .string s.root), ("obfuscate_bits", .boolean s.hideBits)]
    ++ s.capacity.toList.map (fun c => ("capacity", .integer c))

/-- The statements of a setup, with `write` for the numbers of its parameters. -/
def Setup.statementsWith (write : Float32 → Toml) (s : Setup Float32) : List Statement :=
  pairs s.fields ++ if s.parameters.isEmpty then pairs [("parameters", .array [])]
    else items "parameters" (s.parameters.map (Parameter.fields write))

theorem Setup.statements_eq (s : Setup Float32) : s.statements = s.statementsWith written := by
  simp [statements, statementsWith, fields, pairs, items, Parameter.statements, Parameter.fields,
    written, List.flatMap_map, Function.comp_def]

/-- Both smoothness values of the parameter are numbers. -/
def Parameter.Comparable (p : Parameter Float32) : Prop :=
  p.ownerSmoothness.isNaN = false ∧ p.remoteSmoothness.isNaN = false

instance (p : Parameter Float32) : Decidable p.Comparable :=
  inferInstanceAs (Decidable (_ ∧ _))

/-- The widths and the capacity are in the ranges of their types, which are words of eight and of 32
bits. -/
structure Setup.Fits (s : Setup Float32) : Prop where
  bits : ∀ p ∈ s.parameters, p.bits ≤ Parameter.bitsBound
  capacity : ∀ c ∈ s.capacity, c ≤ Setup.capacityBound

/-! ### Written and read again -/

theorem Parameter.rereads_fields {p : Parameter Float32}
    (hnumbers : p.Comparable) (hbits : p.bits ≤ bitsBound) :
    List.Forall₂ FieldRereads (p.fields written) (p.fields restored) := by
  have hword : p.bits < wordBound := hbits.trans_lt (by decide)
  refine .cons (fieldRereads (by decide) (rereads_string _)) ?_
  refine .cons (fieldRereads (by decide) (TomlFloat.restores_ofSingle hnumbers.1).2) ?_
  refine .cons (fieldRereads (by decide) (TomlFloat.restores_ofSingle hnumbers.2).2) ?_
  refine .cons (fieldRereads (by decide) (rereads_natural hword)) ?_
  refine .cons (fieldRereads (by decide) (rereads_boolean _)) ?_
  exact .cons (fieldRereads (by decide) (rereads_boolean _)) .nil

namespace Setup

variable {s : Setup Float32}

theorem rereads_fields (hfits : s.Fits) : ∀ f ∈ s.fields, FieldRereads f f := by
  simp only [fields, List.forall_mem_append, List.forall_mem_cons, List.forall_mem_map,
    Option.mem_toList]
  refine ⟨⟨⟨⟨?_, List.forall_mem_nil _⟩, fun d _ => ?_⟩, ?_, ?_, List.forall_mem_nil _⟩,
    fun c hc => ?_⟩
  · exact fieldRereads (by decide) (rereads_string _)
  · exact fieldRereads (by decide) (rereads_string d)
  · exact fieldRereads (by decide) (rereads_string _)
  · exact fieldRereads (by decide) (rereads_boolean _)
  · exact fieldRereads (by decide) (rereads_natural ((hfits.capacity c hc).trans_lt (by decide)))

theorem rereads_statements (hnumbers : ∀ p ∈ s.parameters, p.Comparable) (hfits : s.Fits) :
    List.Forall₂ Statement.Rereads (s.statementsWith written) (s.statementsWith restored) := by
  have hparameters : List.Forall₂ (List.Forall₂ FieldRereads)
      (s.parameters.map (Parameter.fields written))
      (s.parameters.map (Parameter.fields restored)) := by
    rw [List.forall₂_map_left_iff, List.forall₂_map_right_iff, List.forall₂_same]
    exact fun p hp => Parameter.rereads_fields (hnumbers p hp) (hfits.bits p hp)
  refine List.rel_append (rereads_pairs (List.forall₂_same.mpr (rereads_fields hfits))) ?_
  split
  · exact .cons (.pair (by decide) rereads_empty) .nil
  · exact rereads_items (by decide) hparameters

theorem keys_fields (s : Setup Float32) :
    (s.fields.map (·.1)).Sublist
      ["name", "description", "namespace", "obfuscate_bits", "capacity"] := by
  rw [fields]
  cases s.description <;> cases s.capacity <;> simp

theorem nodup_fields (s : Setup Float32) : (s.fields.map (·.1)).Nodup :=
  (keys_fields s).nodup (by decide)

theorem parameters_not_mem (s : Setup Float32) : "parameters" ∉ s.fields.map (·.1) :=
  fun h => absurd ((keys_fields s).subset h) (by decide)

/-- The document of a setup, with `write` for the numbers of its parameters. -/
def toToml (write : Float32 → Toml) (s : Setup Float32) : Toml :=
  .table (s.fields ++ [("parameters", .array (s.parameters.map fun p => .table (p.fields write)))])

theorem ofStatements?_statementsWith (write : Float32 → Toml) (s : Setup Float32) :
    ofStatements? (s.statementsWith write) = some (s.toToml write) := by
  have hparameter (p : Parameter Float32) : ((p.fields write).map (·.1)).Nodup :=
    (by decide : Parameter.fieldNames.Nodup)
  rw [statementsWith, toToml]
  cases s.parameters with
  | nil =>
    have hall : ((s.fields ++ [("parameters", Toml.array [])]).map (·.1)).Nodup := by
      rw [List.map_append]
      exact (nodup_fields s).append (List.nodup_singleton _)
        (List.disjoint_singleton.mpr (parameters_not_mem s))
    refine Eq.trans ?_ (ofStatements?_pairs hall)
    rw [pairs, pairs, pairs, List.map_append]
    rfl
  | cons p ps =>
    have htables : ∀ fields ∈ ps.map (Parameter.fields write), (fields.map (·.1)).Nodup :=
      List.forall_mem_map.mpr fun q _ => hparameter q
    refine (ofStatements?_items (nodup_fields s) (parameters_not_mem s) (hparameter p)
      htables).trans ?_
    rw [List.map_cons, List.map_map]
    rfl

end Setup

theorem Parameter.ofToml?_fields {p : Parameter Float32}
    (hnumbers : p.Comparable) (hbits : p.bits ≤ bitsBound) :
    ofToml? (.table (p.fields restored)) = some p := by
  have hrecord : (Toml.table (p.fields restored)).record? fieldNames
      = some [some (.string p.name), some (restored p.ownerSmoothness),
        some (restored p.remoteSmoothness), some (.integer p.bits), some (.boolean p.signBit),
        some (.boolean p.redirect)] := rfl
  have howner : (restored p.ownerSmoothness).single? = some p.ownerSmoothness :=
    congrArg some (TomlFloat.restores_ofSingle hnumbers.1).1
  have hremote : (restored p.remoteSmoothness).single? = some p.remoteSmoothness :=
    congrArg some (TomlFloat.restores_ofSingle hnumbers.2).1
  rw [ofToml?, hrecord]
  simp [withDefault, string?, boolean?, nat?, howner, hremote, hbits]

theorem Parameter.same_self {p : Parameter Float32} (hnumbers : p.Comparable) :
    p.same p = true := by
  simp [same, Number.same_self hnumbers.1, Number.same_self hnumbers.2]

namespace Setup

variable {s : Setup Float32}

theorem parameters?_map {ps : List (Parameter Float32)}
    (h : ∀ p ∈ ps, Parameter.ofToml? (.table (p.fields restored)) = some p) :
    parameters? (.array (ps.map fun p => .table (p.fields restored))) = some ps := by
  change (ps.map fun p => Toml.table (p.fields restored)).mapM Parameter.ofToml? = some ps
  induction ps with
  | nil => rfl
  | cons p ps ih =>
    obtain ⟨hp, hps⟩ := List.forall_mem_cons.mp h
    rw [List.map_cons, List.mapM_cons, hp, ih hps]
    rfl

theorem ofToml?_toToml (hnumbers : ∀ p ∈ s.parameters, p.Comparable) (hfits : s.Fits) :
    ofToml? (s.toToml restored) = some s := by
  have hparameters := parameters?_map fun p hp =>
    Parameter.ofToml?_fields (hnumbers p hp) (hfits.bits p hp)
  have hcapacity : Toml.optional (nat? capacityBound)
      (s.capacity.map fun (c : Nat) => Toml.integer c) = some s.capacity := by
    cases hc : s.capacity with
    | none => rfl
    | some c =>
      have hbound := hfits.capacity c hc
      simp [Toml.optional, nat?, hbound]
  have hdescription : Toml.optional string? (s.description.map .string) = some s.description := by
    cases s.description <;> rfl
  have hrecord : (s.toToml restored).record? fieldNames = some [some (.string s.name),
      s.description.map .string, some (.string s.root), some (.boolean s.hideBits),
      s.capacity.map fun (c : Nat) => Toml.integer c,
      some (.array (s.parameters.map fun p => .table (p.fields restored)))] := by
    rw [toToml, fields]
    cases s.description <;> cases s.capacity <;> rfl
  rw [ofToml?, hrecord]
  simp [withDefault, string?, boolean?, hdescription, hcapacity, hparameters]

theorem same_self (hnumbers : ∀ p ∈ s.parameters, p.Comparable) : s.same s = true := by
  have hall {ps : List (Parameter Float32)} (h : ∀ p ∈ ps, p.same p = true) :
      ((ps.zip ps).all fun pq => pq.1.same pq.2) = true := by
    induction ps with
    | nil => rfl
    | cons p ps ih =>
      obtain ⟨hp, hps⟩ := List.forall_mem_cons.mp h
      rw [List.zip_cons_cons, List.all_cons, hp, ih hps]
      rfl
  have hparameters := hall fun p hp => Parameter.same_self (hnumbers p hp)
  simp [same, hparameters]

/-- A setup is opened again as it was saved, with the same options and parameters. -/
theorem parse?_text (hnumbers : ∀ p ∈ s.parameters, p.Comparable) (hfits : s.Fits) :
    parse? s.text = some s ∧ s.same s = true := by
  have hread := statements?_documentText (rereads_statements hnumbers hfits)
  rw [parse?, Toml.parse?, text, statements_eq, hread, Option.bind_some,
    ofStatements?_statementsWith, Option.bind_some]
  exact ⟨ofToml?_toToml hnumbers hfits, same_self hnumbers⟩

/-- A setup with a string for each form of quotes, and with numbers that no default equals. -/
def sample : Setup Float32 where
  name := "Blink \"left\"\nand 'right'"
  description := some "\x07 '''\t\"\"\"\\"
  root := "Aunt's"
  hideBits := true
  capacity := some 4294967295
  parameters := [
    ⟨"Eye/Lid \"L\"", Scalar.ratio 1 3, Float32.ofBits 0xC0200000, 255, true, false⟩,
    ⟨"", Float32.ofBits 0x7F800000, 0, 0, false, true⟩]

theorem parse?_text_sample :
    (∀ p ∈ sample.parameters, p.Comparable) ∧ sample.Fits ∧
      parse? sample.text = some sample ∧ sample.same sample = true := by
  have hnumbers : ∀ p ∈ sample.parameters, p.Comparable := by decide +kernel
  have hfits : sample.Fits := ⟨by decide, by decide⟩
  exact ⟨hnumbers, hfits, parse?_text hnumbers hfits⟩

end Setup

end BlendGraph
