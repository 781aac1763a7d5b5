import BlendGraph.Proofs.Compile.GeneratedClips
import BlendGraph.Proofs.Naming.ClipRecognition

/-!
# Whose clips they are

The name of a generated clip ends with the identifier of its host, and a host recognises its clips
by this end. It takes a clip of another host for its own only if the end that it looks for overlaps
with what the name has behind the parameter, so that one of them ends with the other.
-/

set_option autoImplicit false

namespace BlendGraph.ClipName

/-! ### Ends -/

/-- One of the texts ends with the other one. -/
def Overlap (s t : String) : Prop := s.toList <:+ t.toList ∨ t.toList <:+ s.toList

instance (s t : String) : Decidable (Overlap s t) :=
  inferInstanceAs (Decidable (_ ∨ _))

theorem overlap_of_suffix {s t name : String} (hs : s.toList <:+ name.toList)
    (ht : t.toList <:+ name.toList) : Overlap s t :=
  List.suffix_or_suffix_of_suffix hs ht

/-- The ends by which a host recognises a name. That of decoder clips counts only in a name that has
a state in it. -/
def endsFor (name host : String) : List String :=
  smootherEnd host :: if Text.contains name "+True+" || Text.contains name "+False+" then
    [decoderEnd host] else []

theorem isGenerated_iff {name host : String} : isGenerated name host = true ↔
    host ≠ "" ∧ ∃ e ∈ endsFor name host, e.toList <:+ name.toList := by
  rw [isGenerated, endsFor]
  cases Text.contains name "+True+" || Text.contains name "+False+" <;> simp

/-! ### Plain identifiers -/

/-- The characters in front of an identifier. -/
def isMark (c : Char) : Bool := c == '-' || c == '+'

def isPlain (id : String) : Bool := id.toList.all fun c => !isMark c

/-- The text ends with the identifier, behind a mark. -/
def Marked (id text : String) : Prop :=
  ∃ front c, isMark c = true ∧ text.toList = front ++ c :: (id ++ ".anim").toList

theorem Marked.append {id text : String} (h : Marked id text) (front : String) :
    Marked id (front ++ text) := by
  obtain ⟨rest, c, hc, htext⟩ := h
  exact ⟨front.toList ++ rest, c, hc, by rw [String.toList_append, htext, List.append_assoc]⟩

theorem marked_smootherEnd (id : String) : Marked id (smootherEnd id) :=
  ⟨"-Smoother".toList, '-', by decide, by simp [smootherEnd]⟩

theorem marked_decoderEnd (id : String) : Marked id (decoderEnd id) :=
  ⟨[], '+', by decide, by simp [decoderEnd]⟩

theorem marked_of_mem_endsFor {name host e : String} (h : e ∈ endsFor name host) :
    Marked host e := by
  rcases List.mem_cons.mp h with rfl | h
  · exact marked_smootherEnd host
  · split at h
    · rw [List.mem_singleton.mp h]
      exact marked_decoderEnd host
    · cases h

theorem eq_of_append_cons {p : Char → Bool} {xs ys as bs : List Char} {c d : Char}
    (hc : p c = true) (hd : p d = true) (has : ∀ e ∈ as, p e = false) (hbs : ∀ e ∈ bs, p e = false)
    (h : xs ++ c :: as = ys ++ d :: bs) : as = bs := by
  rcases List.append_eq_append_iff.mp h with ⟨zs, -, hzs⟩ | ⟨zs, -, hzs⟩
  · cases zs with
    | nil => exact (List.cons.inj hzs).2
    | cons z zs =>
      have hplain := has d (by simp [(List.cons.inj hzs).2])
      rw [hd] at hplain
      cases hplain
  · cases zs with
    | nil => exact (List.cons.inj hzs).2.symm
    | cons z zs =>
      have hplain := hbs c (by simp [(List.cons.inj hzs).2])
      rw [hc] at hplain
      cases hplain

/-- Plain identifiers begin behind the last mark. -/
theorem eq_of_suffix_of_isPlain {a b s t : String} (ha : isPlain a = true) (hb : isPlain b = true)
    (hs : Marked a s) (ht : Marked b t) (h : s.toList <:+ t.toList) : a = b := by
  have hplain {id : String} (hid : isPlain id = true) :
      ∀ e ∈ (id ++ ".anim").toList, isMark e = false := by
    have hextension : ∀ e ∈ ".anim".toList, isMark e = false := by simp [isMark]
    rw [String.toList_append, List.forall_mem_append]
    exact ⟨by simpa [isPlain] using hid, hextension⟩
  obtain ⟨front, c, hc, hs⟩ := hs
  obtain ⟨front', d, hd, ht⟩ := ht
  obtain ⟨rest, hrest⟩ := h
  rw [hs, ht, ← List.append_assoc] at hrest
  have heq := eq_of_append_cons hc hd (hplain ha) (hplain hb) hrest
  rw [String.toList_append, String.toList_append] at heq
  exact String.toList_injective (List.append_cancel_right heq)

theorem not_overlap_of_isPlain {a b s t : String} (ha : isPlain a = true) (hb : isPlain b = true)
    (hne : a ≠ b) (hs : Marked a s) (ht : Marked b t) : ¬ Overlap s t := by
  rintro (h | h)
  · exact hne (eq_of_suffix_of_isPlain ha hb hs ht h)
  · exact hne (eq_of_suffix_of_isPlain hb ha ht hs h).symm

variable {α : Type} [Scalar α]

/-! ### Recognised names -/

/-- What a generated clip is made for: a bound of a filter, or a state of a bit with its value. -/
inductive Origin (α : Type) where
  | filter (parameter : String) (bound : α)
  | bit (parameter : String) (set : Bool) (i : Nat) (value : α)

namespace Origin

/-- The name of the clip in a host. -/
def clipName (host : String) : Origin α → String
  | filter parameter bound => smoother parameter bound host
  | bit parameter set i value => decoder parameter set i value host

/-- What the name has behind the parameter. -/
def ending (host : String) : Origin α → String
  | filter _ bound => "-" ++ (if bound ≤ 0 ∧ ¬ 0 ≤ bound then "-" else "+")
      ++ Scalar.text (Scalar.abs bound) ++ smootherEnd host
  | bit _ set i value => (if set then "+True+" else "+False+") ++ toString i ++ "+"
      ++ Scalar.text value ++ decoderEnd host

theorem suffix_clipName (o : Origin α) (host : String) :
    (o.ending host).toList <:+ (o.clipName host).toList := by
  cases o with
  | filter parameter bound =>
    simp only [clipName, smoother, ending, String.toList_append, List.append_assoc]
    exact List.suffix_append _ _
  | bit parameter set i value =>
    simp only [clipName, decoder, ending, String.toList_append, List.append_assoc]
    exact List.suffix_append _ _

theorem marked_ending (o : Origin α) (host : String) : Marked host (o.ending host) := by
  cases o with
  | filter parameter bound => exact (marked_smootherEnd host).append _
  | bit parameter set i value => exact (marked_decoderEnd host).append _

theorem isGenerated_clipName (o : Origin α) {host : String} (h : host ≠ "") :
    isGenerated (o.clipName host) host = true := by
  cases o with
  | filter parameter bound => exact isGenerated_smoother h parameter bound
  | bit parameter set i value => exact isGenerated_decoder h parameter set i value

end Origin

/-- A host recognises the clips that are made for it, and none of another host, as long as the ends
that it looks for do not overlap with what the name has behind the parameter. A host without an
identifier recognises none. -/
theorem isGenerated_clipName_iff {o : Origin α} {id₁ id₂ : String} (apart : id₁ = id₂ ∨ id₂ = "" ∨
      ∀ e ∈ endsFor (o.clipName id₁) id₂, ¬ Overlap (o.ending id₁) e) :
    isGenerated (o.clipName id₁) id₂ = true ↔ id₁ = id₂ ∧ id₂ ≠ "" := by
  constructor
  · intro h
    obtain ⟨hid, e, he, hend⟩ := isGenerated_iff.mp h
    have hoverlap := overlap_of_suffix (o.suffix_clipName id₁) hend
    rcases apart with heq | hempty | apart
    · exact ⟨heq, hid⟩
    · exact absurd hempty hid
    · exact absurd hoverlap (apart e he)
  · rintro ⟨rfl, hid⟩
    exact o.isGenerated_clipName hid

theorem isGenerated_clipName_iff_sample : ∃ o : Origin Float32,
    o.clipName "demo" = decoder "Jaw" true 0 (1 : Float32) "demo" ∧
    (∀ e ∈ endsFor (o.clipName "demo") "other", ¬ Overlap (o.ending "demo") e) ∧
    isGenerated (o.clipName "demo") "other" = false := by
  have apart : ∀ e ∈ endsFor ((Origin.bit "Jaw" true 0 (1 : Float32)).clipName "demo") "other",
      ¬ Overlap ((Origin.bit "Jaw" true 0 (1 : Float32)).ending "demo") e := fun e he =>
    not_overlap_of_isPlain (by decide) (by decide) (by decide) (Origin.marked_ending _ _)
      (marked_of_mem_endsFor he)
  refine ⟨.bit "Jaw" true 0 1, rfl, apart, Bool.eq_false_iff.mpr fun h => ?_⟩
  obtain ⟨heq, -⟩ := (isGenerated_clipName_iff (.inr (.inr apart))).mp h
  exact absurd heq (by decide)

/-- A host without an identifier does not recognise its own clips. Otherwise a host takes clips of
another one for its own if the ends overlap. -/
theorem clips_mistaken :
    isGenerated (smoother "Jaw" (1 : Float32) "") "" = false ∧
    isGenerated (smoother "Jaw" (1 : Float32) "x-Smoother-b") "b" = true ∧
    isGenerated (decoder "Jaw" true 0 (1 : Float32) "a+b") "b" = true ∧
    isGenerated (smoother "A+True+B" (1 : Float32) "b") "1-Smoother-b" = true := by
  decide +kernel

end BlendGraph.ClipName
