import BlendGraph.Json.Reader
import BlendGraph.Json.Writer

/-!
# Written strings

A string is read off its quotation as it is: each character is taken off as one piece, and the
pieces of control characters, which are written as code units, are never half of a pair.
-/

set_option autoImplicit false

namespace BlendGraph.Json

/-- The control characters with a short escape. -/
def shortEscapes : List Char := ['\x08', '\x0c', '\n', '\r', '\t']

/-- What a written character is read as. -/
def Piece.written (c : Char) : Piece :=
  if c.toNat < 0x20 ∧ c ∉ shortEscapes then .unit c.toNat else .char c

theorem codeUnit?_control : ∀ n < 0x20,
    codeUnit? '0' '0' (Nat.digitChar (n / 16)) (Nat.digitChar (n % 16)) = some n := by
  decide

theorem pieces_escape (c : Char) (rest : List Char) :
    pieces (escape c ++ rest) = (pieces rest).map fun r => (.written c :: r.1, r.2) := by
  unfold escape
  split
  case h_8 hquote hslash h1 h2 h3 h4 h5 =>
    have hshort : c ∉ shortEscapes := by
      simp only [shortEscapes, List.mem_cons, List.not_mem_nil, or_false, not_or]
      exact ⟨h1, h2, h3, h4, h5⟩
    split
    · next hcontrol =>
      rw [Piece.written, if_pos ⟨hcontrol, hshort⟩]
      simp only [List.cons_append, List.nil_append]
      rw [pieces, codeUnit?_control _ hcontrol]
      rfl
    · next hplain =>
      rw [Piece.written, if_neg fun h => hplain h.1, List.cons_append, List.nil_append, pieces,
        if_neg hplain]
      · exact hquote
      · exact fun _ _ _ _ _ heq _ => hslash heq
      · exact fun _ _ heq _ => hslash heq
  all_goals
    simp only [List.cons_append, List.nil_append]
    rw [pieces]
    · rfl
    · simp

theorem pieces_written (cs rest : List Char) :
    pieces (cs.flatMap escape ++ '"' :: rest) = some (cs.map .written, rest) := by
  induction cs with
  | nil => rw [List.flatMap_nil, List.nil_append, pieces]; rfl
  | cons c cs ih => rw [List.flatMap_cons, List.append_assoc, pieces_escape, ih]; rfl

/-- A code unit that opens no pair is one character. -/
theorem spell?_unit {n : Nat} {c : Char} (hhigh : isHighSurrogate n = false)
    (hscalar : Text.scalar? n = some c) (ps : List Piece) :
    spell? (.unit n :: ps) = (spell? ps).map (c :: ·) := by
  have hbind (cs : Option (List Char)) :
      (do return (← Text.scalar? n) :: (← cs) : Option (List Char)) = cs.map (c :: ·) := by
    rw [hscalar]
    cases cs <;> rfl
  cases ps with
  | nil => exact hbind (some [])
  | cons p ps =>
    cases p with
    | char d => exact hbind (spell? (.char d :: ps))
    | unit low =>
      rw [spell?, hhigh, Bool.false_and, if_neg Bool.false_ne_true]
      exact hbind (spell? (.unit low :: ps))

/-- A written code unit is that of a control character, and so no half of a pair. -/
theorem spell?_written (cs : List Char) : spell? (cs.map .written) = some cs := by
  have hcontrol : ∀ n < 0x20, isHighSurrogate n = false ∧ Text.scalar? n = some (Char.ofNat n) := by
    decide
  induction cs with
  | nil => rfl
  | cons c cs ih =>
    rw [List.map_cons, Piece.written]
    split
    · next hc =>
      obtain ⟨hhigh, hscalar⟩ := hcontrol c.toNat hc.1
      rw [Char.ofNat_toNat] at hscalar
      rw [spell?_unit hhigh hscalar, ih]
      rfl
    · rw [spell?, ih]
      rfl

/-- A string is read behind its opening quote up to the closing one. -/
theorem stringTail_written (s : String) (rest : List Char) :
    stringTail (s.toList.flatMap escape ++ '"' :: rest) = some (some s, rest) := by
  change (pieces _).bind _ = _
  rw [pieces_written]
  change some ((spell? _).map String.ofList, rest) = _
  rw [spell?_written, Option.map_some, String.ofList_toList]

theorem toList_quote (s : String) :
    (quote s).toList = '"' :: (s.toList.flatMap escape ++ ['"']) := by
  simp [quote]

end BlendGraph.Json
