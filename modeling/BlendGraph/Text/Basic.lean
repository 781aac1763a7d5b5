/-!
# Texts

Beginning, end and occurrence of one text in another are decided on the characters, where the list
relations say what is decided. White space is what has the Unicode property White_Space. A column is
a text that is filled with blanks up to a width counted in characters; a longer one is left alone.
The parts of a path are separated by slashes, and empty parts and single dots lead nowhere.
-/

set_option autoImplicit false

namespace BlendGraph.Text

/-! ### Search -/

/-- Whether the characters of `part` stand side by side somewhere in the list. -/
def occursIn (part : List Char) : List Char → Bool
  | [] => part.isEmpty
  | c :: cs => part.isPrefixOf (c :: cs) || occursIn part cs

theorem occursIn_iff {part cs : List Char} : occursIn part cs = true ↔ part <:+: cs := by
  induction cs with
  | nil => simp [occursIn]
  | cons c cs ih => simp [occursIn, ih, List.infix_cons_iff]

/-- What follows `start` in a list that starts with it. -/
def after? : List Char → List Char → Option (List Char)
  | [], cs => some cs
  | _ :: _, [] => none
  | s :: start, c :: cs => if s = c then after? start cs else none

theorem after?_eq_some_iff {start cs rest : List Char} :
    after? start cs = some rest ↔ cs = start ++ rest := by
  induction start generalizing cs with
  | nil => simp [after?]
  | cons s start ih =>
    cases cs with
    | nil => simp [after?]
    | cons c cs =>
      by_cases h : s = c
      · simp [after?, h, ih]
      · simp [after?, h, Ne.symm h]

def contains (text part : String) : Bool :=
  occursIn part.toList text.toList

@[simp] theorem contains_iff {text part : String} :
    contains text part = true ↔ part.toList <:+: text.toList :=
  occursIn_iff

def strip? (start text : String) : Option String :=
  (after? start.toList text.toList).map String.ofList

theorem strip?_eq_some_iff {start text rest : String} :
    strip? start text = some rest ↔ text = start ++ rest := by
  simp only [strip?, Option.map_eq_some_iff, after?_eq_some_iff]
  constructor
  · rintro ⟨cs, h, rfl⟩
    apply String.toList_injective
    simpa using h
  · rintro rfl
    exact ⟨rest.toList, by simp, by simp⟩

def startsWith (text start : String) : Bool :=
  start.toList.isPrefixOf text.toList

@[simp] theorem startsWith_iff {text start : String} :
    startsWith text start = true ↔ start.toList <+: text.toList := by
  simp [startsWith]

def endsWith (text tail : String) : Bool :=
  tail.toList.isSuffixOf text.toList

@[simp] theorem endsWith_iff {text tail : String} :
    endsWith text tail = true ↔ tail.toList <:+ text.toList := by
  simp [endsWith]

/-! ### White space -/

/-- The first and the last code point of each run of white space. -/
def whiteSpace : List (Nat × Nat) :=
  [(0x0009, 0x000D), (0x0020, 0x0020), (0x0085, 0x0085), (0x00A0, 0x00A0), (0x1680, 0x1680),
    (0x2000, 0x200A), (0x2028, 0x2029), (0x202F, 0x202F), (0x205F, 0x205F), (0x3000, 0x3000)]

def isWhiteSpace (c : Char) : Bool :=
  whiteSpace.any fun r => r.1 ≤ c.toNat && c.toNat ≤ r.2

def isBlank (text : String) : Bool :=
  text.toList.all isWhiteSpace

/-! ### Columns -/

def blanks (n : Nat) : String :=
  String.ofList (List.replicate n ' ')

def alignLeft (width : Nat) (text : String) : String :=
  text ++ blanks (width - text.length)

def alignRight (width : Nat) (text : String) : String :=
  blanks (width - text.length) ++ text

/-! ### Paths -/

def splitSlashes : List Char → List (List Char)
  | [] => [[]]
  | c :: cs =>
    if c = '/' then [] :: splitSlashes cs
    else match splitSlashes cs with
      | [] => [[c]]
      | part :: parts => (c :: part) :: parts

def maxPathSize : Nat := 4095

def maxPartSize : Nat := 255

def pathParts (path : String) : List String := (splitSlashes path.toList).map String.ofList

/-- Whether a part leads to the directory in which it stands. -/
def isIdle (part : String) : Bool := part == "" || part == "."

/-- Drops parts that lead nowhere from the end, but not the first part. -/
def dropIdle : List String → List String
  | [] => []
  | part :: parts => part :: (parts.reverse.dropWhile isIdle).reverse

/-- The path of the directory that the last part stands in: empty for a path of one part. -/
def parentPath (path : String) : String :=
  match dropIdle (dropIdle (pathParts path)).dropLast with
  | [""] => "/"
  | parts => "/".intercalate parts

end BlendGraph.Text
