/-!
# Looking into texts

Only the capital letters of ASCII have small ones here; every other byte and character is its own.
`isBlank` is the property White_Space of the character database. Settings are trimmed and lists of
names are split at such characters. Paths are texts whose components stand between slashes. Empty
components and single dots say nothing.
-/

namespace EdgeProbe.Text

/-! ## Small letters -/

def lowerByte (byte : UInt8) : UInt8 :=
  if 0x41 ≤ byte && byte ≤ 0x5a then byte + 0x20 else byte

/-- The byte, made small when case is ignored. -/
def foldCase (ignoreCase : Bool) (byte : UInt8) : UInt8 :=
  if ignoreCase then lowerByte byte else byte

def lowerCase (text : String) : String :=
  String.ofList (text.toList.map Char.toLower)

/-! ## Blanks -/

def isBlank (c : Char) : Bool :=
  let n := c.toNat
  (0x9 ≤ n && n ≤ 0xd) || n == 0x20 || n == 0x85 || n == 0xa0 || n == 0x1680 ||
    (0x2000 ≤ n && n ≤ 0x200a) || n == 0x2028 || n == 0x2029 || n == 0x202f || n == 0x205f ||
    n == 0x3000

/-- The characters without blanks at either end. -/
def trim (cs : List Char) : List Char :=
  ((cs.dropWhile isBlank).reverse.dropWhile isBlank).reverse

/-- The longest runs without a character of the class, empty ones included: `n` such characters
part a text into `n + 1` pieces. -/
def splitAt (separates : Char → Bool) : List Char → List (List Char)
  | [] => [[]]
  | c :: rest =>
    match splitAt separates rest with
    | piece :: pieces => if separates c then [] :: piece :: pieces else (c :: piece) :: pieces
    | [] => [[]]

theorem splitAt_ne_nil (separates : Char → Bool) (cs : List Char) : splitAt separates cs ≠ [] := by
  fun_induction splitAt separates cs <;> simp

theorem splitAt_cons (separates : Char → Bool) (c : Char) (rest : List Char) :
    ∃ piece pieces, splitAt separates rest = piece :: pieces ∧
      splitAt separates (c :: rest) =
        if separates c then [] :: piece :: pieces else (c :: piece) :: pieces := by
  obtain ⟨piece, pieces, h⟩ := List.exists_cons_of_ne_nil (splitAt_ne_nil separates rest)
  exact ⟨piece, pieces, h, by rw [splitAt, h]⟩

/-- The words of a text: the non-empty runs without blanks. -/
def words (cs : List Char) : List (List Char) :=
  (splitAt isBlank cs).filter (!·.isEmpty)

/-! ## Texts in texts -/

/-- The text begins with `start`. -/
def startsWith (text start : String) : Bool :=
  start.toList.isPrefixOf text.toList

/-- The pattern stands somewhere among the characters. -/
def occursIn (pattern : List Char) : List Char → Bool
  | [] => pattern.isEmpty
  | c :: rest => pattern.isPrefixOf (c :: rest) || occursIn pattern rest

/-- The text holds `part`. -/
def contains (text part : String) : Bool :=
  occursIn part.toList text.toList

theorem occursIn_iff {pattern cs : List Char} : occursIn pattern cs = true ↔ pattern <:+: cs := by
  induction cs with
  | nil => simp [occursIn]
  | cons c rest ih => simp [occursIn, ih, List.infix_cons_iff]

theorem contains_iff {text part : String} :
    contains text part = true ↔ part.toList <:+: text.toList :=
  occursIn_iff

theorem contains_append (part rest : String) : contains (part ++ rest) part = true :=
  contains_iff.mpr (String.toList_append ▸ (List.prefix_append _ _).isInfix)

/-! ## Paths -/

/-- The components that say something. -/
def components (path : String) : List (List Char) :=
  (splitAt (· == '/') path.toList).filter fun c => !c.isEmpty && c != ['.']

/-- What a path leads to, unless it leads up or nowhere. -/
def fileName? (path : String) : Option String :=
  match (components path).getLast? with
  | none => none
  | some ['.', '.'] => none
  | some name => some (String.ofList name)

/-- A path inside a directory. The empty directory adds nothing. -/
def joinPath (dir path : String) : String :=
  if startsAtRoot path || dir.isEmpty then path
  else if dir.toList.getLast? == some '/' then dir ++ path
  else dir ++ "/" ++ path
where
  startsAtRoot (path : String) : Bool := path.toList.head? == some '/'

end EdgeProbe.Text
