import Mathlib.Tactic
import EdgeProbe.Json.Reader
import EdgeProbe.Json.Writer

/-!
# Reading back what is written

A value of whole numbers, strings and containers is read back from its text as it was, but for the
names of members: those with characters that are escaped in the text are marked so. Main statement:
`Json.read?_pretty`.
-/

namespace EdgeProbe

namespace Json

/-- The text holds an escape for the character. -/
def isEscaped (c : Char) : Bool :=
  escapeChar c != [c]

/-- A name as it is read from where it has been written. -/
def Name.ofText (text : String) : Name :=
  ⟨text, text.toList.any isEscaped⟩

mutual

/-- A value as it is read back. -/
def written : Json → Json
  | .arr items => .arr (writtenItems items)
  | .obj members => .obj (writtenMembers members)
  | value => value

def writtenItems : List Json → List Json
  | [] => []
  | item :: rest => item.written :: writtenItems rest

def writtenMembers : List (Name × Json) → List (Name × Json)
  | [] => []
  | (name, value) :: rest => (.ofText name.text, value.written) :: writtenMembers rest

end

@[simp] theorem writtenItems_eq (items : List Json) : writtenItems items = items.map written := by
  induction items with
  | nil => rfl
  | cons item rest ih => exact congrArg (item.written :: ·) ih

@[simp] theorem writtenMembers_eq (members : List (Name × Json)) :
    writtenMembers members = members.map fun m => (.ofText m.1.text, m.2.written) := by
  induction members with
  | nil => rfl
  | cons m rest ih => exact congrArg ((.ofText m.1.text, m.2.written) :: ·) ih

/-- Values made of natural numbers, strings and constants. -/
inductive Plain : Json → Prop where
  | null : Plain .null
  | bool (value : Bool) : Plain (.bool value)
  | nat (n : Nat) : Plain (ofNat n)
  | str (text : String) : Plain (.str text)
  | arr {items : List Json} (h : ∀ item ∈ items, Plain item) : Plain (.arr items)
  | obj {members : List (Name × Json)} (h : ∀ m ∈ members, Plain m.2) : Plain (.obj members)

/-! ## Numbers -/

/-- No number goes on with this. -/
def Ends (rest : List Char) : Prop :=
  ∀ c ∈ rest.head?, c.isDigit = false ∧ c ≠ '.' ∧ c ≠ 'e' ∧ c ≠ 'E'

theorem takeWhile_digits {run rest : List Char} (hrun : ∀ c ∈ run, c.isDigit = true)
    (hrest : Ends rest) : (run ++ rest).takeWhile Char.isDigit = run ∧
      (run ++ rest).dropWhile Char.isDigit = rest := by
  have hstop : rest.takeWhile Char.isDigit = [] ∧ rest.dropWhile Char.isDigit = rest := by
    cases rest with
    | nil => exact ⟨rfl, rfl⟩
    | cons c rest => simp [(hrest c rfl).1]
  rw [List.takeWhile_append_of_pos hrun, List.dropWhile_append_of_pos hrun, hstop.1, hstop.2]
  simp

theorem fraction?_of_ends {rest : List Char} (h : Ends rest) : fraction? rest = some ([], rest) := by
  unfold fraction?
  split
  · exact absurd rfl (h '.' rfl).2.1
  · rfl

theorem exponent?_of_ends {rest : List Char} (h : Ends rest) : exponent? rest = some ([], rest) := by
  cases rest with
  | nil => rfl
  | cons c rest =>
    obtain ⟨-, -, hsmall, hlarge⟩ := h c rfl
    simp [exponent?, hsmall, hlarge]

theorem natOfDigits_toDigits (n : Nat) : natOfDigits (Nat.toDigits 10 n) = n := by
  have h := Nat.ofDigitChars_ten_toDigits (n := n)
  rw [Nat.ofDigitChars_eq_foldl] at h
  simpa only [natOfDigits, Nat.mul_comm] using h

/-- The digits of a number other than zero begin with another digit. -/
theorem head?_toDigits (n : Nat) :
    ¬((Nat.toDigits 10 n).head? = some '0' ∧ 1 < (Nat.toDigits 10 n).length) := by
  induction n using Nat.strongRecOn with
  | ind n ih =>
    rw [Nat.toDigits_eq_if (by decide)]
    split
    · simp
    · next hle =>
      have hne : Nat.toDigits 10 (n / 10) ≠ [] := Nat.toDigits_ne_nil
      rintro ⟨hhead, -⟩
      rw [List.head?_append_of_ne_nil _ hne] at hhead
      refine ih (n / 10) (Nat.div_lt_self (by omega) (by decide)) ⟨hhead, ?_⟩
      by_contra hlen
      -- A single zero stands for zero.
      have hlen : (Nat.toDigits 10 (n / 10)).length = 1 :=
        le_antisymm (not_lt.mp hlen) (List.length_pos_iff.mpr hne)
      obtain ⟨c, hc⟩ := List.length_eq_one_iff.mp hlen
      rw [hc, List.head?_cons, Option.some.injEq] at hhead
      have hzero := natOfDigits_toDigits (n / 10)
      rw [hc, hhead] at hzero
      have : natOfDigits ['0'] = 0 := rfl
      omega

theorem readNumber_toDigits (n : Nat) {rest : List Char} (h : Ends rest) :
    readNumber (Nat.toDigits 10 n ++ rest) = some (ofNat n, rest) := by
  have hdigits : ∀ c ∈ Nat.toDigits 10 n, c.isDigit = true := fun c hc =>
    Nat.isDigit_of_mem_toDigits (by decide) le_rfl hc
  have hvalue := natOfDigits_toDigits n
  have hzero := head?_toDigits n
  obtain ⟨htake, hdrop⟩ := takeWhile_digits hdigits h
  have hminus : (Nat.toDigits 10 n).head? ≠ some '-' := by
    intro hhead
    exact absurd (hdigits '-' (List.mem_of_mem_head? hhead)) (by decide)
  have hrun : digits? (Nat.toDigits 10 n ++ rest) = some (Nat.toDigits 10 n, rest) := by
    unfold digits?
    rw [htake, hdrop]
    split
    · next hnil => exact absurd hnil Nat.toDigits_ne_nil
    · rfl
  have hdrop : (if (Nat.toDigits 10 n ++ rest).head? == some '-' then
      (Nat.toDigits 10 n ++ rest).drop 1 else Nat.toDigits 10 n ++ rest) =
        Nat.toDigits 10 n ++ rest := by
    rw [List.head?_append_of_ne_nil _ Nat.toDigits_ne_nil, if_neg (by simpa using hminus)]
  unfold readNumber
  dsimp only
  rw [hdrop]
  simp [hrun, hminus, hzero, fraction?_of_ends h, exponent?_of_ends h, hvalue, ofNat]

/-! ## Strings -/

theorem isEscaped_of_isDigit {c : Char} (h : c.isDigit = true) : isEscaped c = false := by
  have hne : ∀ b : Char, b.isDigit = false → c ≠ b := by
    rintro b hb rfl
    exact absurd (hb.symm.trans h) (by decide)
  have hlarge : ¬c.toNat < 0x20 := by
    simp only [Char.isDigit, ge_iff_le, Bool.and_eq_true, decide_eq_true_eq] at h
    have := UInt32.le_iff_toNat_le.mp h.1
    simp at this
    omega
  simp [isEscaped, escapeChar, hne '"' rfl, hne '\\' rfl, hne '\x08' rfl, hne '\x0c' rfl,
    hne '\n' rfl, hne '\r' rfl, hne '\t' rfl, hlarge]

theorem hexDigit?_hexDigit : ∀ d < 16, hexDigit? (Text.hexDigit d) = some d := by
  decide

/-- A literal that has been read as far as these characters, the last one first. -/
def Literal.reading (chars : List Char) (escaped : Bool) : Literal :=
  ⟨chars, none, true, escaped⟩

theorem Literal.pushChar_reading (chars : List Char) (escaped : Bool) (c : Char) :
    (reading chars escaped).pushChar c = reading (c :: chars) escaped :=
  rfl

theorem readString_close (rest : List Char) (lit : Literal) :
    readString ('"' :: rest) lit = some (lit, rest) :=
  rfl

theorem readString_unit {a b c d : Char} {unit : Nat} (h : codeUnit? a b c d = some unit)
    (rest : List Char) (lit : Literal) :
    readString ('\\' :: 'u' :: a :: b :: c :: d :: rest) lit = readString rest (lit.pushUnit unit) := by
  simp only [readString, h]

/-- Control characters are written by their code. -/
theorem readString_control {c : Char} (hc : c.toNat < 0x20) (rest chars : List Char) (escaped : Bool) :
    readString ('\\' :: 'u' :: '0' :: '0' :: Text.hexDigit (c.toNat / 16) ::
        Text.hexDigit (c.toNat % 16) :: rest) (.reading chars escaped) =
      readString rest (.reading (c :: chars) true) := by
  have hunit : codeUnit? '0' '0' (Text.hexDigit (c.toNat / 16)) (Text.hexDigit (c.toNat % 16)) =
      some c.toNat := by
    have hzero : hexDigit? '0' = some 0 := by decide
    unfold codeUnit?
    rw [hzero, hexDigit?_hexDigit _ (by omega), hexDigit?_hexDigit _ (by omega)]
    simp only [Option.bind_eq_bind, Option.bind_some, Option.pure_def, Option.some.injEq]
    omega
  have hpush : (Literal.reading chars escaped).pushUnit c.toNat = .reading (c :: chars) true := by
    have hhigh : isHighSurrogate c.toNat = false := by simp [isHighSurrogate]; omega
    have hlow : isLowSurrogate c.toNat = false := by simp [isLowSurrogate]; omega
    rw [Literal.pushUnit, hhigh, hlow, Char.ofNat_toNat]
    rfl
  rw [readString_unit hunit, hpush]

theorem readString_escapeChar (c : Char) (rest chars : List Char) (escaped : Bool) :
    readString (escapeChar c ++ rest) (.reading chars escaped) =
      readString rest (.reading (c :: chars) (escaped || isEscaped c)) := by
  by_cases hnamed : c ∈ ['"', '\\', '\x08', '\x0c', '\n', '\r', '\t']
  · have hescaped : isEscaped c = true := by
      fin_cases hnamed <;> rfl
    rw [hescaped, Bool.or_true]
    fin_cases hnamed <;> rfl
  simp only [List.mem_cons, List.not_mem_nil, or_false, not_or] at hnamed
  obtain ⟨hquote, hback, hb, hf, hn, hr, ht⟩ := hnamed
  by_cases hcontrol : c.toNat < 0x20
  · have hchars : escapeChar c = ['\\', 'u', '0', '0', Text.hexDigit (c.toNat / 16),
        Text.hexDigit (c.toNat % 16)] := by
      simp [escapeChar, hquote, hback, hb, hf, hn, hr, ht, hcontrol]
    have hescaped : isEscaped c = true := by simp [isEscaped, hchars]
    rw [hchars, hescaped, Bool.or_true]
    exact readString_control hcontrol rest chars escaped
  · have hchars : escapeChar c = [c] := by
      simp [escapeChar, hquote, hback, hb, hf, hn, hr, ht, hcontrol]
    have hescaped : isEscaped c = false := by simp [isEscaped, hchars]
    rw [hchars, hescaped, Bool.or_false, List.singleton_append]
    conv_lhs => unfold readString
    split <;> simp_all [Literal.pushChar_reading]

theorem readString_quoted (text rest chars : List Char) (escaped : Bool) :
    readString (text.flatMap escapeChar ++ '"' :: rest) (.reading chars escaped) =
      some (.reading (text.reverse ++ chars) (escaped || text.any isEscaped), rest) := by
  induction text generalizing chars escaped with
  | nil => simp [readString_close]
  | cons c text ih =>
    rw [List.flatMap_cons, List.append_assoc, readString_escapeChar, ih]
    simp [Bool.or_assoc]

/-- The rest of a quoted text after its opening quote is read back. -/
theorem readString_quote (text : String) (rest : List Char) :
    ∃ lit, readString (text.toList.flatMap escapeChar ++ '"' :: rest) {} = some (lit, rest) ∧
      lit.text? = some text ∧ lit.name? = some (Name.ofText text) := by
  have htext : (Literal.reading text.toList.reverse (text.toList.any isEscaped)).text? = some text := by
    simp [Literal.text?, Literal.reading]
  refine ⟨_, readString_quoted text.toList rest [] false, ?_, ?_⟩
  · simpa using htext
  · simpa [Literal.name?, Name.ofText, Literal.reading] using htext

/-! ## Values -/

theorem skipBlanks_newline (level : Nat) {c : Char} (hc : isBlank c = false) (rest : List Char) :
    skipBlanks ((newline level).toList ++ c :: rest) = c :: rest := by
  have hblank : ∀ b ∈ (newline level).toList, isBlank b = true := by
    simp [newline, isBlank]
  rw [skipBlanks, List.dropWhile_append_of_pos hblank, List.dropWhile_cons_of_neg (by simp [hc])]

/-- A value begins with something that is neither blank nor the end of an array. -/
def Begins (text : List Char) : Prop :=
  ∃ c rest, text = c :: rest ∧ isBlank c = false ∧ c ≠ ']'

/-- The value is read back wherever it is written. -/
def ReadsBack (value : Json) : Prop :=
  ∀ level, Begins (prettyAt level value).toList ∧ ∀ fuel rest, Ends rest →
    (prettyAt level value).length < fuel →
      readValue fuel ((prettyAt level value).toList ++ rest) = some (value.written, rest)

theorem ends_newline (level : Nat) (rest : List Char) : Ends ((newline level).toList ++ rest) := by
  intro c hc
  obtain rfl : '\n' = c := by simpa [newline] using hc
  decide

theorem ends_comma (rest : List Char) : Ends (',' :: rest) := by
  intro c hc
  obtain rfl : ',' = c := by simpa using hc
  decide

theorem readValue_digit {c : Char} (hc : c.isDigit = true) (fuel : Nat) (rest : List Char) :
    readValue (fuel + 1) (c :: rest) = readNumber (c :: rest) := by
  unfold readValue
  split <;> simp_all

theorem readsBack_nat (n : Nat) : ReadsBack (ofNat n) := by
  intro level
  have htext : (prettyAt level (ofNat n)).toList = Nat.toDigits 10 n := by
    change (toString (n : Int)).toList = _
    rw [show toString (n : Int) = Nat.repr n from rfl, Nat.toList_repr]
  obtain ⟨c, run, hrun⟩ := List.exists_cons_of_ne_nil (Nat.toDigits_ne_nil (b := 10) (n := n))
  have hc : c.isDigit = true :=
    Nat.isDigit_of_mem_toDigits (by decide) le_rfl (hrun ▸ List.mem_cons_self)
  have hother : ∀ b : Char, b.isDigit = false → c ≠ b := by
    rintro b hb rfl
    exact absurd (hb.symm.trans hc) (by decide)
  rw [htext]
  refine ⟨⟨c, run, hrun, ?_, hother ']' rfl⟩, fun fuel rest hrest hfuel => ?_⟩
  · simp [isBlank, hother ' ' rfl, hother '\n' rfl, hother '\r' rfl, hother '\t' rfl]
  · obtain ⟨fuel, rfl⟩ := Nat.exists_eq_succ_of_ne_zero (Nat.ne_zero_of_lt hfuel)
    have hread := readNumber_toDigits n hrest
    rw [hrun] at hread ⊢
    exact (readValue_digit hc fuel _).trans hread

theorem readValue_quote (fuel : Nat) (rest : List Char) : readValue (fuel + 1) ('"' :: rest) =
    (readString rest {}).map fun (lit, rest) => ((lit.text?.map Json.str).getD .unpaired, rest) :=
  rfl

theorem readsBack_str (text : String) : ReadsBack (.str text) := by
  intro level
  have htext : (prettyAt level (.str text)).toList = '"' :: (text.toList.flatMap escapeChar ++ ['"']) := by
    simp [prettyAt, leaf, quote]
  rw [htext]
  refine ⟨⟨_, _, rfl, by decide, by decide⟩, fun fuel rest hrest hfuel => ?_⟩
  obtain ⟨fuel, rfl⟩ := Nat.exists_eq_succ_of_ne_zero (Nat.ne_zero_of_lt hfuel)
  obtain ⟨lit, hlit, hvalue, -⟩ := readString_quote text rest
  simp [readValue_quote, hlit, hvalue, written]

/-- A word that stands for a value. -/
theorem readsBack_word {value : Json} (hcontainer : ∀ level, prettyAt level value = leaf value)
    (hbegins : Begins (leaf value).toList)
    (hread : ∀ fuel rest, readValue (fuel + 1) ((leaf value).toList ++ rest) = some (value, rest))
    (hwritten : value.written = value) : ReadsBack value := by
  intro level
  rw [hcontainer, hwritten]
  refine ⟨hbegins, fun fuel rest _ hfuel => ?_⟩
  obtain ⟨fuel, rfl⟩ := Nat.exists_eq_succ_of_ne_zero (Nat.ne_zero_of_lt hfuel)
  exact hread fuel rest

theorem skipBlanks_begins (level : Nat) {text : List Char} (h : Begins text) (rest : List Char) :
    skipBlanks ((newline level).toList ++ (text ++ rest)) = text ++ rest := by
  obtain ⟨c, cs, rfl, hblank, -⟩ := h
  exact skipBlanks_newline level hblank (cs ++ rest)

theorem Begins.append {text : List Char} (h : Begins text) (rest : List Char) :
    Begins (text ++ rest) := by
  obtain ⟨c, cs, rfl, hc⟩ := h
  exact ⟨c, cs ++ rest, rfl, hc⟩

/-- Lines of a container begin as the first one does. -/
theorem begins_intercalate {line s : String} (h : Begins line.toList) (others : List String) :
    Begins (String.intercalate s (line :: others)).toList := by
  obtain ⟨c, cs, hline, hc⟩ := h
  cases others with
  | nil => exact ⟨c, cs, by simpa using hline, hc⟩
  | cons next others => exact ⟨c, _, by simp [String.intercalate_cons_cons, hline]; rfl, hc⟩

/-- After a comma the next line is come to. -/
theorem skipBlanks_separator (level : Nat) {text : List Char} (h : Begins text) (rest : List Char) :
    ∃ after, (("," ++ newline level).toList ++ (text ++ rest)) = ',' :: after ∧
      skipBlanks (',' :: after) = ',' :: after ∧ skipBlanks after = text ++ rest :=
  ⟨(newline level).toList ++ (text ++ rest), by simp, rfl, skipBlanks_begins level h rest⟩

section

variable {fuel : Nat} {cs rest after : List Char} {value : Json}

/-- After an item comes another one, or the end of the array. -/
theorem readItems_value (h : readValue fuel cs = some (value, rest)) (acc : List Json) :
    (skipBlanks rest = ',' :: after →
        readItems (fuel + 1) cs acc = readItems fuel (skipBlanks after) (value :: acc)) ∧
      (skipBlanks rest = ']' :: after →
        readItems (fuel + 1) cs acc = some (.arr (value :: acc).reverse, after)) := by
  constructor <;> intro hrest
  · simp [readItems, h, hrest]
  · simp [readItems, h, hrest]

/-- After a member comes another one, or the end of the object. -/
theorem readMembers_value {text : String} (h : readValue fuel cs = some (value, rest))
    (hcs : skipBlanks (' ' :: cs) = cs) (acc : List (Option Name × Json)) :
    (skipBlanks rest = ',' :: after →
        readMembers (fuel + 1) ((quote text).toList ++ ':' :: ' ' :: cs) acc =
          readMembers fuel (skipBlanks after) ((some (Name.ofText text), value) :: acc)) ∧
      (skipBlanks rest = '\x7d' :: after →
        readMembers (fuel + 1) ((quote text).toList ++ ':' :: ' ' :: cs) acc =
          some (ofMembers ((some (Name.ofText text), value) :: acc).reverse, after)) := by
  obtain ⟨lit, hlit, -, hname⟩ := readString_quote text (':' :: ' ' :: cs)
  have hcolon : skipBlanks (':' :: ' ' :: cs) = ':' :: ' ' :: cs := rfl
  constructor <;> intro hrest
  · simp [quote, readMembers, hlit, hcolon, hcs, h, hrest, hname]
  · simp [quote, readMembers, hlit, hcolon, hcs, h, hrest, hname]

/-- Names that denote strings make an object. -/
theorem ofMembers_names (members : List (Name × Json)) :
    ofMembers (members.map fun m => (some m.1, m.2)) = .obj members := by
  have hall : (members.map fun m => (some m.1, m.2)).mapM
      (fun m => m.1.map (·, m.2)) = some members := by
    induction members with
    | nil => rfl
    | cons m rest ih => simp [ih]
  rw [ofMembers, hall]

end

theorem length_separator_pos (level : Nat) : 0 < ("," ++ newline level).length := by
  rw [String.length_append]
  exact Nat.add_pos_left (by decide) _

theorem toList_member (name : String) (level : Nat) (value : Json) :
    (quote name ++ ": " ++ prettyAt level value).toList =
      (quote name).toList ++ ':' :: ' ' :: (prettyAt level value).toList := by
  simp

/-- The items of an array are read back in turn. -/
theorem readItems_pretty {items : List Json} (hne : items ≠ [])
    (hitems : ∀ item ∈ items, ReadsBack item) (level outer : Nat) (acc : List Json)
    (rest : List Char) (fuel : Nat) (hfuel :
      (String.intercalate ("," ++ newline level) (prettyItems level items)).length + 1 < fuel) :
    readItems fuel ((String.intercalate ("," ++ newline level) (prettyItems level items)).toList ++
        ((newline outer).toList ++ ']' :: rest)) acc =
      some (.arr (acc.reverse ++ items.map written), rest) := by
  induction items generalizing acc fuel with
  | nil => exact absurd rfl hne
  | cons item others ih =>
    obtain ⟨fuel, rfl⟩ := Nat.exists_eq_succ_of_ne_zero (Nat.ne_zero_of_lt hfuel)
    obtain ⟨hitem, hothers⟩ := List.forall_mem_cons.mp hitems
    obtain ⟨-, hread⟩ := hitem level
    cases others with
    | nil =>
      simp only [prettyItems, String.intercalate_singleton] at hfuel ⊢
      rw [(readItems_value (hread _ _ (ends_newline _ _) (by omega)) acc).2
        (skipBlanks_newline outer rfl _)]
      simp
    | cons next others =>
      have hbegins := begins_intercalate (s := "," ++ newline level)
        ((hothers next List.mem_cons_self) level).1 (prettyItems level others)
      rw [prettyItems, prettyItems, String.intercalate_cons_cons] at hfuel ⊢
      rw [String.length_append, String.length_append] at hfuel
      have hsep := length_separator_pos level
      rw [String.toList_append, String.toList_append, List.append_assoc, List.append_assoc]
      obtain ⟨after, hsep, hcomma, hafter⟩ := skipBlanks_separator level hbegins
        ((newline outer).toList ++ ']' :: rest)
      rw [hsep, (readItems_value (hread _ _ (ends_comma _) (by omega)) acc).1 hcomma, hafter,
        ← prettyItems, ih (List.cons_ne_nil _ _) hothers _ _ (by rw [prettyItems]; omega)]
      simp

theorem begins_members (level : Nat) (m : Name × Json) (others : List (Name × Json)) :
    ∃ cs, (String.intercalate ("," ++ newline level) (prettyMembers level (m :: others))).toList =
      '"' :: cs := by
  obtain ⟨name, value⟩ := m
  cases others with
  | nil => exact ⟨_, by simp [prettyMembers, quote]; rfl⟩
  | cons next others => exact ⟨_, by simp [prettyMembers, quote]; rfl⟩

/-- So are the members of an object. -/
theorem readMembers_pretty {members : List (Name × Json)} (hne : members ≠ [])
    (hmembers : ∀ m ∈ members, ReadsBack m.2) (level outer : Nat) (acc : List (Name × Json))
    (rest : List Char) (fuel : Nat) (hfuel :
      (String.intercalate ("," ++ newline level) (prettyMembers level members)).length + 1 < fuel) :
    readMembers fuel ((String.intercalate ("," ++ newline level) (prettyMembers level members)).toList ++
        ((newline outer).toList ++ '\x7d' :: rest)) (acc.map fun m => (some m.1, m.2)) =
      some (.obj (acc.reverse ++ members.map fun m => (.ofText m.1.text, m.2.written)), rest) := by
  induction members generalizing acc fuel with
  | nil => exact absurd rfl hne
  | cons m others ih =>
    obtain ⟨name, value⟩ := m
    obtain ⟨fuel, rfl⟩ := Nat.exists_eq_succ_of_ne_zero (Nat.ne_zero_of_lt hfuel)
    obtain ⟨hvalue, hothers⟩ := List.forall_mem_cons.mp hmembers
    obtain ⟨⟨c, cs, hc, hblank, -⟩, hread⟩ := hvalue level
    dsimp only at hc hread
    have hskip : ∀ rest, skipBlanks (' ' :: ((prettyAt level value).toList ++ rest)) =
        (prettyAt level value).toList ++ rest := by
      intro rest
      rw [hc, List.cons_append, skipBlanks, List.dropWhile_cons_of_pos (by decide),
        List.dropWhile_cons_of_neg (by simp [hblank])]
    cases others with
    | nil =>
      simp only [prettyMembers, String.intercalate_singleton] at hfuel ⊢
      rw [String.length_append] at hfuel
      rw [toList_member, List.append_assoc, List.cons_append, List.cons_append,
        (readMembers_value (hread _ _ (ends_newline _ _) (by omega)) (hskip _) _).2
          (skipBlanks_newline outer rfl _)]
      have hall := ofMembers_names (acc.reverse ++ [(.ofText name.text, value.written)])
      simpa using hall
    | cons next others =>
      obtain ⟨cs', hcs'⟩ := begins_members level next others
      have hsep := length_separator_pos level
      have hlines : prettyMembers level ((name, value) :: next :: others) =
        (quote name.text ++ ": " ++ prettyAt level value) :: prettyMembers level (next :: others) := rfl
      have hne : prettyMembers level (next :: others) ≠ [] := List.cons_ne_nil _ _
      rw [hlines, String.intercalate_cons_of_ne_nil hne] at hfuel ⊢
      rw [String.length_append, String.length_append, String.length_append] at hfuel
      rw [String.toList_append, String.toList_append, List.append_assoc, List.append_assoc]
      obtain ⟨after, hafter, hcomma, hbegin⟩ := skipBlanks_separator level
        ⟨'"', cs', hcs', rfl, by decide⟩ ((newline outer).toList ++ '\x7d' :: rest)
      rw [hafter, toList_member, List.append_assoc, List.cons_append, List.cons_append,
        (readMembers_value (hread _ _ (ends_comma _) (by omega)) (hskip _) _).1 hcomma, hbegin]
      have hrest :=
        ih (List.cons_ne_nil _ _) hothers ((.ofText name.text, value.written) :: acc) fuel (by omega)
      simpa using hrest

theorem readValue_bracket (fuel : Nat) (cs : List Char) : readValue (fuel + 1) ('[' :: cs) =
    match skipBlanks cs with
    | ']' :: rest => some (.arr [], rest)
    | rest => readItems fuel rest [] :=
  rfl

theorem readValue_brace (fuel : Nat) (cs : List Char) : readValue (fuel + 1) ('\x7b' :: cs) =
    match skipBlanks cs with
    | '\x7d' :: rest => some (.obj [], rest)
    | rest => readMembers fuel rest [] :=
  rfl

theorem readValue_items {cs rest : List Char} (h : skipBlanks cs = rest) (hbegins : Begins rest)
    (fuel : Nat) : readValue (fuel + 1) ('[' :: cs) = readItems fuel rest [] := by
  obtain ⟨c, tail, rfl, -, hc⟩ := hbegins
  simp [readValue_bracket, h, hc]

theorem readValue_members {cs rest : List Char} (h : skipBlanks cs = '"' :: rest) (fuel : Nat) :
    readValue (fuel + 1) ('\x7b' :: cs) = readMembers fuel ('"' :: rest) [] := by
  simp [readValue_brace, h]

theorem toList_block (level : Nat) (lines : List String) (rest : List Char) :
    (block level lines).toList ++ rest = (newline (level + 1)).toList ++
      ((String.intercalate ("," ++ newline (level + 1)) lines).toList ++
        ((newline level).toList ++ rest)) := by
  simp [block]

theorem length_block (level : Nat) (lines : List String) :
    (String.intercalate ("," ++ newline (level + 1)) lines).length + 2 ≤ (block level lines).length := by
  have hpos : ∀ level, 0 < (newline level).length := by
    intro level
    rw [newline, String.length_append]
    exact Nat.add_pos_left (by decide) _
  have hinner := hpos (level + 1)
  have houter := hpos level
  simp only [block, String.length_append]
  omega

theorem readsBack_arr {items : List Json} (hitems : ∀ item ∈ items, ReadsBack item) :
    ReadsBack (.arr items) := by
  intro level
  cases items with
  | nil =>
    rw [prettyAt]
    refine ⟨⟨'[', [']'], rfl, rfl, by decide⟩, fun fuel rest _ hfuel => ?_⟩
    obtain ⟨fuel, rfl⟩ := Nat.exists_eq_succ_of_ne_zero (Nat.ne_zero_of_lt hfuel)
    rfl
  | cons item others =>
    have hfirst := begins_intercalate (s := "," ++ newline (level + 1))
      ((hitems item List.mem_cons_self) (level + 1)).1 (prettyItems (level + 1) others)
    rw [← prettyItems] at hfirst
    have htext : ∀ rest, (prettyAt level (.arr (item :: others))).toList ++ rest =
        '[' :: ((block level (prettyItems (level + 1) (item :: others))).toList ++ ']' :: rest) := by
      simp [prettyAt]
    refine ⟨⟨'[', _, by simpa using htext [], rfl, by decide⟩, fun fuel rest _ hfuel => ?_⟩
    obtain ⟨fuel, rfl⟩ := Nat.exists_eq_succ_of_ne_zero (Nat.ne_zero_of_lt hfuel)
    have hlength := length_block level (prettyItems (level + 1) (item :: others))
    rw [prettyAt.eq_def, String.length_append, String.length_append] at hfuel
    rw [htext, toList_block,
      readValue_items (skipBlanks_begins (level + 1) hfirst _) (hfirst.append _),
      readItems_pretty (List.cons_ne_nil _ _) hitems (level + 1) level [] rest _ (by omega)]
    simp [written]

theorem readsBack_obj {members : List (Name × Json)} (hmembers : ∀ m ∈ members, ReadsBack m.2) :
    ReadsBack (.obj members) := by
  intro level
  cases members with
  | nil =>
    rw [prettyAt]
    refine ⟨⟨'\x7b', ['\x7d'], rfl, rfl, by decide⟩, fun fuel rest _ hfuel => ?_⟩
    obtain ⟨fuel, rfl⟩ := Nat.exists_eq_succ_of_ne_zero (Nat.ne_zero_of_lt hfuel)
    rfl
  | cons m others =>
    have hfirst := begins_members (level + 1) m others
    have htext : ∀ rest, (prettyAt level (.obj (m :: others))).toList ++ rest =
        '\x7b' :: ((block level (prettyMembers (level + 1) (m :: others))).toList ++ '\x7d' :: rest) := by
      simp [prettyAt]
    refine ⟨⟨'\x7b', _, by simpa using htext [], rfl, by decide⟩, fun fuel rest _ hfuel => ?_⟩
    obtain ⟨fuel, rfl⟩ := Nat.exists_eq_succ_of_ne_zero (Nat.ne_zero_of_lt hfuel)
    have hlength := length_block level (prettyMembers (level + 1) (m :: others))
    rw [prettyAt.eq_def, String.length_append, String.length_append] at hfuel
    have hread := readMembers_pretty (List.cons_ne_nil _ _) hmembers (level + 1) level [] rest
      fuel (by omega)
    obtain ⟨cs, hcs⟩ := hfirst
    rw [hcs] at hread
    rw [htext, toList_block, hcs, List.cons_append, readValue_members (skipBlanks_newline _ rfl _)]
    simpa [written] using hread

theorem Plain.readsBack {value : Json} (h : value.Plain) : ReadsBack value := by
  induction h with
  | null =>
    exact readsBack_word (fun _ => rfl) ⟨'n', _, rfl, rfl, by decide⟩ (fun _ _ => rfl) rfl
  | bool value =>
    cases value with
    | false => exact readsBack_word (fun _ => rfl) ⟨'f', _, rfl, rfl, by decide⟩ (fun _ _ => rfl) rfl
    | true => exact readsBack_word (fun _ => rfl) ⟨'t', _, rfl, rfl, by decide⟩ (fun _ _ => rfl) rfl
  | nat n => exact readsBack_nat n
  | str text => exact readsBack_str text
  | arr _ ih => exact readsBack_arr ih
  | obj _ ih => exact readsBack_obj ih

/-- A value is read back from its text. -/
theorem Plain.read?_pretty {value : Json} (h : value.Plain) :
    read? value.pretty = some value.written := by
  obtain ⟨hbegins, hread⟩ := h.readsBack 0
  have hread := hread ((pretty value).toList.length + 1) [] (by simp [Ends])
    (by rw [String.length_toList]; exact Nat.lt_succ_self _)
  obtain ⟨c, cs, hc, hblank, -⟩ := hbegins
  have hskip : skipBlanks (pretty value).toList = (pretty value).toList := by
    rw [pretty, hc, skipBlanks, List.dropWhile_cons_of_neg (by simp [hblank])]
  rw [List.append_nil, ← pretty] at hread
  simp only [read?, hskip]
  rw [hread]
  rfl

end Json

end EdgeProbe
