import Mathlib.Tactic
import EdgeProbe.Probe.SourceMap
import EdgeProbe.Proofs.Json.ReadBack
import EdgeProbe.Text.Scan
import EdgeProbe.Text.Utf8
import EdgeProbe.Token.Dictionary

/-!
# Text files read back

Dictionaries and source maps are written line by line. They are read back here: what is in the file
are the records of the dictionary and the lines of the source map, unless one of their texts goes on
over the end of its line.
-/

namespace EdgeProbe

namespace Text

/-- The lines of a text that a line feed ends. -/
def lines (cs : List Char) : List (List Char) :=
  (splitAt (· == '\n') cs).dropLast

theorem splitAt_append {separates : Char → Bool} {piece : List Char} {c : Char} (rest : List Char)
    (hpiece : ∀ x ∈ piece, separates x = false) (hc : separates c = true) :
    splitAt separates (piece ++ c :: rest) = piece :: splitAt separates rest := by
  induction piece with
  | nil =>
    obtain ⟨first, others, hrest, hcons⟩ := splitAt_cons separates c rest
    rw [List.nil_append, hcons, if_pos hc, hrest]
  | cons x piece ih =>
    obtain ⟨hx, hpiece⟩ := List.forall_mem_cons.mp hpiece
    obtain ⟨first, others, hrest, hcons⟩ := splitAt_cons separates x (piece ++ c :: rest)
    rw [ih hpiece] at hrest
    obtain ⟨rfl, rfl⟩ := List.cons.inj hrest
    rw [List.cons_append, hcons, if_neg (by simp [hx])]

/-- Lines are read as they are written. -/
theorem lines_flatMap (ls : List (List Char)) (h : ∀ l ∈ ls, '\n' ∉ l) :
    lines (ls.flatMap (· ++ ['\n'])) = ls := by
  have hsplit : splitAt (· == '\n') (ls.flatMap (· ++ ['\n'])) = ls ++ [[]] := by
    induction ls with
    | nil => rfl
    | cons l rest ih =>
      obtain ⟨hl, hrest⟩ := List.forall_mem_cons.mp h
      rw [List.flatMap_cons, List.append_assoc, List.singleton_append, splitAt_append _ _ rfl,
        ih hrest, List.cons_append]
      intro x hx
      simpa using fun heq : x = '\n' => hl (heq ▸ hx)
  rw [lines, hsplit, List.dropLast_concat]

/-- There are as many lines as there are line feeds. -/
theorem length_lines (cs : List Char) : (lines cs).length = cs.count '\n' := by
  rw [lines, List.length_dropLast]
  induction cs with
  | nil => rfl
  | cons c rest ih =>
    obtain ⟨piece, pieces, hrest, hcons⟩ := splitAt_cons (· == '\n') c rest
    rw [hrest, List.length_cons, Nat.add_sub_cancel] at ih
    rw [hcons, List.count_cons, ← ih]
    split <;> rfl

theorem newline_notMem_hexField (count n : Nat) : '\n' ∉ hexField count n := by
  induction count generalizing n with
  | zero => simp [hexField]
  | succ count ih =>
    have hdigit : ∀ d < 16, hexDigit d ≠ '\n' := by decide
    simp only [hexField, List.mem_append, List.mem_singleton, not_or]
    exact ⟨ih _, (hdigit _ (Nat.mod_lt _ (by decide))).symm⟩

theorem toList_loop (bytes : ByteArray) (i : Nat) (front : List UInt8) :
    ByteArray.toList.loop bytes i front = front.reverse ++ bytes.data.toList.drop i := by
  fun_induction ByteArray.toList.loop bytes i front with
  | case1 i front hi ih =>
    have hlt : i < bytes.data.toList.length := by simpa using hi
    have hget : bytes.get! i = bytes.data.toList[i] := by
      obtain ⟨data⟩ := bytes
      exact getElem!_pos data i hi
    rw [ih, List.drop_eq_getElem_cons hlt, hget]
    simp
  | case2 i front hi =>
    rw [List.drop_eq_nil_of_le (by simpa using hi), List.append_nil]

/-- The bytes of a text are read as that text. -/
theorem decode?_toUTF8 (text : String) : decode? text.toUTF8.toList = some text := by
  have hbytes : (⟨text.toUTF8.toList.toArray⟩ : ByteArray) = text.toUTF8 := by
    apply ByteArray.ext
    rw [ByteArray.toList, toList_loop]
    simp
  rw [decode?, hbytes]
  simp only [String.fromUTF8?, String.toUTF8_eq_toByteArray, dif_pos text.isValidUTF8]
  rfl

end Text

namespace SourceMap

/-- The identifier and the text of a line. -/
def readLine (cs : List Char) : Nat × String :=
  (Json.natOfDigits (cs.takeWhile (· != '=')), String.ofList ((cs.dropWhile (· != '=')).drop 1))

/-- The source map that a text holds. -/
def ofText (text : String) : SourceMap :=
  ⟨(Text.lines text.toList).map readLine⟩

/-- A line without its end. -/
def lineChars (line : Nat × String) : List Char :=
  Nat.toDigits 10 line.1 ++ '=' :: line.2.toList

theorem readLine_lineChars (line : Nat × String) : readLine (lineChars line) = line := by
  have hdigits : ∀ c ∈ Nat.toDigits 10 line.1, (c != '=') = true := by
    intro c hc
    have hdigit : c.isDigit = true := Nat.isDigit_of_mem_toDigits (by decide) (by decide) hc
    simp only [bne_iff_ne]
    rintro rfl
    exact absurd hdigit (by decide)
  rw [readLine, lineChars, List.takeWhile_append_of_pos hdigits,
    List.dropWhile_append_of_pos hdigits]
  simp [Json.natOfDigits_toDigits]

theorem toList_render (s : SourceMap) :
    s.render.toList = (s.lines.map lineChars).flatMap (· ++ ['\n']) := by
  simp [render, lineChars, String.toList_join, List.flatMap_map, toString]

/-- A source map is read back from its file. -/
theorem ofText_render (s : SourceMap) (h : ∀ line ∈ s.lines, '\n' ∉ line.2.toList) :
    ofText s.render = s := by
  have hlines : Text.lines s.render.toList = s.lines.map lineChars := by
    rw [toList_render]
    refine Text.lines_flatMap _ (List.forall_mem_map.mpr fun line hline => ?_)
    intro hmem
    obtain hdigit | hmem := List.mem_append.mp hmem
    · exact absurd (Nat.isDigit_of_mem_toDigits (by decide) (by decide) hdigit) (by decide)
    · exact h line hline (by simpa using hmem)
  have hread : ∀ line ∈ s.lines, (readLine ∘ lineChars) line = id line :=
    fun line _ => readLine_lineChars line
  rw [ofText, hlines, List.map_map, List.map_congr_left hread, List.map_id]

end SourceMap

namespace Dictionary

/-- The record of a line: what stands between the last two double quotes is the token. -/
def readRecord (cs : List Char) : Record :=
  let back := cs.dropLast.reverse
  { token := String.ofList (back.takeWhile (· != '"')).reverse
    tag := String.ofList (((back.dropWhile (· != '"')).drop 2).reverse.drop 4) }

/-- The records that a text holds after its header. -/
def recordsOfText (text : String) : List Record :=
  ((Text.lines text.toList).drop 1).map readRecord

/-- The texts of a record stay on their line, and the token does between its quotes. -/
def Record.FitsLine (r : Record) : Prop :=
  '\n' ∉ r.tag.toList ∧ '\n' ∉ r.token.toList ∧ '"' ∉ r.token.toList

/-- A line without its end. -/
def Record.chars (r : Record) : List Char :=
  "AFL_".toList ++ r.tag.toList ++ "=\"".toList ++ r.token.toList ++ ['"']

/-- The equation as it stands. The one that is made of a definition decodes its texts first. -/
theorem Record.chars_eq (r : Record) :
    r.chars = "AFL_".toList ++ r.tag.toList ++ "=\"".toList ++ r.token.toList ++ ['"'] :=
  rfl

theorem readRecord_chars {r : Record} (h : '"' ∉ r.token.toList) : readRecord r.chars = r := by
  have hback : r.chars.dropLast.reverse =
      r.token.toList.reverse ++ '"' :: '=' :: (r.tag.toList.reverse ++ "AFL_".toList.reverse) := by
    rw [Record.chars_eq, List.dropLast_concat]
    simp
  have htoken : ∀ c ∈ r.token.toList.reverse, (c != '"') = true := by
    intro c hc
    rw [bne_iff_ne]
    rintro rfl
    exact h (List.mem_reverse.mp hc)
  simp only [readRecord, hback, List.takeWhile_append_of_pos htoken,
    List.dropWhile_append_of_pos htoken]
  simp

theorem toList_line (r : Record) : (line r).toList = r.chars ++ ['\n'] := by
  simp [line, Record.chars_eq]

theorem Record.FitsLine.newline_notMem_chars {r : Record} (h : r.FitsLine) : '\n' ∉ r.chars := by
  simp [Record.chars_eq, h.1, h.2.1]

/-- The header is one line. -/
theorem toList_header (dictType : DictType) (counter : CounterMode) (buildId : UInt64) :
    ∃ head : List Char, '\n' ∉ head ∧ (header dictType counter buildId).toList = head ++ ['\n'] := by
  refine ⟨"# AFL_DICT_TYPE=".toList ++ dictType.text.toList ++ "; AFL_COVERAGE_TYPE=".toList ++
    counter.text.toList ++ "; AFL_BUILD_ID=".toList ++ Text.hexPadded 16 buildId.toNat, ?_, ?_⟩
  · have hhex := Text.newline_notMem_hexField (max 16 (Text.hexLength buildId.toNat)) buildId.toNat
    cases dictType <;> cases counter <;>
      simpa [DictType.text, CounterMode.text, Text.hexPadded] using hhex
  · unfold header
    generalize Text.hexPadded 16 buildId.toNat = digits
    simp

/-- A file is its header and its records, each with a line feed at its end. -/
theorem toList_render (d : Dictionary) (dictType : DictType) (counter : CounterMode)
    (buildId : UInt64) :
    ∃ head, '\n' ∉ head ∧ (header dictType counter buildId).toList = head ++ ['\n'] ∧
      (d.render dictType counter buildId).toList =
        (head :: (d.entries dictType).map Record.chars).flatMap (· ++ ['\n']) := by
  obtain ⟨head, hhead, hheader⟩ := toList_header dictType counter buildId
  refine ⟨head, hhead, hheader, ?_⟩
  rw [render, String.toList_append, hheader, String.toList_join, List.flatMap_cons,
    List.flatMap_map, List.flatMap_map]
  simp only [toList_line]

/-- The lines of a file are its header and its records. -/
theorem lines_render (d : Dictionary) {dictType : DictType} (counter : CounterMode)
    (buildId : UInt64) (h : ∀ r ∈ d.entries dictType, r.FitsLine) :
    ∃ head, (header dictType counter buildId).toList = head ++ ['\n'] ∧
      Text.lines (d.render dictType counter buildId).toList =
        head :: (d.entries dictType).map Record.chars := by
  obtain ⟨head, hhead, hheader, hrender⟩ := d.toList_render dictType counter buildId
  refine ⟨head, hheader, ?_⟩
  rw [hrender]
  refine Text.lines_flatMap _ (List.forall_mem_cons.mpr ⟨hhead, List.forall_mem_map.mpr ?_⟩)
  exact fun r hr => (h r hr).newline_notMem_chars

/-- A file has one line for its header and one for each record, and one more for each line feed in a
record. -/
theorem length_lines_render (d : Dictionary) (dictType : DictType) (counter : CounterMode)
    (buildId : UInt64) : (Text.lines (d.render dictType counter buildId).toList).length =
      1 + ((d.entries dictType).map fun r => r.chars.count '\n' + 1).sum := by
  obtain ⟨head, hhead, -, hrender⟩ := d.toList_render dictType counter buildId
  have hline : ∀ l : List Char, (List.count '\n' ∘ (· ++ ['\n'])) l = l.count '\n' + 1 :=
    fun l => by simp
  rw [Text.length_lines, hrender, List.count_flatMap, List.map_congr_left fun l _ => hline l,
    List.map_cons, List.sum_cons, List.count_eq_zero.mpr hhead, List.map_map]
  rfl

/-- The records are read back from their file. -/
theorem recordsOfText_render (d : Dictionary) {dictType : DictType} (counter : CounterMode)
    (buildId : UInt64) (h : ∀ r ∈ d.entries dictType, r.FitsLine) :
    recordsOfText (d.render dictType counter buildId) = d.entries dictType := by
  obtain ⟨head, -, hlines⟩ := d.lines_render counter buildId h
  have hrecords : ∀ r ∈ d.entries dictType, (readRecord ∘ Record.chars) r = id r :=
    fun r hr => readRecord_chars (h r hr).2.2
  unfold recordsOfText
  rw [hlines, List.drop_succ_cons, List.drop_zero, List.map_map, List.map_congr_left hrecords,
    List.map_id]

end Dictionary

end EdgeProbe
