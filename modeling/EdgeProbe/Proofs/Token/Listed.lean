import EdgeProbe.Proofs.Artifact.Texts
import EdgeProbe.Proofs.Token.Collected
import EdgeProbe.Proofs.Token.Escaped
import EdgeProbe.Token.Provenance

/-!
# Dictionary files read back

A dictionary file has a line for its header and one for each entry, from which the entry is read
back, if no token was found in a file whose name goes on over the end of a line. Tokens have no
characters that are mistaken there, but tags keep all of a file name but its hyphens and dots. Main
statement: `Dictionary.file_reads_back`.
-/

namespace EdgeProbe

/-- The name that a location gives to its file. -/
def DebugLoc.fileName (loc : DebugLoc) : String :=
  (Text.fileName? loc.file).getD loc.file

namespace Text

theorem newline_notMem_natText (n : Nat) : '\n' ∉ (toString n).toList := by
  intro h
  have hdigits : (toString n).toList = Nat.toDigits 10 n := by simp [toString]
  rw [hdigits] at h
  exact absurd (Nat.isDigit_of_mem_toDigits (by decide) (by decide) h) (by decide)

end Text

theorem DebugLoc.newline_notMem_fragment {loc : DebugLoc} (h : '\n' ∉ loc.fileName.toList) :
    '\n' ∉ loc.fragment.toList := by
  have hfile : '\n' ∉ loc.fileName.toList.flatMap tagChar := by
    rw [List.mem_flatMap]
    rintro ⟨c, hc, hmem⟩
    unfold tagChar at hmem
    split at hmem
    · simp at hmem
    split at hmem
    · simp at hmem
    · obtain rfl := List.mem_singleton.mp hmem
      exact h hc
  have hline := Text.newline_notMem_natText loc.line
  simp only [fragment, String.toList_append, String.toList_ofList, List.mem_append, not_or]
  exact ⟨⟨hfile, by decide⟩, hline⟩

namespace Token

/-- The token stands for a literal within some limits that was found at an instruction. -/
structure FoundAt (token : Token) (f : Function) (i : InstId) : Prop where
  value : ∃ limits text bytes, encode? limits text bytes = some token.value
  provenance : f.provenance i = .ok token.provenance

variable {token : Token} {f : Function} {i : InstId}

theorem newline_notMem_provenance (h : f.provenance i = .ok token.provenance)
    (hloc : ∀ loc, f.nearestLoc? i = .ok (some loc) → '\n' ∉ loc.fileName.toList) :
    '\n' ∉ token.provenance.toList := by
  obtain ⟨loc?, hnearest, h⟩ := Checked.bind_eq_ok.mp h
  cases loc? with
  | none =>
    rw [← Checked.pure_eq_ok.mp h]
    decide
  | some loc =>
    rw [← Checked.pure_eq_ok.mp h]
    exact DebugLoc.newline_notMem_fragment (hloc loc hnearest)

theorem newline_notMem_tag (h : '\n' ∉ token.provenance.toList) : '\n' ∉ token.tag.toList := by
  have hclass : '\n' ∉ token.origin.tagClass.text.toList := by
    cases token.origin.tagClass <;> decide
  unfold tag
  split
  · next n _ =>
    have hslot := Text.newline_notMem_natText n
    simp only [String.toList_append, List.mem_append, not_or]
    exact ⟨⟨⟨⟨hclass, by decide⟩, hslot⟩, by decide⟩, h⟩
  · simp only [String.toList_append, List.mem_append, not_or]
    exact ⟨⟨hclass, by decide⟩, h⟩

theorem newline_notMem_tagFor (h : '\n' ∉ token.provenance.toList) (id : Nat) :
    '\n' ∉ (Dictionary.tagFor token id).toList := by
  have htag := newline_notMem_tag h
  have hdigits := Text.newline_notMem_hexField (max 8 (Text.hexLength id)) id
  simp only [Dictionary.tagFor, String.toList_append, String.toList_ofList, List.mem_append, not_or]
  exact ⟨⟨htag, by decide⟩, hdigits⟩

/-- What a token is recorded as stays on its line. -/
theorem FoundAt.fitsLine (h : token.FoundAt f i)
    (hloc : ∀ loc, f.nearestLoc? i = .ok (some loc) → '\n' ∉ loc.fileName.toList) (id : Nat) :
    Dictionary.Record.FitsLine ⟨token.value, Dictionary.tagFor token id⟩ := by
  obtain ⟨limits, text, bytes, hvalue⟩ := h.value
  have hunmarked := (quotable_of_encode? hvalue).unmarked
  refine ⟨newline_notMem_tagFor (newline_notMem_provenance h.provenance hloc) id, ?_, ?_⟩
  · exact fun hmem => absurd (hunmarked _ hmem).1 (by decide)
  · exact fun hmem => (hunmarked _ hmem).2.2.1 rfl

end Token

namespace Dictionary

variable {d : Dictionary} {requests : List Request}

/-- The file of a dictionary is a line for the header and one for each entry, from which that entry
is read back. What is recorded are tokens found at instructions whose locations have no line feed in
the name of the file. -/
theorem file_reads_back (hd : collect requests = .ok d)
    (hfound : ∀ request ∈ requests, ∀ r, request.Names r → ∃ token id f i,
      r = ⟨token.value, tagFor token id⟩ ∧ token.FoundAt f i ∧
        ∀ loc, f.nearestLoc? i = .ok (some loc) → '\n' ∉ loc.fileName.toList)
    (dictType : DictType) (counter : CounterMode) (buildId : UInt64) :
    (∃ head, (header dictType counter buildId).toList = head ++ ['\n'] ∧
      Text.lines (d.render dictType counter buildId).toList =
        head :: (d.entries dictType).map Record.chars) ∧
      ∀ r ∈ d.entries dictType, readRecord r.chars = r := by
  have hfits : ∀ r ∈ d.entries dictType, r.FitsLine := by
    intro r hr
    obtain ⟨request, hrequest, hnames⟩ := (mem_collect hd).mp (mem_of_mem_entries hr)
    obtain ⟨token, id, f, i, rfl, htoken, hloc⟩ := hfound request hrequest r hnames
    exact htoken.fitsLine hloc id
  exact ⟨d.lines_render counter buildId hfits, fun r hr => readRecord_chars (hfits r hr).2.2⟩

end Dictionary

/-! ### A comparison in a file -/

/-- Compares a number with a constant, on the third line of a file. -/
def Function.located (file : String) : Function where
  name := "locate"
  params := [.i32]
  ret := .i1
  blocks := #[⟨"entry", [⟨0⟩], .ret (some (.inst ⟨0⟩))⟩]
  layout := [⟨0⟩]
  insts := #[{
    kind := .icmp .eq (.arg 0) (.ofWord 32 0x12345678)
    loc := some ⟨file, 3⟩
    block := some ⟨0⟩ }]

/-- The token of the constant. -/
def Token.located (file : String) : Token where
  value := "\\x78\\x56\\x34\\x12"
  provenance := (DebugLoc.mk file 3).fragment
  origin := .comparedInteger

theorem Token.located_foundAt (file : String) :
    (Token.located file).FoundAt (.located file) ⟨0⟩ where
  value := by
    have hvalue : encode? {} false [0x78, 0x56, 0x34, 0x12] = some "\\x78\\x56\\x34\\x12" := by
      decide +kernel
    exact ⟨_, _, _, hvalue⟩
  provenance := rfl

/-- A file name may have the marks between a tag and its token. -/
theorem Dictionary.marked_file_reads_back :
    ∃ d, collect [.one (.located "/src/my-lib/a=\"b.c") 1] = .ok d ∧
      '\n' ∉ (DebugLoc.mk "/src/my-lib/a=\"b.c" 3).fileName.toList ∧
      (d.entries .normal).map Record.tag = ["C2U_a=\"b_c_3_00000001"] ∧
      ∀ r ∈ d.entries .normal, readRecord r.chars = r := by
  have hd : collect [.one (.located "/src/my-lib/a=\"b.c") 1] =
      .ok (({} : Dictionary).record (.located "/src/my-lib/a=\"b.c") 1) := rfl
  have hname : '\n' ∉ (DebugLoc.mk "/src/my-lib/a=\"b.c" 3).fileName.toList := by decide +kernel
  refine ⟨_, hd, hname, by decide +kernel, (file_reads_back hd ?_ .normal .classic 0).2⟩
  intro request hrequest r hnames
  obtain rfl := List.mem_singleton.mp hrequest
  refine ⟨_, 1, _, ⟨0⟩, hnames, Token.located_foundAt _, fun loc hloc => ?_⟩
  obtain rfl := Option.some.inj (Except.ok.inj hloc)
  exact hname

/-- A line feed in a file name parts the line of an entry, so that the file has three lines for a
header and one entry. -/
theorem Dictionary.parted_file_not_read_back :
    (Token.located "/src/a\nb.c").FoundAt (.located "/src/a\nb.c") ⟨0⟩ ∧
      ∃ d, collect [.one (.located "/src/a\nb.c") 1] = .ok d ∧ (d.entries .normal).length = 1 ∧
        (Text.lines (d.render .normal .classic 0).toList).length = 3 := by
  refine ⟨Token.located_foundAt _, _, rfl, by decide +kernel, ?_⟩
  rw [Dictionary.length_lines_render]
  decide +kernel

end EdgeProbe
