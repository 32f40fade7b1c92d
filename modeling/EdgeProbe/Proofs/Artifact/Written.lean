import Mathlib
import EdgeProbe.Artifact.Write
import EdgeProbe.Proofs.Artifact.Places
import EdgeProbe.Proofs.Artifact.Texts
import EdgeProbe.Word.Lemmas

/-!
# Artifacts are written all or none

The files that are due are created in a tree where none of them is yet; where one of them is, nothing
changes.
-/

namespace EdgeProbe

namespace FileWork

variable {α β : Type}

/-- The work on a tree ends in a result and leaves a tree, whatever was reported before. -/
def Ends (x : FileWork (StateM FileTree) α) (t : FileTree) (r : Except WriteError α)
    (t' : FileTree) : Prop :=
  ∀ records, ∃ records', x records t = ((r, records'), t')

variable {t t₁ t' : FileTree} {x : FileWork (StateM FileTree) α}
  {k : α → FileWork (StateM FileTree) β} {r : Except WriteError β}

theorem ends_pure (a : α) : Ends (pure a) t (.ok a) t :=
  fun records => ⟨records, rfl⟩

theorem ends_throw (e : WriteError) : Ends (throw e : FileWork (StateM FileTree) α) t (.error e) t :=
  fun records => ⟨records, rfl⟩

theorem ends_note (record : Log.Record) : Ends (BuildArtifacts.note record) t (.ok ()) t :=
  fun records => ⟨records ++ [record], rfl⟩

theorem ends_lift (action : StateM FileTree α) :
    Ends (liftM action : FileWork (StateM FileTree) α) t (.ok (action t).1) (action t).2 :=
  fun records => ⟨records, rfl⟩

theorem Ends.bind {a : α} (hx : Ends x t (.ok a) t₁) (hk : Ends (k a) t₁ r t') :
    Ends (x >>= k) t r t' := by
  intro records
  obtain ⟨records₁, hx⟩ := hx records
  obtain ⟨records', hk⟩ := hk records₁
  refine ⟨records', ?_⟩
  simpa only [Bind.bind, ExceptT.bind, ExceptT.mk, StateT.bind, hx, ExceptT.bindCont] using hk

theorem Ends.stop {e : WriteError} (hx : Ends x t (.error e) t') : Ends (x >>= k) t (.error e) t' := by
  intro records
  obtain ⟨records', hx⟩ := hx records
  refine ⟨records', ?_⟩
  simp only [Bind.bind, ExceptT.bind, ExceptT.mk, StateT.bind, hx, ExceptT.bindCont]
  rfl

end FileWork

namespace FileTree

variable {change : FileTree → Except FileError FileTree} {t t' : FileTree} {e : FileError}

theorem keep_of_ok (h : change t = .ok t') : keep change t = (.ok (), t') := by
  simp only [keep, h]

theorem keep_of_error (h : change t = .error e) : keep change t = (.error e, t) := by
  simp only [keep, h]

end FileTree

namespace BuildArtifacts

open FileWork FileTree

variable {t t₁ t' : FileTree} {path : String} {place : List String} {file : String × List UInt8}
  {due : List (String × List UInt8)}

/-! ## The steps -/

/-- Nothing changes while files are looked for, and the first that is there is named. -/
theorem refusePresent_ends (due : List (String × List UInt8)) (t : FileTree) :
    Ends (refusePresent access due) t
      (match due.find? fun file => t.isPresent file.1 with
        | some file => .error (.present file.1)
        | none => .ok ()) t := by
  induction due with
  | nil => exact ends_pure ()
  | cons file rest ih =>
    have hask : Ends (liftM (access.isPresent file.1) : FileWork (StateM FileTree) Bool) t
        (.ok (t.isPresent file.1)) t := ends_lift _
    rw [List.find?_cons]
    cases hpresent : t.isPresent file.1 with
    | true =>
      rw [hpresent] at hask
      exact hask.bind (.stop (ends_throw _))
    | false =>
      rw [hpresent] at hask
      exact hask.bind ih

/-- There is no file at the place of a path any more, and all else is as it was. -/
structure Cleared (path : String) (t t' : FileTree) : Prop where
  directories : t.SameDirectories t'
  gone : ∀ place, t.spot? path = some place → t'.node? place = none
  others : ∀ place, t.spot? path ≠ some place → t'.node? place = t.node? place

theorem removeStale_ends (path : String) (t : FileTree) :
    (∃ t', Ends (removeStale access path) t (.ok ()) t' ∧ Cleared path t t') ∨
      ((∀ place, t.spot? path = some place → t.node? place = some .directory) ∧
        ∃ e, Ends (removeStale access path) t (.error (.failed .delete path e)) t) := by
  have hask : Ends (liftM (access.remove path) : FileWork (StateM FileTree) _) t
      (.ok (keep (·.remove path) t).1) (keep (·.remove path) t).2 := ends_lift (access.remove path)
  cases hresult : t.remove path with
  | ok t' =>
    rw [keep_of_ok hresult] at hask
    obtain ⟨place, hplace⟩ := exists_spot_of_remove hresult
    rw [remove_at hplace] at hresult
    match hnode : t.node? place with
    | none =>
      rw [hnode] at hresult
      cases hresult
    | some .directory =>
      rw [hnode] at hresult
      cases hresult
    | some (.file content) =>
      rw [hnode] at hresult
      obtain rfl := Except.ok.inj hresult
      have hne := place_ne_nil hplace
      refine .inl ⟨_, hask.bind (ends_note _), sameDirectories_erase hne hnode, ?_, ?_⟩
      · intro p hp
        rw [hplace] at hp
        rw [node?_erase hne, if_pos (Option.some.inj hp).symm]
      · intro p hp
        rw [node?_erase hne, if_neg]
        rintro rfl
        exact hp hplace
  | error e =>
    rw [keep_of_error hresult] at hask
    by_cases hkind : e.kind = .notFound
    · refine .inl ⟨t, hask.bind ?_, .refl t, fun place => node?_of_remove hresult hkind,
        fun _ _ => rfl⟩
      simp only [hkind]
      exact ends_pure ()
    · refine .inr ⟨fun place hplace => ?_, e, hask.bind ?_⟩
      · rw [remove_at hplace] at hresult
        match hnode : t.node? place with
        | none =>
          rw [hnode] at hresult
          obtain rfl : FileError.noEntry = e := Except.error.inj hresult
          exact absurd rfl hkind
        | some .directory => rfl
        | some (.file _) =>
          rw [hnode] at hresult
          cases hresult
      · simp only [beq_iff_eq, hkind, if_false]
        exact ends_throw _

theorem createFile_ends_at (hplace : t.spot? file.1 = some place) (hnode : t.node? place = none) :
    Ends (createFile access file) t (.ok ()) (t.put place (.file file.2)) := by
  have hask : Ends (liftM (access.create file.1 file.2) : FileWork (StateM FileTree) _) t
      (.ok (keep (·.create file.1 file.2) t).1) (keep (·.create file.1 file.2) t).2 :=
    ends_lift (access.create file.1 file.2)
  have hresult : t.create file.1 file.2 = .ok (t.put place (.file file.2)) := by
    rw [create_at hplace, hnode]
  rw [keep_of_ok hresult] at hask
  exact hask.bind (ends_pure ())

theorem createFile_ends_nowhere (hspot : t.spot? file.1 = none)
    (habsent : t.isPresent file.1 = false) :
    ∃ e, Ends (createFile access file) t (.error (.failed .create file.1 e)) t := by
  have hask : Ends (liftM (access.create file.1 file.2) : FileWork (StateM FileTree) _) t
      (.ok (keep (·.create file.1 file.2) t).1) (keep (·.create file.1 file.2) t).2 :=
    ends_lift (access.create file.1 file.2)
  cases hresult : t.create file.1 file.2 with
  | ok t' =>
    obtain ⟨place, hplace⟩ := exists_spot_of_create hresult
    rw [hspot] at hplace
    cases hplace
  | error e =>
    rw [keep_of_error hresult] at hask
    have hkind : e.kind ≠ .alreadyExists := by
      intro hkind
      rw [isPresent_of_create hresult hkind] at habsent
      cases habsent
    refine ⟨e, hask.bind ?_⟩
    simp only [beq_iff_eq, hkind, if_false]
    exact ends_throw _

/-! ## The files that are due -/

/-- The tree has got the files, each where its path leads, and nothing else has changed. -/
structure Filled (due : List (String × List UInt8)) (t t' : FileTree) : Prop where
  directories : t.SameDirectories t'
  files : ∀ file ∈ due, ∃ place, t.spot? file.1 = some place ∧ t.node? place = none ∧
    t'.node? place = some (.file file.2)
  others : ∀ place, (∀ file ∈ due, t.spot? file.1 ≠ some place) → t'.node? place = t.node? place

theorem Filled.cons {rest : List (String × List UInt8)} (hplace : t.spot? file.1 = some place)
    (hnode : t.node? place = none)
    (hapart : ∀ file' ∈ rest, t.spot? file'.1 ≠ some place)
    (h : Filled rest (t.put place (.file file.2)) t') : Filled (file :: rest) t t' := by
  have hne := place_ne_nil hplace
  have hdirs := sameDirectories_put file.2 hne hnode
  refine ⟨hdirs.trans h.directories, List.forall_mem_cons.mpr ⟨?_, fun file' hfile' => ?_⟩, ?_⟩
  · refine ⟨place, hplace, hnode, ?_⟩
    rw [h.others place fun file' hfile' => hdirs.spot? file'.1 ▸ hapart file' hfile',
      node?_put hne, if_pos rfl]
  · obtain ⟨place', hplace', hnode', hfile⟩ := h.files file' hfile'
    rw [hdirs.spot?] at hplace'
    rw [node?_put hne, if_neg] at hnode'
    · exact ⟨place', hplace', hnode', hfile⟩
    · rintro rfl
      exact hapart file' hfile' hplace'
  · intro p hp
    obtain ⟨hfirst, hrest⟩ := List.forall_mem_cons.mp hp
    rw [h.others p fun file' hfile' => hdirs.spot? file'.1 ▸ hrest file' hfile', node?_put hne,
      if_neg]
    rintro rfl
    exact hfirst hplace

/-- Files whose places are different and empty are all created, unless one of them has no place. -/
theorem createAll_ends (habsent : ∀ file ∈ due, t.isPresent file.1 = false)
    (hapart : (due.filterMap fun file => t.spot? file.1).Nodup) :
    (∃ t', Ends (due.forM (createFile access)) t (.ok ()) t' ∧ Filled due t t') ∨
      ((∃ file ∈ due, t.spot? file.1 = none) ∧ ∃ path e t',
        Ends (due.forM (createFile access)) t (.error (.failed .create path e)) t') := by
  induction due generalizing t with
  | nil => exact .inl ⟨t, ends_pure (), .refl t, by simp, fun _ _ => rfl⟩
  | cons file rest ih =>
    obtain ⟨hfirst, hrest⟩ := List.forall_mem_cons.mp habsent
    cases hplace : t.spot? file.1 with
    | none =>
      obtain ⟨e, hends⟩ := createFile_ends_nowhere hplace hfirst
      exact .inr ⟨⟨file, List.mem_cons_self, hplace⟩, file.1, e, t, hends.stop⟩
    | some place =>
      have hnode : t.node? place = none := by
        rw [isPresent_at hplace] at hfirst
        simpa using hfirst
      simp only [List.filterMap_cons, hplace, List.nodup_cons] at hapart
      have hothers : ∀ file' ∈ rest, t.spot? file'.1 ≠ some place := fun file' hfile' heq =>
        hapart.1 (List.mem_filterMap.mpr ⟨file', hfile', heq⟩)
      have hdirs := sameDirectories_put file.2 (place_ne_nil hplace) hnode
      have hends := createFile_ends_at hplace hnode
      have habsent' : ∀ file' ∈ rest,
          (t.put place (.file file.2)).isPresent file'.1 = false := by
        intro file' hfile'
        cases hplace' : t.spot? file'.1 with
        | none => exact hdirs.isPresent hplace' (hrest file' hfile')
        | some place' =>
          have hne : place' ≠ place := by
            rintro rfl
            exact hothers file' hfile' hplace'
          rw [isPresent_at (hdirs.spot? _ ▸ hplace'), node?_put (place_ne_nil hplace), if_neg hne,
            ← isPresent_at hplace']
          exact hrest file' hfile'
      have hapart' : (rest.filterMap fun file' =>
          (t.put place (.file file.2)).spot? file'.1).Nodup := by
        simpa only [hdirs.spot?] using hapart.2
      obtain ⟨t', hall, hfilled⟩ | ⟨⟨file', hfile', hnowhere⟩, path, e, t', hstop⟩ :=
        ih habsent' hapart'
      · exact .inl ⟨t', hends.bind hall, hfilled.cons hplace hnode hothers⟩
      · rw [hdirs.spot?] at hnowhere
        exact .inr ⟨⟨file', List.mem_cons_of_mem _ hfile', hnowhere⟩, path, e, t', hends.bind hstop⟩

/-! ## The whole set -/

/-- What writing the artifacts to a tree ends in, and the tree that is left. -/
def writeTo (a : BuildArtifacts) (paths : OutputPaths) (t : FileTree) :
    Except WriteError Unit × FileTree :=
  let ((result, _), t') := (a.write access paths).run.run [] t
  (result, t')

/-- A file is due: the three numbers always, the dictionary of a fuzzing build if it has entries and
the source map of a coverage build if it has lines. -/
def IsDue (a : BuildArtifacts) (paths : OutputPaths) (path : String) : Prop :=
  path = paths.mapSize ∨ path = paths.blockCount ∨ path = paths.buildId ∨
    (a.buildType = .fuzzing ∧ a.dictionary.isEmpty = false ∧ path = paths.dictionary) ∨
    (a.buildType = .coverage ∧ paths.sourceMap = some path ∧
      ∃ lines, a.sourceMap = some lines ∧ lines.isEmpty = false)

theorem mem_textFiles {a : BuildArtifacts} {paths : OutputPaths} {file : String × String} :
    file ∈ a.textFiles paths ↔
      (a.buildType = .fuzzing ∧ a.dictionary.isEmpty = false ∧
        file = (paths.dictionary, a.dictionaryText)) ∨
      (a.buildType = .coverage ∧ ∃ path lines, paths.sourceMap = some path ∧
        a.sourceMap = some lines ∧ lines.isEmpty = false ∧ file = (path, lines.render)) := by
  unfold textFiles
  cases a.buildType with
  | fuzzing => cases a.dictionary.isEmpty <;> simp
  | coverage =>
    cases paths.sourceMap with
    | none => simp
    | some path =>
      cases a.sourceMap with
      | none => simp
      | some lines => cases hlines : lines.isEmpty <;> simp [hlines]

section

variable (a : BuildArtifacts) (paths : OutputPaths)

theorem mapSize_mem_dueFiles :
    (paths.mapSize, leBytes 4 (UInt64.ofNat a.mapSize)) ∈ a.dueFiles paths :=
  List.mem_append_left _ List.mem_cons_self

theorem blockCount_mem_dueFiles :
    (paths.blockCount, leBytes 4 (UInt64.ofNat a.blockCount)) ∈ a.dueFiles paths :=
  List.mem_append_left _ (List.mem_cons_of_mem _ List.mem_cons_self)

theorem buildId_mem_dueFiles : (paths.buildId, leBytes 8 a.buildId) ∈ a.dueFiles paths :=
  List.mem_append_left _ (List.mem_cons_of_mem _ (List.mem_cons_of_mem _ List.mem_cons_self))

end

theorem mem_dueFiles_of_text {a : BuildArtifacts} {paths : OutputPaths} {text : String × String}
    (h : text ∈ a.textFiles paths) : (text.1, text.2.toUTF8.toList) ∈ a.dueFiles paths :=
  List.mem_append_right _ (List.mem_map.mpr ⟨text, h, rfl⟩)

theorem isDue_iff {a : BuildArtifacts} {paths : OutputPaths} {path : String} :
    a.IsDue paths path ↔ ∃ file ∈ a.dueFiles paths, file.1 = path := by
  constructor
  · rintro (rfl | rfl | rfl | ⟨hbuild, hentries, rfl⟩ | ⟨hbuild, hpath, lines, hlines, hsome⟩)
    · exact ⟨_, a.mapSize_mem_dueFiles paths, rfl⟩
    · exact ⟨_, a.blockCount_mem_dueFiles paths, rfl⟩
    · exact ⟨_, a.buildId_mem_dueFiles paths, rfl⟩
    · exact ⟨_, mem_dueFiles_of_text (mem_textFiles.mpr (.inl ⟨hbuild, hentries, rfl⟩)), rfl⟩
    · exact ⟨_, mem_dueFiles_of_text
        (mem_textFiles.mpr (.inr ⟨hbuild, path, lines, hpath, hlines, hsome, rfl⟩)), rfl⟩
  · rintro ⟨file, hfile, rfl⟩
    obtain hnumber | htext := List.mem_append.mp hfile
    · obtain rfl | rfl | rfl : file = _ ∨ file = _ ∨ file = _ := by simpa using hnumber
      · exact .inl rfl
      · exact .inr (.inl rfl)
      · exact .inr (.inr (.inl rfl))
    · obtain ⟨text, hmem, rfl⟩ := List.mem_map.mp htext
      obtain ⟨hbuild, hentries, rfl⟩ | ⟨hbuild, path, lines, hpath, hlines, hsome, rfl⟩ :=
        mem_textFiles.mp hmem
      · exact .inr (.inr (.inr (.inl ⟨hbuild, hentries, rfl⟩)))
      · exact .inr (.inr (.inr (.inr ⟨hbuild, hpath, lines, hlines, hsome⟩)))

/-- The artifacts are in the tree, and nothing else has changed in it. A text is read back line by line,
so what it is to be read back as must not break a line. -/
structure Written (a : BuildArtifacts) (paths : OutputPaths) (t t' : FileTree) : Prop where
  created : ∀ path, a.IsDue paths path → ∃ place content, t.spot? path = some place ∧
    t.node? place = none ∧ t'.node? place = some (.file content)
  others : ∀ place, (∀ path, a.IsDue paths path → t.spot? path ≠ some place) →
    t'.node? place =
      if a.buildType = .coverage ∧ t.spot? paths.dictionary = some place then none
      else t.node? place
  mapSize : ∃ bytes, t'.find paths.mapSize = .ok (.file bytes) ∧ bytes.length = 4 ∧
    (ofLeBytes bytes).toNat = a.mapSize
  blockCount : ∃ bytes, t'.find paths.blockCount = .ok (.file bytes) ∧ bytes.length = 4 ∧
    (ofLeBytes bytes).toNat = a.blockCount
  buildId : ∃ bytes, t'.find paths.buildId = .ok (.file bytes) ∧ bytes.length = 8 ∧
    ofLeBytes bytes = a.buildId
  dictionary : a.buildType = .fuzzing → a.dictionary.isEmpty = false →
    t'.readText paths.dictionary = .ok a.dictionaryText ∧
      ((∀ r ∈ a.dictionary.entries a.dictType, r.FitsLine) →
        Dictionary.recordsOfText a.dictionaryText = a.dictionary.entries a.dictType)
  sourceMap : a.buildType = .coverage → ∀ path lines, paths.sourceMap = some path →
    a.sourceMap = some lines → lines.isEmpty = false →
    t'.readText path = .ok lines.render ∧
      ((∀ line ∈ lines.lines, '\n' ∉ line.2.toList) → SourceMap.ofText lines.render = lines)

/-- What is left of writing when nothing is in the way. -/
def createDue (a : BuildArtifacts) (paths : OutputPaths) : FileWork (StateM FileTree) Unit := do
  (a.dueFiles paths).forM (createFile access)
  if a.buildType == .fuzzing && !a.dictionary.isEmpty then
    note {
      level := .info
      message := "Created " ++ toString (a.dictionary.entries a.dictType).length ++
        " entries in dictionary" }

theorem write_eq (a : BuildArtifacts) (paths : OutputPaths) :
    a.write access paths = (do
      refusePresent access (a.dueFiles paths)
      if a.buildType == .coverage then do
        removeStale access paths.dictionary
        a.createDue paths
      else a.createDue paths) :=
  rfl

theorem createDue_ends (a : BuildArtifacts) (paths : OutputPaths)
    (habsent : ∀ file ∈ a.dueFiles paths, t.isPresent file.1 = false)
    (hapart : ((a.dueFiles paths).filterMap fun file => t.spot? file.1).Nodup) :
    (∃ t', Ends (a.createDue paths) t (.ok ()) t' ∧ Filled (a.dueFiles paths) t t') ∨
      ((∃ file ∈ a.dueFiles paths, t.spot? file.1 = none) ∧ ∃ path e t',
        Ends (a.createDue paths) t (.error (.failed .create path e)) t') := by
  obtain ⟨t', hall, hfilled⟩ | ⟨hnowhere, path, e, t', hstop⟩ := createAll_ends habsent hapart
  · refine .inl ⟨t', hall.bind ?_, hfilled⟩
    split
    · exact ends_note _
    · exact ends_pure ()
  · exact .inr ⟨hnowhere, path, e, t', hstop.stop⟩

/-- Removing a dictionary makes no other file appear. -/
theorem Cleared.isPresent (h : Cleared path t t') {other : String}
    (habsent : t.isPresent other = false) : t'.isPresent other = false := by
  cases hplace : t.spot? other with
  | none => exact h.directories.isPresent hplace habsent
  | some place =>
    rw [isPresent_at (h.directories.spot? _ ▸ hplace)]
    by_cases hpath : t.spot? path = some place
    · rw [h.gone place hpath]
      rfl
    · rw [h.others place hpath, ← isPresent_at hplace]
      exact habsent

/-- How writing ends: where a file is in the way nothing has changed, and otherwise all files are
there unless one of them could not be. -/
theorem write_ends (a : BuildArtifacts) (paths : OutputPaths) (t : FileTree)
    (hapart : ((a.dueFiles paths).filterMap fun file => t.spot? file.1).Nodup) :
    (∃ file ∈ a.dueFiles paths, t.isPresent file.1 = true ∧
      Ends (a.write access paths) t (.error (.present file.1)) t) ∨
    (∀ file ∈ a.dueFiles paths, t.isPresent file.1 = false) ∧
      ((∃ t₁ t', (if a.buildType = .coverage then Cleared paths.dictionary t t₁ else t₁ = t) ∧
          Filled (a.dueFiles paths) t₁ t' ∧ Ends (a.write access paths) t (.ok ()) t') ∨
        ((∃ file ∈ a.dueFiles paths, t.spot? file.1 = none) ∨
          a.buildType = .coverage ∧
            ∀ place, t.spot? paths.dictionary = some place → t.node? place = some .directory) ∧
          ∃ action path e t', Ends (a.write access paths) t (.error (.failed action path e)) t') := by
  have hrefuse := refusePresent_ends (a.dueFiles paths) t
  rw [write_eq]
  cases hfind : (a.dueFiles paths).find? fun file => t.isPresent file.1 with
  | some file =>
    rw [hfind] at hrefuse
    have hpresent : t.isPresent file.1 = true := by simpa using List.find?_some hfind
    exact .inl ⟨file, List.mem_of_find?_eq_some hfind, hpresent, hrefuse.stop⟩
  | none =>
    rw [hfind] at hrefuse
    have habsent : ∀ file ∈ a.dueFiles paths, t.isPresent file.1 = false := by
      simpa using List.find?_eq_none.mp hfind
    refine .inr ⟨habsent, ?_⟩
    cases hbuild : a.buildType with
    | fuzzing =>
      obtain ⟨t', hall, hfilled⟩ | ⟨hnowhere, path, e, t', hstop⟩ :=
        a.createDue_ends paths habsent hapart
      · exact .inl ⟨t, t', rfl, hfilled, hrefuse.bind hall⟩
      · exact .inr ⟨.inl hnowhere, .create, path, e, t', hrefuse.bind hstop⟩
    | coverage =>
      obtain ⟨t₁, hclear, hcleared⟩ | ⟨hnoFile, e, hstop⟩ := removeStale_ends paths.dictionary t
      · have hapart₁ : ((a.dueFiles paths).filterMap fun file => t₁.spot? file.1).Nodup := by
          simpa only [hcleared.directories.spot?] using hapart
        obtain ⟨t', hall, hfilled⟩ | ⟨⟨file, hfile, hnowhere⟩, path, e, t', hstop⟩ :=
          a.createDue_ends paths (fun file hfile => hcleared.isPresent (habsent file hfile)) hapart₁
        · exact .inl ⟨t₁, t', hcleared, hfilled, hrefuse.bind (hclear.bind hall)⟩
        · rw [hcleared.directories.spot?] at hnowhere
          exact .inr ⟨.inl ⟨file, hfile, hnowhere⟩, .create, path, e, t',
            hrefuse.bind (hclear.bind hstop)⟩
      · exact .inr ⟨.inr ⟨rfl, hnoFile⟩, .delete, paths.dictionary, e, t, hrefuse.bind hstop.stop⟩

theorem writeTo_of_ends {a : BuildArtifacts} {paths : OutputPaths} {r : Except WriteError Unit}
    (h : Ends (a.write access paths) t r t') : a.writeTo paths t = (r, t') := by
  obtain ⟨records, h⟩ := h []
  have hrun : (a.write access paths).run.run [] t = ((r, records), t') := h
  rw [writeTo, hrun]

theorem Filled.find {content : List UInt8} (h : Filled due t t') (hfile : (path, content) ∈ due) :
    t'.find path = .ok (.file content) := by
  obtain ⟨place, hplace, -, hnode⟩ := h.files _ hfile
  rw [find_at (h.directories.spot? _ ▸ hplace), hnode]

theorem Filled.readText {text : String} (h : Filled due t t')
    (htext : (path, text.toUTF8.toList) ∈ due) : t'.readText path = .ok text := by
  rw [FileTree.readText, h.find htext]
  simp only [bind, Except.bind, Text.decode?_toUTF8]
  rfl

/-- A number of four bytes is read back. -/
theorem toNat_ofLeBytes_leBytes {n : Nat} (h : n < 2 ^ 32) :
    (ofLeBytes (leBytes 4 (UInt64.ofNat n))).toNat = n := by
  rw [ofLeBytes_leBytes 4 (by decide), toNat_mask, UInt64.toNat_ofNat']
  omega

/-- Files that are created where the dictionary has been cleared away are the whole set. -/
theorem Filled.written {a : BuildArtifacts} {paths : OutputPaths} (hmap : a.mapSize < 2 ^ 32)
    (hcount : a.blockCount < 2 ^ 32) (habsent : ∀ file ∈ a.dueFiles paths, t.isPresent file.1 = false)
    (hcleared : if a.buildType = .coverage then Cleared paths.dictionary t t₁ else t₁ = t)
    (h : Filled (a.dueFiles paths) t₁ t') : a.Written paths t t' := by
  have hdirs : t.SameDirectories t₁ := by
    split at hcleared
    · exact hcleared.directories
    · exact hcleared ▸ .refl t
  refine ⟨?_, ?_, ⟨_, h.find (a.mapSize_mem_dueFiles paths), length_leBytes _ _,
    toNat_ofLeBytes_leBytes hmap⟩, ⟨_, h.find (a.blockCount_mem_dueFiles paths), length_leBytes _ _,
    toNat_ofLeBytes_leBytes hcount⟩, ⟨_, h.find (a.buildId_mem_dueFiles paths), length_leBytes _ _, ?_⟩,
    ?_, ?_⟩
  · intro path hpath
    obtain ⟨file, hfile, rfl⟩ := isDue_iff.mp hpath
    obtain ⟨place, hplace, -, hnode⟩ := h.files file hfile
    rw [hdirs.spot?] at hplace
    refine ⟨place, file.2, hplace, ?_, hnode⟩
    simpa [isPresent_at hplace] using habsent file hfile
  · intro place hplace
    have hothers : ∀ file ∈ a.dueFiles paths, t₁.spot? file.1 ≠ some place := fun file hfile =>
      hdirs.spot? file.1 ▸ hplace file.1 (isDue_iff.mpr ⟨file, hfile, rfl⟩)
    rw [h.others place hothers]
    split at hcleared
    · next hbuild =>
      split
      · next hgone => exact hcleared.gone place hgone.2
      · next hkept => exact hcleared.others place fun hgone => hkept ⟨hbuild, hgone⟩
    · next hbuild =>
      rw [hcleared, if_neg fun hgone => hbuild hgone.1]
  · rw [ofLeBytes_leBytes 8 le_rfl]
    rfl
  · intro hbuild hentries
    exact ⟨h.readText
      (mem_dueFiles_of_text (mem_textFiles.mpr (.inl ⟨hbuild, hentries, rfl⟩))),
      a.dictionary.recordsOfText_render a.counter a.buildId⟩
  · intro hbuild path lines hpath hlines hsome
    exact ⟨h.readText
      (mem_dueFiles_of_text (mem_textFiles.mpr (.inr ⟨hbuild, path, lines, hpath, hlines, hsome, rfl⟩))),
      lines.ofText_render⟩

/-- Where the files that are due have places of their own, they are written all or none: if one of
them is there already that is said and nothing has changed; if all is well exactly these files are
new and hold what the artifacts hold, and the dictionary that was there before a coverage build is
gone. The texts of the dictionary and of the source map are always those of the artifacts; they are
read back as what they tell if no record and no line has a line feed in it, and no token a quote. All
is well whenever the places are empty and the dictionary is no directory. -/
theorem writeTo_all_or_none (a : BuildArtifacts) (paths : OutputPaths) (t : FileTree)
    (hmap : a.mapSize < 2 ^ 32) (hcount : a.blockCount < 2 ^ 32)
    (hapart : ((a.dueFiles paths).filterMap fun file => t.spot? file.1).Nodup) :
    ((∃ path, (a.writeTo paths t).1 = .error (.present path)) ↔
      ∃ path, a.IsDue paths path ∧ t.isPresent path = true) ∧
    (∀ path, (a.writeTo paths t).1 = .error (.present path) → (a.writeTo paths t).2 = t) ∧
    ((a.writeTo paths t).1 = .ok () → a.Written paths t (a.writeTo paths t).2) ∧
    ((∀ path, a.IsDue paths path → ∃ place, t.spot? path = some place ∧ t.node? place = none) →
      (a.buildType = .coverage → ∃ place, t.spot? paths.dictionary = some place ∧
        t.node? place ≠ some .directory) →
      (a.writeTo paths t).1 = .ok ()) := by
  obtain ⟨file, hfile, hpresent, hends⟩ | ⟨habsent, ⟨t₁, t', hcleared, hfilled, hends⟩ |
    ⟨hnowhere, action, path, e, t', hends⟩⟩ := a.write_ends paths t hapart
  · rw [writeTo_of_ends hends]
    have hdue := isDue_iff.mpr ⟨file, hfile, rfl⟩
    refine ⟨⟨fun _ => ⟨file.1, hdue, hpresent⟩, fun _ => ⟨file.1, rfl⟩⟩, fun _ _ => rfl, nofun, ?_⟩
    intro hplaces
    obtain ⟨place, hplace, hnode⟩ := hplaces file.1 hdue
    rw [isPresent_at hplace, hnode] at hpresent
    cases hpresent
  · rw [writeTo_of_ends hends]
    refine ⟨⟨nofun, ?_⟩, nofun, fun _ => hfilled.written hmap hcount habsent hcleared,
      fun _ _ => rfl⟩
    rintro ⟨path, hdue, hpresent⟩
    obtain ⟨file, hfile, rfl⟩ := isDue_iff.mp hdue
    rw [habsent file hfile] at hpresent
    cases hpresent
  · rw [writeTo_of_ends hends]
    refine ⟨⟨nofun, ?_⟩, nofun, nofun, fun hplaces hdictionary => ?_⟩
    · rintro ⟨path, hdue, hpresent⟩
      obtain ⟨file, hfile, rfl⟩ := isDue_iff.mp hdue
      rw [habsent file hfile] at hpresent
      cases hpresent
    · obtain ⟨file, hfile, hspot⟩ | ⟨hbuild, hdirectory⟩ := hnowhere
      · obtain ⟨place, hplace, -⟩ := hplaces file.1 (isDue_iff.mpr ⟨file, hfile, rfl⟩)
        rw [hspot] at hplace
        cases hplace
      · obtain ⟨place, hplace, hnode⟩ := hdictionary hbuild
        exact absurd (hdirectory place hplace) hnode

/-- The artifacts of a coverage build with one probe. -/
def ofOneProbe : BuildArtifacts :=
  { mapSize := 4194303, blockCount := 2, buildId := 0x0102030405060708, buildType := .coverage
    dictType := .normal, counter := .classic, dictionary := {}, sourceMap := some ⟨[(1, "a.c:7")]⟩ }

/-- A tree with a dictionary from before. -/
def outdated : FileTree :=
  FileTree.ofList [("d", some [35, 10])]

def fivePaths : OutputPaths :=
  { mapSize := "m", blockCount := "b", buildId := "i", dictionary := "d", sourceMap := some "s" }

theorem ofOneProbe_all_or_none :
    (ofOneProbe.writeTo fivePaths outdated).1 = .ok () ∧
      ofOneProbe.Written fivePaths outdated (ofOneProbe.writeTo fivePaths outdated).2 := by
  have hmap : outdated.spot? fivePaths.mapSize = some ["m"] ∧ outdated.node? ["m"] = none :=
    ⟨by cbv, by cbv⟩
  have hcount : outdated.spot? fivePaths.blockCount = some ["b"] ∧ outdated.node? ["b"] = none :=
    ⟨by cbv, by cbv⟩
  have hid : outdated.spot? fivePaths.buildId = some ["i"] ∧ outdated.node? ["i"] = none :=
    ⟨by cbv, by cbv⟩
  have hlines : outdated.spot? "s" = some ["s"] ∧ outdated.node? ["s"] = none := ⟨by cbv, by cbv⟩
  have hdictionary : outdated.spot? fivePaths.dictionary = some ["d"] ∧
      outdated.node? ["d"] ≠ some .directory := ⟨by cbv, by cbv; exact fun h => by cases h⟩
  have hapart : ((ofOneProbe.dueFiles fivePaths).filterMap fun file => outdated.spot? file.1).Nodup := by
    change ([outdated.spot? fivePaths.mapSize, outdated.spot? fivePaths.blockCount,
      outdated.spot? fivePaths.buildId, outdated.spot? "s"].filterMap id).Nodup
    rw [hmap.1, hcount.1, hid.1, hlines.1]
    decide
  obtain ⟨-, -, hwritten, hdone⟩ :=
    writeTo_all_or_none ofOneProbe fivePaths outdated (by decide) (by decide) hapart
  have hplaces : ∀ path, ofOneProbe.IsDue fivePaths path →
      ∃ place, outdated.spot? path = some place ∧ outdated.node? place = none := by
    rintro path (rfl | rfl | rfl | ⟨hbuild, -⟩ | ⟨-, hpath, -⟩)
    · exact ⟨_, hmap⟩
    · exact ⟨_, hcount⟩
    · exact ⟨_, hid⟩
    · cases hbuild
    · obtain rfl := Option.some.inj hpath
      exact ⟨_, hlines⟩
  have hok := hdone hplaces fun _ => ⟨_, hdictionary⟩
  exact ⟨hok, hwritten hok⟩

/-- The artifacts of a fuzzing build without probes or tokens. -/
def ofNoProbe : BuildArtifacts :=
  { mapSize := 65536, blockCount := 1, buildId := 0, buildType := .fuzzing
    dictType := .normal, counter := .classic, dictionary := {}, sourceMap := none }

/-- Paths that are not kept apart. -/
def onePath : OutputPaths :=
  { mapSize := "n", blockCount := "n", buildId := "i", dictionary := "d", sourceMap := none }

/-- Of two files of one path the first is created before the second is found to be there. -/
theorem onePath_half_written :
    (ofNoProbe.writeTo onePath {}).1 = .error (.present "n") ∧
      (ofNoProbe.writeTo onePath {}).2 ≠ {} := by
  constructor
  · cbv
  · have hnode : (ofNoProbe.writeTo onePath {}).2.node? ["n"] = some (.file [0, 0, 1, 0]) := by cbv
    intro heq
    rw [heq] at hnode
    cases hnode

end BuildArtifacts

end EdgeProbe
