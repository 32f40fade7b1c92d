import Mathlib.Tactic
import EdgeProbe.Artifact.FileTree
import EdgeProbe.Proofs.Outcome

/-!
# Where paths lead in a tree of files

A path is followed through directories only, so it leads to the same place in trees with the same
directories. `spot?` is the place of the plain file that a path names, whether the file is there or
not, and what it is to find, to create and to remove a file is said by it.
-/

namespace EdgeProbe

namespace SortedMap

variable {κ α : Type} [Ord κ] [DecidableEq κ]

theorem get?_erase (m : SortedMap κ α) (key k : κ) :
    (m.erase key).get? k = if k = key then none else m.get? k := by
  have hlookup : ∀ entries : List (κ × α),
      (entries.filter fun e => e.1 != key).lookup k = if k = key then none else entries.lookup k := by
    intro entries
    induction entries with
    | nil => simp
    | cons e rest ih =>
      obtain ⟨k', a⟩ := e
      rw [List.filter_cons]
      by_cases hk' : k' = key
      · subst hk'
        rw [if_neg (by simp), ih, lookup_cons_eq_ite]
        split <;> rfl
      · rw [if_pos (by simpa using hk'), lookup_cons_eq_ite, lookup_cons_eq_ite, ih]
        by_cases hk : k = key
        · subst hk
          simp [Ne.symm hk']
        · simp [hk]
  exact hlookup m.entries

end SortedMap

namespace FileTree

variable {t t' : FileTree} {path name : String} {place p : List String} {g : Target}
  {content : List UInt8} {e : FileError}

theorem node?_put (hplace : place ≠ []) (node : FileNode) (p : List String) :
    (t.put place node).node? p = if p = place then some node else t.node? p := by
  unfold node? put
  rw [SortedMap.get?_put]
  by_cases hp : p = place
  · subst hp
    simp [hplace]
  · simp [hp]

theorem node?_erase (hplace : place ≠ []) (p : List String) :
    (t.erase place).node? p = if p = place then none else t.node? p := by
  unfold node? erase
  rw [SortedMap.get?_erase]
  by_cases hp : p = place
  · subst hp
    simp [hplace]
  · simp [hp]

/-! ## Following a path -/

/-- The same directories are in both trees. -/
def SameDirectories (t t' : FileTree) : Prop :=
  ∀ p, t.node? p = some .directory ↔ t'.node? p = some .directory

theorem SameDirectories.refl (t : FileTree) : t.SameDirectories t :=
  fun _ => .rfl

theorem SameDirectories.symm (h : t.SameDirectories t') : t'.SameDirectories t :=
  fun p => (h p).symm

theorem SameDirectories.trans {t'' : FileTree} (h : t.SameDirectories t')
    (h' : t'.SameDirectories t'') : t.SameDirectories t'' :=
  fun p => (h p).trans (h' p)

theorem lookUp_eq_ok {node : Option FileNode} :
    t.lookUp place name = .ok node ↔
      name.utf8ByteSize ≤ nameLimit ∧ t.node? (place ++ [name]) = node := by
  unfold lookUp
  split
  · next h => simp [Nat.not_le.mpr h]
  · next h => simp [Nat.not_lt.mp h]

/-- A step down a path succeeds in both trees or in neither, and leads to the same place. -/
theorem SameDirectories.descend (h : t.SameDirectories t') {component : String} :
    t.descend place component = .ok p → t'.descend place component = .ok p := by
  intro hp
  unfold FileTree.descend at hp ⊢
  split at hp
  · next hdot => simpa [hdot] using hp
  next hdot =>
  split at hp
  · next hdots => simpa [hdot, hdots] using hp
  next hdots =>
  obtain ⟨node, hnode, hp⟩ := Checked.bind_eq_ok.mp hp
  rw [lookUp_eq_ok] at hnode
  obtain ⟨hsize, hnode⟩ := hnode
  cases node with
  | none => cases hp
  | some node =>
    cases node with
    | file _ => cases hp
    | directory =>
      rw [if_neg hdot, if_neg hdots]
      have hlook : t'.lookUp place component = .ok (some .directory) := by
        rw [lookUp_eq_ok]
        exact ⟨hsize, (h _).mp hnode⟩
      exact Checked.bind_eq_ok.mpr ⟨_, hlook, hp⟩

theorem SameDirectories.foldlM_descend (h : t.SameDirectories t') {components : List String} :
    components.foldlM t.descend place = .ok p → components.foldlM t'.descend place = .ok p := by
  induction components generalizing place with
  | nil => exact id
  | cons component rest ih =>
    rw [List.foldlM_cons, List.foldlM_cons]
    intro hp
    obtain ⟨next, hnext, hp⟩ := Checked.bind_eq_ok.mp hp
    exact Checked.bind_eq_ok.mpr ⟨next, h.descend hnext, ih hp⟩

theorem target_eq (t : FileTree) (path : String) :
    t.target path =
      if path.toList.contains '\x00' then .error .nulInPath
      else if pathLimit < path.utf8ByteSize then .error .nameTooLong
      else if path.toList.head? == some '/' then outside path
      else match (componentsOf path).getLast? with
        | none => .error .noEntry
        | some name => do
          let parent ← (componentsOf path).dropLast.foldlM t.descend []
          return ⟨parent, name, path.toList.getLast? == some '/'⟩ := by
  unfold target
  cases path.toList.contains '\x00' with
  | true => rfl
  | false =>
    by_cases hlong : pathLimit < path.utf8ByteSize
    · simp only [hlong, if_true]
      rfl
    · simp only [hlong, if_false]
      rfl

theorem SameDirectories.target (h : t.SameDirectories t') (hg : t.target path = .ok g) :
    t'.target path = .ok g := by
  rw [target_eq] at hg ⊢
  split at hg
  · cases hg
  next hnul =>
  split at hg
  · cases hg
  next hlong =>
  rw [if_neg hnul, if_neg hlong]
  split at hg
  · next hroot => rwa [if_pos hroot]
  next hroot =>
  rw [if_neg hroot]
  cases hlast : (componentsOf path).getLast? with
  | none =>
    rw [hlast] at hg
    cases hg
  | some name =>
    rw [hlast] at hg
    obtain ⟨parent, hparent, hg⟩ := Checked.bind_eq_ok.mp hg
    exact Checked.bind_eq_ok.mpr ⟨parent, h.foldlM_descend hparent, hg⟩

/-! ## Plain files -/

/-- The place of the plain file that a path names. -/
def spot? (t : FileTree) (path : String) : Option (List String) :=
  match t.target path with
  | .ok g => if g.isDots || g.slash || nameLimit < g.name.utf8ByteSize then none else some g.place
  | .error _ => none

theorem spot?_eq_some :
    t.spot? path = some place ↔ ∃ g, t.target path = .ok g ∧ g.isDots = false ∧ g.slash = false ∧
      g.name.utf8ByteSize ≤ nameLimit ∧ g.place = place := by
  unfold spot?
  cases t.target path with
  | error e => simp
  | ok g => simp [and_assoc]

theorem spot?_of_lookUp {node : Option FileNode} (hg : t.target path = .ok g)
    (hdots : g.isDots = false) (hslash : g.slash = false)
    (hnode : t.lookUp g.parent g.name = .ok node) : t.spot? path = some g.place := by
  rw [lookUp_eq_ok] at hnode
  rw [spot?_eq_some]
  exact ⟨g, hg, hdots, hslash, hnode.1, rfl⟩

/-- A new file is no directory. -/
theorem sameDirectories_put (content : List UInt8) (hplace : place ≠ [])
    (hnode : t.node? place = none) : t.SameDirectories (t.put place (.file content)) := by
  intro p
  rw [node?_put hplace]
  split
  · next heq => simp [heq, hnode]
  · rfl

theorem sameDirectories_erase (hplace : place ≠ []) (hnode : t.node? place = some (.file content)) :
    t.SameDirectories (t.erase place) := by
  intro p
  rw [node?_erase hplace]
  split
  · next heq => simp [heq, hnode]
  · rfl

theorem place_ne_nil (h : t.spot? path = some place) : place ≠ [] := by
  rw [spot?_eq_some] at h
  obtain ⟨g, -, -, -, -, rfl⟩ := h
  simp [Target.place]

/-- Paths name the same files in trees with the same directories. -/
theorem SameDirectories.spot? (h : t.SameDirectories t') (path : String) :
    t'.spot? path = t.spot? path := by
  ext place
  rw [spot?_eq_some, spot?_eq_some]
  constructor
  · rintro ⟨g, hg, hrest⟩
    exact ⟨g, h.symm.target hg, hrest⟩
  · rintro ⟨g, hg, hrest⟩
    exact ⟨g, h.target hg, hrest⟩

section

variable (h : t.spot? path = some place)
include h

/-- The path ends in a plain name, which leads to the place. -/
theorem target_at :
    ∃ g, t.target path = .ok g ∧ g.isDots = false ∧ g.slash = false ∧
      t.lookUp g.parent g.name = .ok (t.node? place) ∧ g.place = place := by
  rw [spot?_eq_some] at h
  obtain ⟨g, hg, hdots, hslash, hsize, rfl⟩ := h
  refine ⟨g, hg, hdots, hslash, ?_, rfl⟩
  rw [lookUp_eq_ok]
  exact ⟨hsize, rfl⟩

theorem find_at :
    t.find path = match t.node? place with
      | some node => .ok node
      | none => .error .noEntry := by
  obtain ⟨g, hg, hdots, hslash, hlook, rfl⟩ := target_at h
  rw [find, hg]
  simp only [bind, Except.bind, hdots, hlook, hslash]
  cases t.node? g.place with
  | none => rfl
  | some node => cases node <;> rfl

theorem isPresent_at : t.isPresent path = (t.node? place).isSome := by
  rw [isPresent, find_at h]
  cases t.node? place <;> rfl

/-- A file is created where there is nothing. -/
theorem create_at :
    t.create path content = match t.node? place with
      | some _ => .error .alreadyExists
      | none => .ok (t.put place (.file content)) := by
  obtain ⟨g, hg, hdots, hslash, hlook, rfl⟩ := target_at h
  rw [create, hg]
  simp only [bind, Except.bind, hdots, hlook, hslash]
  cases t.node? g.place <;> rfl

/-- A file is removed where there is one. -/
theorem remove_at :
    t.remove path = match t.node? place with
      | some .directory => .error .isDirectory
      | some (.file _) => .ok (t.erase place)
      | none => .error .noEntry := by
  obtain ⟨g, hg, hdots, hslash, hlook, rfl⟩ := target_at h
  rw [remove, hg]
  simp only [bind, Except.bind, hdots, hlook, hslash]
  cases t.node? g.place with
  | none => rfl
  | some node => cases node <;> rfl

end

theorem exists_spot_of_create (h : t.create path content = .ok t') :
    ∃ place, t.spot? path = some place := by
  obtain ⟨g, hg, h⟩ := Checked.bind_eq_ok.mp h
  cases hdots : g.isDots with
  | true => simp [hdots, throw, throwThe, MonadExceptOf.throw, bind, Except.bind] at h
  | false =>
    cases hslash : g.slash with
    | true => simp [hdots, hslash, throw, throwThe, MonadExceptOf.throw, bind, Except.bind] at h
    | false =>
      simp only [hdots, hslash] at h
      obtain ⟨node, hnode, h⟩ := Checked.bind_eq_ok.mp h
      exact ⟨g.place, spot?_of_lookUp hg hdots hslash hnode⟩

theorem exists_spot_of_remove (h : t.remove path = .ok t') :
    ∃ place, t.spot? path = some place := by
  obtain ⟨g, hg, h⟩ := Checked.bind_eq_ok.mp h
  cases hdots : g.isDots with
  | true => simp [hdots, throw, throwThe, MonadExceptOf.throw, bind, Except.bind] at h
  | false =>
    simp only [hdots] at h
    obtain ⟨node, hnode, h⟩ := Checked.bind_eq_ok.mp h
    cases hslash : g.slash with
    | true =>
      match node, h with
      | some (.file _), h => simp [hslash, throw, throwThe, MonadExceptOf.throw] at h
    | false => exact ⟨g.place, spot?_of_lookUp hg hdots hslash hnode⟩

/-! ## What goes wrong -/

/-- All errors of a computation are of this sort. -/
def FailsWith {α : Type} (sort : FileErrorKind → Prop) (x : Except FileError α) : Prop :=
  ∀ e, x = .error e → sort e.kind

theorem FailsWith.bind {α β : Type} {sort : FileErrorKind → Prop} {x : Except FileError α}
    {k : α → Except FileError β} (hx : FailsWith sort x) (hk : ∀ a, x = .ok a → FailsWith sort (k a)) :
    FailsWith sort (x >>= k) := by
  intro e he
  cases x with
  | ok a => exact hk a rfl e he
  | error e' =>
    obtain rfl : e' = e := Except.error.inj he
    exact hx e' rfl

theorem FailsWith.mono {α : Type} {kind : FileErrorKind} {sort : FileErrorKind → Prop}
    {x : Except FileError α} (hx : FailsWith (· = kind) x) (hkind : sort kind) : FailsWith sort x :=
  fun e he => hx e he ▸ hkind

theorem failsWith_error {α : Type} {sort : FileErrorKind → Prop} {e : FileError} (h : sort e.kind) :
    FailsWith sort (throw e : Except FileError α) := by
  intro e' he
  obtain rfl : e = e' := Except.error.inj he
  exact h

theorem failsWith_ok {α : Type} {sort : FileErrorKind → Prop} (a : α) :
    FailsWith sort (pure a : Except FileError α) :=
  fun _ he => nomatch he

theorem lookUp_failsWith : FailsWith (· = .other) (t.lookUp place name) := by
  unfold lookUp
  split
  · exact failsWith_error rfl
  · exact failsWith_ok _

theorem descend_failsWith {component : String} :
    FailsWith (· ≠ .alreadyExists) (t.descend place component) := by
  unfold descend
  split
  · exact failsWith_ok _
  split
  · exact failsWith_ok _
  refine .bind (lookUp_failsWith.mono (by decide)) fun node _ => ?_
  match node with
  | some .directory => exact failsWith_ok _
  | some (.file _) => exact failsWith_error (by decide)
  | none => exact failsWith_error (by decide)

theorem foldlM_descend_failsWith {components : List String} :
    FailsWith (· ≠ .alreadyExists) (components.foldlM t.descend place) := by
  induction components generalizing place with
  | nil => exact failsWith_ok _
  | cons component rest ih =>
    rw [List.foldlM_cons]
    exact .bind descend_failsWith fun _ _ => ih

theorem target_failsWith : FailsWith (· ≠ .alreadyExists) (t.target path) := by
  rw [target_eq]
  split
  · exact failsWith_error (by decide)
  split
  · exact failsWith_error (by decide)
  split
  · exact .bind foldlM_descend_failsWith fun _ _ => failsWith_ok _
  split
  · exact failsWith_error (by decide)
  · exact .bind foldlM_descend_failsWith fun _ _ => failsWith_ok _

/-- What is said to be there already is there. -/
theorem isPresent_of_create (h : t.create path content = .error e) (hkind : e.kind = .alreadyExists) :
    t.isPresent path = true := by
  cases hg : t.target path with
  | error e' =>
    rw [create, hg] at h
    obtain rfl : e' = e := Except.error.inj h
    exact absurd hkind (target_failsWith e' hg)
  | ok g =>
    rw [create, hg] at h
    unfold isPresent find
    rw [hg]
    cases hdots : g.isDots with
    | true => simp [hdots, bind, Except.bind, Except.toBool, pure, Except.pure]
    | false =>
      cases hslash : g.slash with
      | true =>
        simp only [bind, Except.bind, hdots, hslash] at h
        obtain rfl : FileError.isDirectory = e := Except.error.inj h
        cases hkind
      | false =>
        cases hnode : t.lookUp g.parent g.name with
        | error e' =>
          simp only [bind, Except.bind, hdots, hslash, hnode] at h
          obtain rfl : e' = e := Except.error.inj h
          rw [lookUp_failsWith e' hnode] at hkind
          cases hkind
        | ok node =>
          simp only [bind, Except.bind, hdots, hslash, hnode] at h ⊢
          match node, h with
          | some .directory, _ => rfl
          | some (.file _), _ => rfl

/-- What names no plain file is there in both trees or in neither. -/
theorem SameDirectories.isPresent (h : t.SameDirectories t') (hspot : t.spot? path = none)
    (habsent : t.isPresent path = false) : t'.isPresent path = false := by
  by_contra hpresent
  rw [Bool.not_eq_false] at hpresent
  unfold FileTree.isPresent find at hpresent
  cases hg : t'.target path with
  | error e' =>
    rw [hg] at hpresent
    cases hpresent
  | ok g =>
    have hg₀ := h.symm.target hg
    unfold FileTree.isPresent find at habsent
    rw [hg] at hpresent
    rw [hg₀] at habsent
    cases hdots : g.isDots with
    | true => simp [hdots, bind, Except.bind, Except.toBool, pure, Except.pure] at habsent
    | false =>
      by_cases hlong : nameLimit < g.name.utf8ByteSize
      · simp [hdots, lookUp, hlong, bind, Except.bind, Except.toBool] at hpresent
      have hlook (t : FileTree) :
          t.lookUp g.parent g.name = .ok (t.node? (g.parent ++ [g.name])) := by
        rw [lookUp_eq_ok]
        exact ⟨not_lt.mp hlong, rfl⟩
      cases hslash : g.slash with
      | false =>
        rw [spot?_of_lookUp hg₀ hdots hslash (hlook t)] at hspot
        cases hspot
      | true =>
        simp only [bind, Except.bind, hdots, hlook, hslash] at habsent hpresent
        match hnode : t'.node? (g.parent ++ [g.name]) with
        | none => simp [hnode, Except.toBool, throw, throwThe, MonadExceptOf.throw] at hpresent
        | some (.file _) => simp [hnode, Except.toBool, throw, throwThe, MonadExceptOf.throw] at hpresent
        | some .directory => simp [(h _).mpr hnode, Except.toBool, pure, Except.pure] at habsent

/-- What is not found when it shall be removed is not there. -/
theorem node?_of_remove (hremove : t.remove path = .error e) (hkind : e.kind = .notFound)
    (h : t.spot? path = some place) : t.node? place = none := by
  rw [remove_at h] at hremove
  match hnode : t.node? place with
  | none => rfl
  | some .directory =>
    rw [hnode] at hremove
    obtain rfl : FileError.isDirectory = e := Except.error.inj hremove
    cases hkind
  | some (.file _) =>
    rw [hnode] at hremove
    cases hremove

end FileTree

end EdgeProbe
