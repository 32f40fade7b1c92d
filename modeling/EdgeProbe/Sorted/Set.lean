/-!
# Sets in the order of their members

A `SortedSet` lists its members in strictly ascending order, so sets with the same members are equal
(`SortedSet.ext_mem`), however they came about.
-/

namespace EdgeProbe

structure SortedSet (κ : Type) [Ord κ] where
  members : List κ
  ascending : members.Pairwise (fun a b => compare a b = .lt)
  deriving DecidableEq

namespace SortedSet

variable {κ : Type} [Ord κ]

def empty : SortedSet κ := ⟨[], .nil⟩

instance : Inhabited (SortedSet κ) := ⟨empty⟩

theorem eq_of_members : {a b : SortedSet κ} → a.members = b.members → a = b
  | ⟨_, _⟩, ⟨_, _⟩, rfl => rfl

/-- Adds a member that is not there yet. -/
def insertInto (key : κ) : List κ → List κ
  | [] => [key]
  | k :: rest =>
    match compare key k with
    | .lt => key :: k :: rest
    | .eq => k :: rest
    | .gt => k :: insertInto key rest

theorem insertInto_cons (key k : κ) (rest : List κ) :
    insertInto key (k :: rest) =
      match compare key k with
      | .lt => key :: k :: rest
      | .eq => k :: rest
      | .gt => k :: insertInto key rest :=
  rfl

theorem mem_insertInto [Std.LawfulEqOrd κ] {key k : κ} :
    {members : List κ} → (k ∈ insertInto key members ↔ k = key ∨ k ∈ members)
  | [] => List.mem_cons
  | k' :: rest => by
    rw [insertInto_cons]
    split
    next => simp
    next heq =>
      obtain rfl := Std.LawfulEqCmp.eq_of_compare heq
      simp
    next =>
      simp only [List.mem_cons, mem_insertInto]
      exact or_left_comm

theorem forall_insertInto {P : κ → Prop} {key : κ} (hkey : P key) :
    {members : List κ} → (∀ k ∈ members, P k) → ∀ k ∈ insertInto key members, P k
  | [], _ => List.forall_mem_singleton.mpr hkey
  | k :: rest, h => by
    have hk : P k := h k List.mem_cons_self
    have hrest : ∀ k ∈ rest, P k := fun j hj => h j (List.mem_cons_of_mem _ hj)
    rw [insertInto_cons]
    split
    · simpa [hkey] using h
    · exact h
    · simpa [hk] using forall_insertInto hkey hrest

theorem pairwise_insertInto [Std.TransOrd κ] {key : κ} :
    {members : List κ} → members.Pairwise (fun a b => compare a b = .lt) →
    (insertInto key members).Pairwise (fun a b => compare a b = .lt)
  | [], _ => List.pairwise_singleton _ _
  | k :: rest, h => by
    obtain ⟨hk, hrest⟩ := List.pairwise_cons.mp h
    rw [insertInto_cons]
    split
    next hlt =>
      refine List.pairwise_cons.mpr ⟨fun j hj => ?_, h⟩
      rcases List.mem_cons.mp hj with rfl | hj
      · exact hlt
      · exact Std.TransCmp.lt_trans hlt (hk j hj)
    next => exact h
    next hgt =>
      have hlt : compare k key = .lt := Std.OrientedCmp.gt_iff_lt.mp hgt
      exact List.pairwise_cons.mpr
        ⟨forall_insertInto (P := fun j => compare k j = .lt) hlt hk, pairwise_insertInto hrest⟩

def insert [Std.TransOrd κ] (s : SortedSet κ) (key : κ) : SortedSet κ :=
  ⟨insertInto key s.members, pairwise_insertInto s.ascending⟩

def ofList [Std.TransOrd κ] (keys : List κ) : SortedSet κ :=
  keys.foldl insert empty

def size (s : SortedSet κ) : Nat :=
  s.members.length

def isEmpty (s : SortedSet κ) : Bool :=
  s.members.isEmpty

instance : Membership κ (SortedSet κ) := ⟨fun s k => k ∈ s.members⟩

theorem mem_insert [Std.TransOrd κ] [Std.LawfulEqOrd κ] {s : SortedSet κ} {key k : κ} :
    k ∈ s.insert key ↔ k = key ∨ k ∈ s :=
  mem_insertInto

theorem nodup_members [Std.TransOrd κ] (s : SortedSet κ) : s.members.Nodup :=
  s.ascending.imp fun {x y} hxy heq => by
    subst heq
    simp at hxy

/-- Sets are told apart by their members. -/
theorem ext_mem [Std.TransOrd κ] {a b : SortedSet κ} (h : ∀ k, k ∈ a ↔ k ∈ b) : a = b := by
  refine eq_of_members (List.Perm.eq_of_pairwise (fun x y _ _ hxy hyx => ?_) a.ascending
    b.ascending ((List.perm_ext_iff_of_nodup a.nodup_members b.nodup_members).mpr h))
  exact absurd hyx (Std.OrientedCmp.not_lt_of_lt hxy)

end SortedSet

end EdgeProbe
