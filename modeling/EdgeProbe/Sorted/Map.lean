/-!
# Maps in the order of their keys

A `SortedMap` lists its entries by strictly ascending key, so a listing needs no sorting. Look-ups
see an update at its key alone (`SortedMap.get?_update`).
-/

namespace EdgeProbe

structure SortedMap (κ α : Type) [Ord κ] where
  entries : List (κ × α)
  ascending : entries.Pairwise (fun a b => compare a.1 b.1 = .lt)
  deriving DecidableEq

namespace SortedMap

variable {κ α : Type} [Ord κ]

def empty : SortedMap κ α := ⟨[], .nil⟩

instance : Inhabited (SortedMap κ α) := ⟨empty⟩

theorem eq_of_entries : {a b : SortedMap κ α} → a.entries = b.entries → a = b
  | ⟨_, _⟩, ⟨_, _⟩, rfl => rfl

/-- Replaces what is held under a key, or holds something under a new one. -/
def updateEntries (key : κ) (f : Option α → α) : List (κ × α) → List (κ × α)
  | [] => [(key, f none)]
  | (k, a) :: rest =>
    match compare key k with
    | .lt => (key, f none) :: (k, a) :: rest
    | .eq => (k, f (some a)) :: rest
    | .gt => (k, a) :: updateEntries key f rest

theorem updateEntries_cons (key k : κ) (f : Option α → α) (a : α) (rest : List (κ × α)) :
    updateEntries key f ((k, a) :: rest) =
      match compare key k with
      | .lt => (key, f none) :: (k, a) :: rest
      | .eq => (k, f (some a)) :: rest
      | .gt => (k, a) :: updateEntries key f rest :=
  rfl

theorem forall_lt_cons [Std.TransOrd κ] {key k : κ} {a : α} {rest : List (κ × α)}
    (hlt : compare key k = .lt) (h : ∀ e ∈ rest, compare k e.1 = .lt) :
    ∀ e ∈ (k, a) :: rest, compare key e.1 = .lt := by
  intro e he
  rcases List.mem_cons.mp he with rfl | he
  · exact hlt
  · exact Std.TransCmp.lt_trans hlt (h e he)

/-- What holds of the key and of all keys before holds of all keys after. -/
theorem forall_updateEntries {P : κ → Prop} {key : κ} {f : Option α → α} (hkey : P key) :
    {entries : List (κ × α)} → (∀ e ∈ entries, P e.1) →
    ∀ e ∈ updateEntries key f entries, P e.1
  | [], _ => List.forall_mem_singleton.mpr hkey
  | (k, a) :: rest, h => by
    have hrest : ∀ e ∈ rest, P e.1 := fun e he => h e (List.mem_cons_of_mem _ he)
    have hk : P k := h (k, a) List.mem_cons_self
    rw [updateEntries_cons]
    split
    · simpa [hkey] using h
    · simpa [hk] using hrest
    · simpa [hk] using forall_updateEntries hkey hrest

theorem pairwise_updateEntries [Std.TransOrd κ] {key : κ} {f : Option α → α} :
    {entries : List (κ × α)} → entries.Pairwise (fun a b => compare a.1 b.1 = .lt) →
    (updateEntries key f entries).Pairwise (fun a b => compare a.1 b.1 = .lt)
  | [], _ => List.pairwise_singleton _ _
  | (k, a) :: rest, h => by
    obtain ⟨hk, hrest⟩ := List.pairwise_cons.mp h
    rw [updateEntries_cons]
    split
    next hlt => exact List.pairwise_cons.mpr ⟨forall_lt_cons hlt hk, h⟩
    next => exact List.pairwise_cons.mpr ⟨hk, hrest⟩
    next hgt =>
      have hlt : compare k key = .lt := Std.OrientedCmp.gt_iff_lt.mp hgt
      exact List.pairwise_cons.mpr
        ⟨forall_updateEntries (P := fun k' => compare k k' = .lt) hlt hk,
          pairwise_updateEntries hrest⟩

def update [Std.TransOrd κ] (m : SortedMap κ α) (key : κ) (f : Option α → α) : SortedMap κ α :=
  ⟨updateEntries key f m.entries, pairwise_updateEntries m.ascending⟩

/-- Holds `a` under the key, whatever was there. -/
def put [Std.TransOrd κ] (m : SortedMap κ α) (key : κ) (a : α) : SortedMap κ α :=
  m.update key fun _ => a

/-- Collects pairs; of those with one key the last counts. -/
def ofList [Std.TransOrd κ] (pairs : List (κ × α)) : SortedMap κ α :=
  pairs.foldl (fun m pair => m.put pair.1 pair.2) empty

variable [DecidableEq κ]

def get? (m : SortedMap κ α) (key : κ) : Option α :=
  m.entries.lookup key

def contains (m : SortedMap κ α) (key : κ) : Bool :=
  (m.get? key).isSome

def erase (m : SortedMap κ α) (key : κ) : SortedMap κ α :=
  ⟨m.entries.filter fun e => e.1 != key, m.ascending.filter _⟩

@[simp] theorem get?_empty (key : κ) : (empty : SortedMap κ α).get? key = none := rfl

omit [Ord κ] in
theorem lookup_cons_eq_ite (k k' : κ) (a : α) (rest : List (κ × α)) :
    ((k', a) :: rest).lookup k = if k = k' then some a else rest.lookup k := by
  by_cases h : k = k'
  · simp [h]
  · simp [List.lookup_cons, h, beq_false_of_ne h]

/-- A key that comes before all others is not there. -/
theorem lookup_eq_none_of_lt [Std.TransOrd κ] {k : κ} :
    {entries : List (κ × α)} → (∀ e ∈ entries, compare k e.1 = .lt) → entries.lookup k = none
  | [], _ => rfl
  | (k', a) :: rest, h => by
    have hne : k ≠ k' := by
      rintro rfl
      simpa using h (k, a) List.mem_cons_self
    rw [lookup_cons_eq_ite, if_neg hne]
    exact lookup_eq_none_of_lt fun e he => h e (List.mem_cons_of_mem _ he)

theorem lookup_updateEntries [Std.TransOrd κ] [Std.LawfulEqOrd κ] {key : κ} {f : Option α → α}
    (k : κ) : {entries : List (κ × α)} →
    entries.Pairwise (fun a b => compare a.1 b.1 = .lt) →
    (updateEntries key f entries).lookup k =
      if k = key then some (f (entries.lookup key)) else entries.lookup k
  | [], _ => lookup_cons_eq_ite k key (f none) []
  | (k', a) :: rest, h => by
    obtain ⟨hk, hrest⟩ := List.pairwise_cons.mp h
    rw [updateEntries_cons]
    split
    next hlt => rw [lookup_cons_eq_ite, lookup_eq_none_of_lt (forall_lt_cons hlt hk)]
    next heq =>
      obtain rfl := Std.LawfulEqCmp.eq_of_compare heq
      simp only [lookup_cons_eq_ite]
      split <;> rfl
    next hgt =>
      have hne : key ≠ k' := by rintro rfl; simp at hgt
      simp only [lookup_cons_eq_ite, lookup_updateEntries k hrest, if_neg hne]
      by_cases h : k = k'
      · simp [h, hne.symm]
      · simp [h]

theorem get?_update [Std.TransOrd κ] [Std.LawfulEqOrd κ] (m : SortedMap κ α) (key : κ)
    (f : Option α → α) (k : κ) :
    (m.update key f).get? k = if k = key then some (f (m.get? key)) else m.get? k :=
  lookup_updateEntries k m.ascending

theorem get?_put [Std.TransOrd κ] [Std.LawfulEqOrd κ] (m : SortedMap κ α) (key : κ) (a : α)
    (k : κ) : (m.put key a).get? k = if k = key then some a else m.get? k :=
  get?_update m key _ k

end SortedMap

end EdgeProbe
