import EdgeProbe.Json.Value
import EdgeProbe.Proofs.Json.ReadBack
import EdgeProbe.Sorted.Map

/-!
# Reading fields back

What the readers of scalars, lists, maps and optional values make of what has been written, and what
can be said of anything that they read.
-/

namespace EdgeProbe

namespace SortedMap

variable {κ α : Type} [Ord κ] [Std.TransOrd κ]

/-- A key that comes after all others is held at the end. -/
theorem updateEntries_of_lt {key : κ} {f : Option α → α} {entries : List (κ × α)}
    (h : ∀ e ∈ entries, compare e.1 key = .lt) :
    updateEntries key f entries = entries ++ [(key, f none)] := by
  induction entries with
  | nil => rfl
  | cons e rest ih =>
    obtain ⟨hfirst, hrest⟩ := List.forall_mem_cons.mp h
    have hgt : compare key e.1 = .gt := Std.OrientedCmp.gt_iff_lt.mpr hfirst
    simp [updateEntries, hgt, ih hrest]

/-- A map is what its entries come to. -/
theorem ofList_entries (m : SortedMap κ α) : ofList m.entries = m := by
  have hfold : ∀ (rest : List (κ × α)) (acc : SortedMap κ α),
      (acc.entries ++ rest).Pairwise (fun a b => compare a.1 b.1 = .lt) →
        (rest.foldl (fun m pair => m.put pair.1 pair.2) acc).entries = acc.entries ++ rest := by
    intro rest
    induction rest with
    | nil => simp
    | cons e rest ih =>
      intro acc h
      have hput : (acc.put e.1 e.2).entries = acc.entries ++ [e] :=
        updateEntries_of_lt fun e' he' => (List.pairwise_append.mp h).2.2 e' he' e List.mem_cons_self
      rw [List.foldl_cons, ih _ (by rw [hput, List.append_assoc]; exact h), hput, List.append_assoc]
      rfl
  exact eq_of_entries (hfold m.entries empty m.ascending)

theorem mem_put [Std.LawfulEqOrd κ] {m : SortedMap κ α} {key : κ} {a : α} {e : κ × α}
    (h : e ∈ (m.put key a).entries) : e = (key, a) ∨ e ∈ m.entries := by
  have hentries : ∀ entries : List (κ × α), e ∈ updateEntries key (fun _ => a) entries →
      e = (key, a) ∨ e ∈ entries := by
    intro entries
    induction entries with
    | nil => simp [updateEntries]
    | cons first rest ih =>
      intro he
      unfold updateEntries at he
      split at he
      · exact List.mem_cons.mp he
      · next heq =>
        rw [Std.LawfulEqCmp.eq_of_compare heq]
        exact (List.mem_cons.mp he).imp_right (List.mem_cons_of_mem _)
      · obtain rfl | he := List.mem_cons.mp he
        · exact .inr List.mem_cons_self
        · exact (ih he).imp_right (List.mem_cons_of_mem _)
  exact hentries m.entries h

/-- What is collected is among the pairs. -/
theorem mem_ofList [Std.LawfulEqOrd κ] {pairs : List (κ × α)} {e : κ × α}
    (h : e ∈ (ofList pairs).entries) : e ∈ pairs := by
  have hfold : ∀ (pairs : List (κ × α)) (acc : SortedMap κ α),
      e ∈ (pairs.foldl (fun m pair => m.put pair.1 pair.2) acc).entries →
        e ∈ acc.entries ∨ e ∈ pairs := by
    intro pairs
    induction pairs with
    | nil => exact fun acc h => .inl h
    | cons pair rest ih =>
      intro acc h
      obtain hacc | hrest := ih _ h
      · obtain rfl | hacc := mem_put hacc
        · exact .inr List.mem_cons_self
        · exact .inl hacc
      · exact .inr (List.mem_cons_of_mem _ hrest)
  exact (hfold pairs empty h).resolve_left List.not_mem_nil

end SortedMap

namespace Json

variable {α β : Type}

@[simp] theorem plain_ofNat (n : Nat) : (ofNat n).Plain := .nat n

@[simp] theorem plain_str (text : String) : (Json.str text).Plain := .str text

@[simp] theorem plain_bool (value : Bool) : (Json.bool value).Plain := .bool value

@[simp] theorem plain_arr {items : List Json} : (Json.arr items).Plain ↔ ∀ item ∈ items, item.Plain := by
  refine ⟨fun h => ?_, .arr⟩
  cases h with
  | arr h => exact h

@[simp] theorem plain_obj {members : List (Name × Json)} :
    (Json.obj members).Plain ↔ ∀ m ∈ members, m.2.Plain := by
  refine ⟨fun h => ?_, .obj⟩
  cases h with
  | obj h => exact h

theorem plain_ofList {encode : α → Json} (h : ∀ a, (encode a).Plain) (items : List α) :
    (ofList encode items).Plain := by
  simp [ofList, h]

theorem plain_ofOption {encode : α → Json} (h : ∀ a, (encode a).Plain) (value : Option α) :
    (ofOption encode value).Plain := by
  cases value with
  | none => exact .null
  | some a => exact h a

@[simp] theorem written_ofNat (n : Nat) : (ofNat n).written = ofNat n := by
  simp [ofNat, written]

theorem written_ofNat_ne_null (n : Nat) : (ofNat n).written ≠ .null := by
  rw [written_ofNat]
  exact Json.noConfusion

@[simp] theorem written_str (text : String) : (Json.str text).written = .str text := by
  simp [written]

@[simp] theorem written_bool (value : Bool) : (Json.bool value).written = .bool value := by
  simp [written]

@[simp] theorem written_arr (items : List Json) :
    (Json.arr items).written = .arr (items.map written) := by
  simp [written]

@[simp] theorem written_obj (members : List (Name × Json)) :
    (Json.obj members).written = .obj (members.map fun m => (.ofText m.1.text, m.2.written)) := by
  simp [written]

@[simp] theorem text_ofText (text : String) : (Name.ofText text).text = text := rfl

/-! ## What has been written -/

theorem natBelow?_ofNat {bound n : Nat} (h : n < bound) : natBelow? bound (ofNat n) = some n := by
  simp [natBelow?, ofNat, h]

theorem nat32?_ofNat {n : Nat} (h : n < UInt32.size) : nat32? (ofNat n) = some n :=
  natBelow?_ofNat h

theorem nat64?_ofNat {n : Nat} (h : n < UInt64.size) : nat64? (ofNat n) = some n :=
  natBelow?_ofNat h

@[simp] theorem word?_ofNat (w : UInt64) : word? (ofNat w.toNat) = some w := by
  rw [word?, nat64?_ofNat w.toNat_lt]
  simp

@[simp] theorem byte?_ofNat (b : UInt8) : byte? (ofNat b.toNat) = some b := by
  rw [byte?, natBelow?_ofNat b.toNat_lt]
  simp

@[simp] theorem string?_str (text : String) : string? (.str text) = some text := rfl

@[simp] theorem bool?_bool (value : Bool) : bool? (.bool value) = some value := rfl

/-- A list is read back if each of its items is. -/
theorem list?_written {item? : Json → Option α} {encode : α → Json} {items : List α}
    (h : ∀ a ∈ items, item? (encode a).written = some a) :
    list? item? (ofList encode items).written = some items := by
  rw [ofList, written_arr, List.map_map]
  unfold list?
  induction items with
  | nil => rfl
  | cons a rest ih =>
    obtain ⟨ha, hrest⟩ := List.forall_mem_cons.mp h
    simp [ha, ih hrest]

theorem list?_ofBytes (data : List UInt8) : list? byte? (ofBytes data).written = some data :=
  list?_written fun (byte : UInt8) (_ : byte ∈ data) => by
    rw [written_ofNat, byte?_ofNat]

theorem option?_written {value? : Json → Option α} {encode : α → Json} {value : Option α}
    (hnull : ∀ a ∈ value, (encode a).written ≠ .null)
    (h : ∀ a ∈ value, value? (encode a).written = some a) :
    option? value? (ofOption encode value).written = some value := by
  cases value with
  | none => rfl
  | some a =>
    have hnull := hnull a rfl
    have h := h a rfl
    change option? value? (encode a).written = _
    unfold option?
    split
    · next heq => exact absurd heq hnull
    · rw [h]
      rfl

theorem plain_members {member : α → Name × Json} (h : ∀ a, (member a).2.Plain) (entries : List α) :
    (Json.obj (entries.map member)).Plain := by
  simp only [plain_obj, List.forall_mem_map]
  exact fun a _ => h a

/-- A map is read back if its keys and what they stand for are. -/
theorem map?_written {key? : Name → Option α} {value? : Json → Option β}
    {member : α × β → Name × Json} {entries : List (α × β)}
    (hkey : ∀ e ∈ entries, key? (.ofText (member e).1.text) = some e.1)
    (hvalue : ∀ e ∈ entries, value? (member e).2.written = some e.2) :
    map? key? value? (Json.obj (entries.map member)).written = some entries := by
  rw [written_obj, List.map_map]
  change (entries.map fun e => (Name.ofText (member e).1.text, (member e).2.written)).mapM
    (fun m => do return (← key? m.1, ← value? m.2)) = some entries
  induction entries with
  | nil => rfl
  | cons e rest ih =>
    obtain ⟨hfirst, hkeys⟩ := List.forall_mem_cons.mp hkey
    obtain ⟨hhead, hvalues⟩ := List.forall_mem_cons.mp hvalue
    rw [List.map_cons, List.mapM_cons, ih hkeys hvalues]
    simp only [hfirst, hhead]
    rfl

/-! ## What is read -/

/-- All that is read is like that. -/
def Reads (value? : Json → Option α) (P : α → Prop) : Prop :=
  ∀ j a, value? j = some a → P a

theorem reads_natBelow? (bound : Nat) : Reads (natBelow? bound) (· < bound) := by
  intro j n h
  unfold natBelow? at h
  split at h
  · split at h
    · next hbound => exact Option.some.inj h ▸ hbound.2
    · cases h
  · cases h

theorem reads_nat32? : Reads nat32? (· < UInt32.size) :=
  reads_natBelow? _

theorem reads_nat64? : Reads nat64? (· < UInt64.size) :=
  reads_natBelow? _

theorem Reads.list {item? : Json → Option α} {P : α → Prop} (h : Reads item? P) :
    Reads (list? item?) fun items => ∀ a ∈ items, P a := by
  intro j items hitems
  cases j with
  | arr values =>
    replace hitems : values.mapM item? = some items := hitems
    induction values generalizing items with
    | nil =>
      obtain rfl := Option.some.inj hitems
      exact fun _ ha => absurd ha List.not_mem_nil
    | cons value rest ih =>
      rw [List.mapM_cons] at hitems
      obtain ⟨a, ha, hitems⟩ := Option.bind_eq_some_iff.mp hitems
      obtain ⟨as, has, hitems⟩ := Option.bind_eq_some_iff.mp hitems
      obtain rfl := Option.some.inj hitems
      exact List.forall_mem_cons.mpr ⟨h value a ha, ih as has⟩
  | _ => cases hitems

theorem Reads.pair {first? : Json → Option α} {second? : Json → Option β} {P : α → Prop}
    {Q : β → Prop} (hfirst : Reads first? P) (hsecond : Reads second? Q) :
    Reads (pair? first? second?) fun p => P p.1 ∧ Q p.2 := by
  intro j p h
  unfold pair? at h
  split at h
  · next a b =>
    obtain ⟨x, hx, h⟩ := Option.bind_eq_some_iff.mp h
    obtain ⟨y, hy, h⟩ := Option.bind_eq_some_iff.mp h
    obtain rfl := Option.some.inj h
    exact ⟨hfirst a x hx, hsecond b y hy⟩
  · cases h

theorem Reads.option {value? : Json → Option α} {P : α → Prop} (h : Reads value? P) :
    Reads (option? value?) fun value => ∀ a ∈ value, P a := by
  intro j value hvalue
  unfold option? at hvalue
  split at hvalue
  · obtain rfl := Option.some.inj hvalue
    exact fun _ ha => absurd ha (Option.not_mem_none _)
  · obtain ⟨a, ha, rfl⟩ := Option.map_eq_some_iff.mp hvalue
    exact fun b hb => Option.mem_some.mp hb ▸ h _ a ha

theorem Reads.map {key? : Name → Option α} {value? : Json → Option β} {P : α → Prop} {Q : β → Prop}
    (hkey : ∀ name a, key? name = some a → P a) (hvalue : Reads value? Q) :
    Reads (map? key? value?) fun entries => ∀ e ∈ entries, P e.1 ∧ Q e.2 := by
  intro j entries h
  cases j with
  | obj members =>
    replace h : members.mapM (fun m => do return (← key? m.1, ← value? m.2)) =
      some entries := h
    induction members generalizing entries with
    | nil =>
      obtain rfl := Option.some.inj h
      exact fun _ he => absurd he List.not_mem_nil
    | cons m rest ih =>
      rw [List.mapM_cons] at h
      simp only [Option.bind_eq_bind, Option.bind_eq_some_iff, Option.pure_def,
        Option.some.injEq] at h
      obtain ⟨e, ⟨a, ha, b, hb, rfl⟩, others, hothers, rfl⟩ := h
      refine List.forall_mem_cons.mpr ⟨⟨hkey _ _ ha, hvalue _ _ hb⟩, ih others ?_⟩
      simpa only [Option.bind_eq_bind, Option.pure_def] using hothers
  | _ => cases h

namespace Record

variable {r : Record} {field : String} {value? : Json → Option α} {P : α → Prop} {a : α}

theorem of_required (h : Reads value? P) (ha : r.required field value? = some a) : P a := by
  obtain ⟨j, -, hj⟩ := Option.bind_eq_some_iff.mp ha
  exact h j a hj

theorem lt_of_required {n : Nat} (h : r.required field nat32? = some n) : n < UInt32.size :=
  of_required (P := (· < UInt32.size)) reads_nat32? h

theorem of_withDefault (h : Reads value? P) {default : α} (hdefault : P default)
    (ha : r.withDefault field default value? = some a) : P a := by
  unfold withDefault at ha
  split at ha
  · next j _ => exact h j a ha
  · exact Option.some.inj ha ▸ hdefault

theorem of_optional (h : Reads value? P) {value : Option α}
    (hvalue : r.withDefault field none (option? value?) = some value) : ∀ a ∈ value, P a :=
  of_withDefault h.option (fun _ ha => absurd ha (Option.not_mem_none _)) hvalue

theorem of_optionalList (h : Reads value? P) {items : List α}
    (hitems : r.withDefault field [] (list? value?) = some items) : ∀ a ∈ items, P a :=
  of_withDefault h.list (fun _ ha => absurd ha List.not_mem_nil) hitems

theorem of_nullable (h : Reads value? P) {value : Option α}
    (hvalue : r.nullable field value? = some value) : ∀ a ∈ value, P a := by
  unfold nullable at hvalue
  split at hvalue
  · next j _ => exact h.option j value hvalue
  · split at hvalue
    · obtain rfl := Option.some.inj hvalue
      exact fun _ ha => absurd ha (Option.not_mem_none _)
    · cases hvalue

end Record

end Json

end EdgeProbe
