import Mathlib.Data.List.Nodup
import Mathlib.Tactic.Common
import EdgeProbe.Proofs.Code.Does
import EdgeProbe.Token.Annotations

/-!
# The slots of tokens

The tokens of one instruction are told apart by class and slot: of each class there is at most one
without a slot, and the others, all of origins that may have several, are numbered from zero in the
order they came in. Putting a token on an instruction keeps it that way, and so does taking tokens
away as long as none of them has a slot. Main statements: `Disciplined.attach?`,
`Disciplined.moveOrigin` and `Token.Disciplined.distinct`.
-/

namespace EdgeProbe

namespace Token

/-- The token has no slot and is of this class. -/
def isSingleOf (tagClass : TagClass) (t : Token) : Bool :=
  t.origin.tagClass == tagClass && t.slot.isNone

/-- The token has a slot and is of this class. -/
def isSlottedOf (tagClass : TagClass) (t : Token) : Bool :=
  t.origin.tagClass == tagClass && t.slot.isSome

/-- Of each class at most one token has no slot, and the others have the slots from zero on, in this
order and not more than the limit allows. -/
structure Disciplined (fanOut : Nat) (tokens : List Token) : Prop where
  single : ∀ tagClass, tokens.countP (isSingleOf tagClass) ≤ 1
  multiple : ∀ t ∈ tokens, t.slot.isSome = true → t.origin.isMultiple = true
  slots : ∀ tagClass, ∃ k ≤ fanOut,
    (tokens.filter (isSlottedOf tagClass)).map Token.slot = (List.range k).map some

variable {fanOut : Nat} {tokens : List Token} {t : Token}

theorem disciplined_nil : Disciplined fanOut [] :=
  ⟨fun _ => Nat.zero_le _, by simp, fun _ => ⟨0, Nat.zero_le _, rfl⟩⟩

namespace Disciplined

/-- As many slots are in use as there are tokens with one. -/
theorem slots_eq (h : Disciplined fanOut tokens) (tagClass : TagClass) :
    (tokens.filter (isSlottedOf tagClass)).map Token.slot =
      (List.range (Annotations.usedSlots tokens tagClass)).map some := by
  obtain ⟨k, -, hk⟩ := h.slots tagClass
  have hlength := congrArg List.length hk
  rw [List.length_map, List.length_map, List.length_range] at hlength
  have hused : Annotations.usedSlots tokens tagClass = k := by
    rw [Annotations.usedSlots, List.countP_eq_length_filter]
    exact hlength
  rw [hused, hk]

/-- Taking tokens away keeps the order if none of them has a slot. -/
theorem filter (h : Disciplined fanOut tokens) {keep : Token → Bool}
    (hkeep : ∀ t ∈ tokens, t.slot.isSome = true → keep t = true) :
    Disciplined fanOut (tokens.filter keep) where
  single tagClass := Nat.le_trans List.filter_sublist.countP_le (h.single tagClass)
  multiple t ht := h.multiple t (List.mem_of_mem_filter ht)
  slots tagClass := by
    obtain ⟨k, hle, hk⟩ := h.slots tagClass
    refine ⟨k, hle, ?_⟩
    rw [List.filter_filter]
    have hsame : tokens.filter (fun t => isSlottedOf tagClass t && keep t) =
        tokens.filter (isSlottedOf tagClass) := by
      refine List.filter_congr fun t ht => ?_
      cases hslot : t.slot with
      | none => simp [isSlottedOf, hslot]
      | some slot => rw [hkeep t ht (by rw [hslot]; rfl), Bool.and_true]
    rw [hsame, hk]

/-- Tokens without slots, of which no class has more than one, are in order. -/
theorem of_single (hsingle : ∀ tagClass, tokens.countP (isSingleOf tagClass) ≤ 1)
    (hslots : ∀ t ∈ tokens, t.slot = none) : Disciplined fanOut tokens where
  single := hsingle
  multiple t ht hslot := by
    rw [hslots t ht] at hslot
    cases hslot
  slots tagClass := by
    refine ⟨0, Nat.zero_le _, ?_⟩
    rw [List.map_eq_nil_iff.mpr]
    · rfl
    · refine List.filter_eq_nil_iff.mpr fun t ht => ?_
      simp [isSlottedOf, hslots t ht]

/-- The next token of its class gets the next slot. -/
theorem append_slotted (h : Disciplined fanOut tokens) (hmultiple : t.origin.isMultiple = true)
    (hlt : Annotations.usedSlots tokens t.origin.tagClass < fanOut) :
    Disciplined fanOut
      (tokens ++ [{ t with slot := some (Annotations.usedSlots tokens t.origin.tagClass) }]) where
  single tagClass := by
    rw [List.countP_append, List.countP_singleton]
    simpa [isSingleOf] using h.single tagClass
  multiple t' ht' hslot := by
    obtain ht' | ht' := List.mem_append.mp ht'
    · exact h.multiple t' ht' hslot
    · obtain rfl := List.mem_singleton.mp ht'
      exact hmultiple
  slots tagClass := by
    rw [List.filter_append, List.map_append, h.slots_eq tagClass]
    by_cases hclass : t.origin.tagClass = tagClass
    · refine ⟨Annotations.usedSlots tokens tagClass + 1, hclass ▸ hlt, ?_⟩
      rw [List.range_succ, List.map_append]
      simp [isSlottedOf, hclass]
    · obtain ⟨k, hle, hk⟩ := h.slots tagClass
      rw [h.slots_eq tagClass] at hk
      exact ⟨k, hle, by simp [isSlottedOf, hclass, hk]⟩

/-- The only token of its class without a slot takes the place of the one that was there. -/
theorem replace_single (h : Disciplined fanOut tokens) (t : Token) :
    Disciplined fanOut ((tokens.filter fun t' =>
      !(t'.origin.tagClass == t.origin.tagClass && t'.slot.isNone)) ++
        [{ t with slot := none }]) where
  single tagClass := by
    rw [List.countP_append, List.countP_singleton, List.countP_filter]
    by_cases hclass : t.origin.tagClass = tagClass
    · have hnone : tokens.countP (fun t' => isSingleOf tagClass t' &&
          !(t'.origin.tagClass == t.origin.tagClass && t'.slot.isNone)) = 0 := by
        refine List.countP_eq_zero.mpr fun t' _ => ?_
        simp [isSingleOf, hclass]
      rw [hnone]
      split <;> omega
    · have hother : isSingleOf tagClass { t with slot := none } = false := by
        simp [isSingleOf, hclass]
      rw [hother]
      refine Nat.le_trans (Nat.add_le_add_right (List.countP_mono_left fun t' _ ht' => ?_) _)
        (h.single tagClass)
      exact (Bool.and_eq_true_iff.mp ht').1
  multiple t' ht' hslot := by
    obtain ht' | ht' := List.mem_append.mp ht'
    · exact h.multiple t' (List.mem_of_mem_filter ht') hslot
    · obtain rfl := List.mem_singleton.mp ht'
      cases hslot
  slots tagClass := by
    have hkept : Disciplined fanOut (tokens.filter fun t' =>
        !(t'.origin.tagClass == t.origin.tagClass && t'.slot.isNone)) := by
      refine h.filter fun t' _ hslot => ?_
      cases hnone : t'.slot with
      | none =>
        rw [hnone] at hslot
        cases hslot
      | some slot => simp
    obtain ⟨k, hle, hk⟩ := hkept.slots tagClass
    refine ⟨k, hle, ?_⟩
    rw [List.filter_append, List.map_append, hk]
    simp [isSlottedOf]

/-- No two tokens share a class and a slot. -/
theorem distinct (h : Disciplined fanOut tokens) :
    (tokens.map fun t => (t.origin.tagClass, t.slot)).Nodup := by
  refine List.nodup_iff_count_le_one.mpr fun ⟨tagClass, slot⟩ => ?_
  rw [List.count, List.countP_map]
  cases slot with
  | none =>
    refine Nat.le_trans (Nat.le_of_eq (List.countP_congr fun t _ => ?_)) (h.single tagClass)
    simp [isSingleOf]
  | some n =>
    obtain ⟨k, -, hk⟩ := h.slots tagClass
    have hcount : tokens.countP ((· == (tagClass, some n)) ∘ fun t => (t.origin.tagClass, t.slot)) =
        ((List.range k).map some).count (some n) := by
      rw [← hk, List.count, List.countP_map, List.countP_filter]
      refine List.countP_congr fun t _ => ?_
      cases hslot : t.slot <;> simp [isSlottedOf, hslot, and_comm]
    rw [hcount]
    refine List.nodup_iff_count_le_one.mp ?_ _
    exact List.nodup_range.map fun _ _ => Option.some.inj

end Disciplined

end Token

namespace Annotations

/-- The tokens of each instruction are in order. -/
def Disciplined (fanOut : Nat) (a : Annotations) : Prop :=
  ∀ i, Token.Disciplined fanOut (a.get i)

variable {fanOut : Nat} {a a' : Annotations} {inst source target : InstId} {token : Token}

theorem Disciplined.modify (h : a.Disciplined fanOut) {change : List Token → List Token}
    (hchange : Token.Disciplined fanOut (change (a.get inst))) :
    (a.modify inst change).Disciplined fanOut := by
  intro i
  rw [get_modify]
  split
  · exact hchange
  · exact h i

theorem Disciplined.attach? (limits : Limits) (h : a.Disciplined limits.maxFanOut)
    (hattach : a.attach? inst token limits = some a') : a'.Disciplined limits.maxFanOut := by
  unfold Annotations.attach? at hattach
  dsimp only at hattach
  split at hattach
  · next hmultiple =>
    split at hattach
    · cases hattach
    · next hlt =>
      obtain rfl := Option.some.inj hattach
      exact h.modify ((h inst).append_slotted hmultiple (Nat.lt_of_not_le hlt))
  · obtain rfl := Option.some.inj hattach
    exact h.modify ((h inst).replace_single token)

/-- Taking away tokens none of which has a slot keeps the others in order. -/
theorem Disciplined.take (h : a.Disciplined fanOut) {chosen : Token → Bool}
    (hchosen : ∀ t ∈ a.get inst, chosen t = true → t.slot = none) :
    (a.take inst chosen).2.Disciplined fanOut := by
  unfold Annotations.take
  split
  · refine h.modify ((h inst).filter fun t ht hslot => ?_)
    cases hc : chosen t with
    | false => rfl
    | true =>
      rw [hchosen t ht hc] at hslot
      cases hslot
  · exact h

/-- What is taken is in order by itself if none of it has a slot. -/
theorem Disciplined.taken (h : a.Disciplined fanOut) {chosen : Token → Bool}
    (hchosen : ∀ t ∈ a.get inst, chosen t = true → t.slot = none) :
    Token.Disciplined fanOut (a.take inst chosen).1 := by
  unfold Annotations.take
  split
  · refine .of_single (fun tagClass => ?_) fun t ht => ?_
    · exact Nat.le_trans List.filter_sublist.countP_le ((h inst).single tagClass)
    · obtain ⟨ht, hc⟩ := List.mem_filter.mp ht
      exact hchosen t ht hc
  · exact Token.disciplined_nil

theorem get_take_of_ne {i : InstId} (hne : i ≠ inst) (chosen : Token → Bool) :
    (a.take inst chosen).2.get i = a.get i := by
  unfold Annotations.take
  split
  · rw [get_modify, if_neg hne]
  · rfl

/-- Tokens of an origin that comes alone go to an instruction that has none. -/
theorem Disciplined.moveOrigin (h : a.Disciplined fanOut) {origin : Origin}
    (horigin : origin.isMultiple = false) (hne : target ≠ source) (htarget : a.get target = []) :
    (a.moveOrigin source target origin).Disciplined fanOut := by
  have hsingle : ∀ t ∈ a.get source, (t.origin == origin) = true → t.slot = none := by
    intro t ht heq
    cases hslot : t.slot with
    | none => rfl
    | some slot =>
      have hmultiple := (h source).multiple t ht (by rw [hslot]; rfl)
      rw [eq_of_beq heq, horigin] at hmultiple
      cases hmultiple
  have hrest : (a.take source fun t => t.origin == origin).2.Disciplined fanOut := h.take hsingle
  unfold Annotations.moveOrigin
  dsimp only
  split
  · exact hrest
  · refine hrest.modify ?_
    rw [get_take_of_ne hne, htarget, List.nil_append]
    exact h.taken hsingle

end Annotations

/-! ## Tokens of one origin -/

namespace Annotations

variable {a : Annotations} {inst source target i : InstId} {origin : Origin} {token : Token}

/-- The tokens of an instruction that have some origin. -/
def ofOrigin (a : Annotations) (origin : Origin) (i : InstId) : List Token :=
  (a.get i).filter (·.origin == origin)

/-- The tokens of an instruction that have any other origin. -/
def besides (a : Annotations) (origin : Origin) (i : InstId) : List Token :=
  (a.get i).filter (·.origin != origin)

theorem ofOrigin_of_get {a' : Annotations} (h : a'.get i = a.get i) :
    a'.ofOrigin origin i = a.ofOrigin origin i := by
  rw [ofOrigin, h, ofOrigin]

theorem besides_of_get {a' : Annotations} (h : a'.get i = a.get i) :
    a'.besides origin i = a.besides origin i := by
  rw [besides, h, besides]

theorem get_eq_nil_of_not_contains (h : a.contains inst = false) : a.get inst = [] := by
  unfold get
  rw [Option.isSome_eq_false_iff.mp h |> Option.isNone_iff_eq_none.mp]
  rfl

theorem fst_take (a : Annotations) (inst : InstId) (chosen : Token → Bool) :
    (a.take inst chosen).1 = (a.get inst).filter chosen := by
  unfold take
  split
  · rfl
  · next h => rw [get_eq_nil_of_not_contains (Bool.not_eq_true _ ▸ h), List.filter_nil]

theorem get_snd_take (a : Annotations) (inst : InstId) (chosen : Token → Bool) (i : InstId) :
    (a.take inst chosen).2.get i = if i = inst then (a.get inst).filter (!chosen ·) else a.get i := by
  unfold take
  split
  · exact get_modify _ _ _ _
  · next h =>
    split
    · next heq =>
      rw [heq, get_eq_nil_of_not_contains (Bool.not_eq_true _ ▸ h), List.filter_nil]
    · rfl

/-! ## Moving an origin -/

theorem get_moveOrigin_source (hne : source ≠ target) :
    (a.moveOrigin source target origin).get source =
      (a.get source).filter (!·.origin == origin) := by
  unfold moveOrigin
  dsimp only
  split
  · rw [get_snd_take, if_pos rfl]
  · rw [get_modify, if_neg hne, get_snd_take, if_pos rfl]

theorem get_moveOrigin_target (hne : source ≠ target) :
    (a.moveOrigin source target origin).get target =
      a.get target ++ (a.get source).filter (·.origin == origin) := by
  unfold moveOrigin
  dsimp only
  rw [fst_take]
  split
  · next hempty => rw [List.isEmpty_iff.mp hempty, List.append_nil, get_snd_take, if_neg hne.symm]
  · rw [get_modify, if_pos rfl, get_snd_take, if_neg hne.symm]

theorem get_moveOrigin_of_ne (hsource : i ≠ source) (htarget : i ≠ target) :
    (a.moveOrigin source target origin).get i = a.get i := by
  unfold moveOrigin
  dsimp only
  split
  · rw [get_snd_take, if_neg hsource]
  · rw [get_modify, if_neg htarget, get_snd_take, if_neg hsource]

theorem ofOrigin_moveOrigin (hne : source ≠ target) :
    (a.moveOrigin source target origin).ofOrigin origin i =
      if i = source then [] else
      if i = target then a.ofOrigin origin target ++ a.ofOrigin origin source
      else a.ofOrigin origin i := by
  unfold ofOrigin
  split
  · next heq =>
    subst heq
    simp [get_moveOrigin_source hne]
  split
  · next heq =>
    subst heq
    rw [get_moveOrigin_target hne, List.filter_append, List.filter_filter]
    simp
  · next hsource htarget => rw [get_moveOrigin_of_ne hsource htarget]

/-- Tokens of other origins stay where they are. -/
theorem besides_moveOrigin (hne : source ≠ target) :
    (a.moveOrigin source target origin).besides origin i = a.besides origin i := by
  unfold besides
  by_cases hsource : i = source
  · subst hsource
    simp [get_moveOrigin_source hne, bne]
  by_cases htarget : i = target
  · subst htarget
    rw [get_moveOrigin_target hne, List.filter_append, List.filter_filter]
    simp
  · rw [get_moveOrigin_of_ne hsource htarget]

/-! ## Attaching a compared integer -/

/-- The list of an instruction once a compared integer has been attached to it. -/
def withInteger (token : Token) (tokens : List Token) : List Token :=
  (tokens.filter fun t => !(t.origin.tagClass == token.origin.tagClass && t.slot.isNone)) ++
    [{ token with slot := none }]

theorem integers_withInteger (htoken : token.origin = .comparedInteger) {tokens : List Token}
    (hnone : tokens.filter (·.origin == .comparedInteger) = []) :
    (withInteger token tokens).filter (·.origin == .comparedInteger) =
      [{ token with slot := none }] := by
  have hold : (tokens.filter fun t =>
      !(t.origin.tagClass == token.origin.tagClass && t.slot.isNone)).filter
        (·.origin == .comparedInteger) = [] := by
    rw [List.filter_comm, hnone, List.filter_nil]
  rw [withInteger, List.filter_append, hold]
  simp [htoken]

/-- No token of another origin is of the same class, so that none gives way. -/
theorem besides_withInteger (htoken : token.origin = .comparedInteger) (tokens : List Token) :
    (withInteger token tokens).filter (·.origin != .comparedInteger) =
      tokens.filter (·.origin != .comparedInteger) := by
  have hclass : ∀ t : Token, (t.origin != .comparedInteger &&
      !(t.origin.tagClass == token.origin.tagClass && t.slot.isNone)) =
        (t.origin != .comparedInteger) := by
    intro t
    rw [htoken]
    cases t.origin <;> simp [Origin.tagClass]
  rw [withInteger, List.filter_append, List.filter_filter]
  simp only [hclass]
  simp [htoken]

end Annotations

end EdgeProbe
