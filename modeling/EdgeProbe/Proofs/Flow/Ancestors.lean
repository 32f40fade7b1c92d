import EdgeProbe.Flow.Dominators
import EdgeProbe.Proofs.Outcome

/-!
# Walks up the dominator tree

While dominators are being computed, the parents found so far form a tree: each walk up comes to
earlier and earlier blocks until it ends at the root. `Above` says that one block is met on the walk
up from another one, and `meet` finds the first block that is above two.
-/

namespace EdgeProbe

variable {up : BlockId → Option BlockId} {rank : BlockId → Nat} {root a b c p : BlockId}

/-- The first block is met on the walk up from the second. -/
inductive Above (up : BlockId → Option BlockId) (a : BlockId) : BlockId → Prop where
  | refl : Above up a a
  | step {p b : BlockId} (h : up b = some p) (above : Above up a p) : Above up a b

/-- The parents lead to the root, by way of blocks that come earlier and have parents, too. -/
structure Climbs (rank : BlockId → Nat) (up : BlockId → Option BlockId) (root : BlockId) :
    Prop where
  up_root : up root = some root
  rank_root : rank root = 0
  rank_lt : ∀ b p, up b = some p → b ≠ root → rank p < rank b
  parent : ∀ b p, up b = some p → (up p).isSome

namespace Above

theorem trans (hab : Above up a b) (hbc : Above up b c) : Above up a c := by
  induction hbc with
  | refl => exact hab
  | step h above ih => exact .step h ih

theorem of_parent (h : up b = some p) (hab : Above up a b) (hne : a ≠ b) : Above up a p := by
  cases hab with
  | refl => exact absurd rfl hne
  | step hp above =>
    obtain rfl := Option.some.inj (hp.symm.trans h)
    exact above

end Above

namespace Climbs

theorem rank_le (t : Climbs rank up root) (h : Above up a b) : rank a ≤ rank b := by
  induction h with
  | refl => exact le_refl _
  | @step p b hup above ih =>
    by_cases hb : b = root
    · subst hb
      obtain rfl := Option.some.inj (t.up_root.symm.trans hup)
      exact ih
    · exact ih.trans (t.rank_lt _ _ hup hb).le

/-- Two blocks on one walk are met in the order of their ranks. -/
theorem above_of_le (t : Climbs rank up root) (ha : Above up a c) (hb : Above up b c)
    (hle : rank a ≤ rank b) : Above up a b := by
  induction hb with
  | refl => exact ha
  | @step p c hup above ih =>
    by_cases hc : c = root
    · subst hc
      obtain rfl := Option.some.inj (t.up_root.symm.trans hup)
      exact ih ha
    · apply ih
      apply ha.of_parent hup
      rintro rfl
      have hlt := t.rank_lt _ _ hup hc
      have hle' := t.rank_le above
      omega

theorem eq_of_above (t : Climbs rank up root) (h : Above up a b) (hle : rank b ≤ rank a) :
    a = b := by
  cases h with
  | refl => rfl
  | @step p _ hup above =>
    by_cases hb : b = root
    · subst hb
      obtain rfl := Option.some.inj (t.up_root.symm.trans hup)
      have hstop : ∀ {x y}, Above up x y → y = b → x = b := by
        intro x y hxy
        induction hxy with
        | refl => exact id
        | step hp above ih =>
          rintro rfl
          exact ih (Option.some.inj (hp.symm.trans t.up_root))
      exact hstop above rfl
    · have hlt := t.rank_lt _ _ hup hb
      have hle' := t.rank_le above
      omega

theorem isSome_of_above (t : Climbs rank up root) (h : Above up a b) (hb : (up b).isSome) :
    (up a).isSome := by
  induction h with
  | refl => exact hb
  | step hp above ih => exact ih (t.parent _ _ hp)

end Climbs

/-- The blocks above one block are those above all of some others. -/
def MeetOf (up : BlockId → Option BlockId) (blocks : BlockId → Prop) (m : BlockId) : Prop :=
  ∀ c, Above up c m ↔ ∀ p, blocks p → Above up c p

namespace MeetOf

theorem above {blocks : BlockId → Prop} {m : BlockId} (h : MeetOf up blocks m) (hp : blocks p) :
    Above up m p :=
  (h m).mp .refl p hp

/-- Meeting a meeting point is meeting what it is the meeting point of. -/
theorem insert {blocks : BlockId → Prop} {m n : BlockId} (h : MeetOf up blocks m)
    (hn : MeetOf up (fun x => x = p ∨ x = m) n) : MeetOf up (fun x => x = p ∨ blocks x) n := by
  intro c
  rw [hn c]
  constructor
  · rintro hc x (rfl | hx)
    · exact hc x (Or.inl rfl)
    · exact (h c).mp (hc m (Or.inr rfl)) x hx
  · rintro hc x (rfl | rfl)
    · exact hc x (Or.inl rfl)
    · exact (h c).mpr fun y hy => hc y (Or.inr hy)

end MeetOf

namespace Dominators

/-- The parents as a function. -/
def parent? (d : Dominators) (b : BlockId) : Option BlockId :=
  d.parent[b]?

theorem contains_parent_iff (d : Dominators) (b : BlockId) :
    d.parent.contains b = true ↔ (d.parent? b).isSome := by
  rw [parent?, ← Std.HashMap.contains_eq_isSome_getElem?]

/-- Ranks are the places that the dominators have noted. -/
def Ranks (d : Dominators) (rank : BlockId → Nat) : Prop :=
  ∀ b, (d.parent? b).isSome → d.order[b]? = some (rank b)

variable {d : Dominators}

theorem meet_self (d : Dominators) (fuel : Nat) (a : BlockId) : d.meet fuel a a = .ok a := by
  unfold meet
  simp [pure, Except.pure]

/-- Two walks up that are long enough meet. -/
theorem meet_eq_ok (t : Climbs rank d.parent? root) (hr : d.Ranks rank)
    (hinj : ∀ a b, (d.parent? a).isSome → rank a = rank b → a = b)
    {fuel : Nat} (ha : (d.parent? a).isSome) (hb : (d.parent? b).isSome) (hfuel : rank a + rank b ≤ fuel) :
    ∃ m, d.meet fuel a b = .ok m ∧ (d.parent? m).isSome ∧ MeetOf d.parent? (fun x => x = a ∨ x = b) m := by
  induction fuel generalizing a b with
  | zero =>
    obtain rfl := hinj a b ha (by omega)
    exact ⟨a, d.meet_self 0 a, ha, fun c => by simp⟩
  | succ fuel ih =>
    by_cases hab : a = b
    · subst hab
      exact ⟨a, d.meet_self _ a, ha, fun c => by simp⟩
    · unfold meet
      rw [if_neg (by simpa using hab)]
      simp only [hr a ha, hr b hb]
      -- The walk from the later block goes on; the root is never the later one.
      by_cases hlt : rank b < rank a
      · obtain ⟨p, hp⟩ := Option.isSome_iff_exists.mp ha
        have hroot : a ≠ root := by
          rintro rfl
          have := t.rank_root
          omega
        have hdown := t.rank_lt a p hp hroot
        obtain ⟨m, hm, hup, hmeet⟩ := ih (t.parent a p hp) hb (by omega)
        refine ⟨m, ?_, hup, fun c => ?_⟩
        · rw [if_pos hlt, show d.parent[a]? = some p from hp]
          exact hm
        · rw [hmeet c]
          constructor
          · rintro hc x (rfl | rfl)
            · exact .step hp (hc p (Or.inl rfl))
            · exact hc x (Or.inr rfl)
          · rintro hc x (rfl | rfl)
            · apply (hc a (Or.inl rfl)).of_parent hp
              rintro rfl
              have := t.rank_le (hc b (Or.inr rfl))
              omega
            · exact hc x (Or.inr rfl)
      · have hle : rank a < rank b := by
          have hne : rank a ≠ rank b := fun h => hab (hinj a b ha h)
          omega
        obtain ⟨p, hp⟩ := Option.isSome_iff_exists.mp hb
        have hroot : b ≠ root := by
          rintro rfl
          have := t.rank_root
          omega
        have hdown := t.rank_lt b p hp hroot
        obtain ⟨m, hm, hup, hmeet⟩ := ih ha (t.parent b p hp) (by omega)
        refine ⟨m, ?_, hup, fun c => ?_⟩
        · rw [if_neg hlt, show d.parent[b]? = some p from hp]
          exact hm
        · rw [hmeet c]
          constructor
          · rintro hc x (rfl | rfl)
            · exact hc x (Or.inl rfl)
            · exact .step hp (hc p (Or.inr rfl))
          · rintro hc x (rfl | rfl)
            · exact hc x (Or.inl rfl)
            · apply (hc b (Or.inr rfl)).of_parent hp
              rintro rfl
              have := t.rank_le (hc a (Or.inl rfl))
              omega

/-- Of some predecessors those that have been reached are met, together with what was met so far. -/
theorem meetAll_eq_ok (t : Climbs rank d.parent? root) (hr : d.Ranks rank)
    (hinj : ∀ a b, (d.parent? a).isSome → rank a = rank b → a = b)
    (hsize : ∀ b, (d.parent? b).isSome → rank b < d.order.size)
    (preds : List BlockId) (found : Option BlockId) (before : BlockId → Prop)
    (hfound : ∀ m, found = some m → (d.parent? m).isSome ∧ MeetOf d.parent? before m)
    (hnone : found = none → ∀ p, ¬before p) :
    ∃ met, d.meetAll found preds = .ok met ∧
      (∀ m, met = some m → (d.parent? m).isSome ∧
        MeetOf d.parent? (fun p => before p ∨ p ∈ preds ∧ (d.parent? p).isSome) m) ∧
      (met = none → ∀ p, ¬(before p ∨ p ∈ preds ∧ (d.parent? p).isSome)) := by
  induction preds generalizing found before with
  | nil => exact ⟨found, rfl, by simpa using hfound, by simpa using hnone⟩
  | cons pred rest ih =>
    unfold meetAll
    by_cases hpred : (d.parent? pred).isSome
    · rw [if_pos ((d.contains_parent_iff pred).mpr hpred)]
      -- The members of the longer list, with the one that was just met among those before.
      have hsplit : ∀ p, (before p ∨ p ∈ pred :: rest ∧ (d.parent? p).isSome) ↔
          ((p = pred ∨ before p) ∨ p ∈ rest ∧ (d.parent? p).isSome) := by
        intro p
        rw [List.mem_cons]
        constructor
        · tauto
        · rintro ((rfl | h) | h)
          · exact Or.inr ⟨Or.inl rfl, hpred⟩
          · exact Or.inl h
          · exact Or.inr ⟨Or.inr h.1, h.2⟩
      simp only [hsplit]
      cases found with
      | none =>
        apply ih (some pred)
        · rintro m hm
          obtain rfl := Option.some.inj hm
          refine ⟨hpred, fun c => ?_⟩
          simp [hnone rfl]
        · simp
      | some current =>
        obtain ⟨hcurrent, hmeet⟩ := hfound current rfl
        have ha := hsize pred hpred
        have hb := hsize current hcurrent
        have hfuel : rank pred + rank current ≤ 2 * d.order.size := by omega
        obtain ⟨m, hm, hup, hmm⟩ := meet_eq_ok t hr hinj hpred hcurrent hfuel
        obtain ⟨met, hmet, hspec⟩ := ih (some m) (fun p => p = pred ∨ before p)
          (by
            rintro n hn
            obtain rfl := Option.some.inj hn
            exact ⟨hup, hmeet.insert hmm⟩)
          (by simp)
        exact ⟨met, by simpa [hm, bind, Except.bind] using hmet, hspec⟩
    · rw [if_neg (fun h => hpred ((d.contains_parent_iff pred).mp h))]
      have hsame : ∀ p, (before p ∨ p ∈ pred :: rest ∧ (d.parent? p).isSome) ↔
          (before p ∨ p ∈ rest ∧ (d.parent? p).isSome) := by
        intro p
        rw [List.mem_cons]
        constructor
        · rintro (h | ⟨rfl | h, hp⟩)
          · exact Or.inl h
          · exact absurd hp hpred
          · exact Or.inr ⟨h, hp⟩
        · tauto
      simp only [hsame]
      exact ih found before hfound hnone

/-- With as many steps as the block has rank, the walk up meets all blocks above. -/
theorem isAbove_iff (t : Climbs rank d.parent? root) {fuel : Nat} (hfuel : rank b ≤ fuel) :
    d.isAbove a fuel b = true ↔ Above d.parent? a b := by
  induction fuel generalizing b with
  | zero =>
    have hstop : d.isAbove a 0 b = (a == b) := by simp [isAbove]
    rw [hstop, beq_iff_eq]
    constructor
    · rintro rfl
      exact .refl
    · exact fun h => t.eq_of_above h (by omega)
  | succ fuel ih =>
    unfold isAbove
    by_cases hab : a = b
    · subst hab
      simp [Above.refl]
    · rw [show (a == b) = false from by simpa using hab, Bool.false_or]
      cases hp : d.parent[b]? with
      | none =>
        have hnot : ¬Above d.parent? a b := by
          intro h
          cases h with
          | refl => exact hab rfl
          | step hup above => simp [parent?, hp] at hup
        simpa using hnot
      | some p =>
        have hup : d.parent? b = some p := hp
        dsimp only
        rw [Bool.and_eq_true, bne_iff_ne]
        by_cases hb : b = root
        · subst hb
          obtain rfl := Option.some.inj (hup.symm.trans t.up_root)
          have hnot : ¬Above d.parent? a p := by
            intro h
            have hzero := t.rank_root
            exact hab (t.eq_of_above h (by omega))
          simpa using hnot
        · have hlt := t.rank_lt b p hup hb
          have hne : p ≠ b := by
            rintro rfl
            omega
          rw [ih (by omega)]
          exact ⟨fun h => .step hup h.2, fun h => ⟨hne, h.of_parent hup hab⟩⟩

end Dominators

end EdgeProbe
