import EdgeProbe.Proofs.Code.Replaced
import EdgeProbe.Proofs.Flow.Path

/-!
# Values that stay available

A change of code moves instructions to other places and puts blocks in between. What was computed
before a place on all paths is still so afterwards, as long as paths stand for paths and the ways
through what was one block pass the new place of what that computed.
-/

namespace EdgeProbe

namespace Function

/-- Instructions of a function are found in other places of a rewritten one, each of whose blocks
stands for a block from before. A path that leaves what was one block has passed all that it
computed. -/
structure Relocates (f f' : Function) (origin : BlockId → BlockId)
    (place : BlockId → Nat → BlockId × Nat) : Prop where
  projects : f.Projects f' origin
  listed : ∀ id b pos, f.Listed id b pos → f'.Listed id (place b pos).1 (place b pos).2
  origin_place : ∀ id b pos, f.Listed id b pos → origin (place b pos).1 = b
  passes : ∀ id b pos, f.Listed id b pos → ∀ b' trail, f'.PathTo b' trail → origin b' ≠ b →
    ∀ x ∈ trail, origin x = b → (place b pos).1 ∈ trail

variable {f f' : Function} {origin : BlockId → BlockId} {place : BlockId → Nat → BlockId × Nat}

/-- What precedes a place precedes one of the rewritten function too if all that comes before in the
same block does. -/
theorem Relocates.precedes (h : f.Relocates f' origin place) (hf' : f'.Closed) {used : InstId}
    {b b' : BlockId} {pos pos' : Option Nat} (hb : origin b' = b) (hused : f.Precedes used b pos)
    (hhere : ∀ k, f.Listed used b k → (∀ p, pos = some p → k < p) →
      (place b k).1 = b' ∧ (∀ p, pos' = some p → (place b k).2 < p) ∨
        (place b k).1 ≠ b' ∧ f'.OnEveryPath (place b k).1 b') : f'.Precedes used b' pos' := by
  obtain ⟨home, k, hid, hbefore⟩ := hused
  refine ⟨_, _, h.listed used home k hid, fun hreach => ?_⟩
  obtain ⟨rfl, hlt⟩ | ⟨hne, hpath⟩ := hbefore (hb ▸ h.projects.reaches hf' hreach)
  · exact hhere k hid hlt
  · right
    constructor
    · intro heq
      rw [← h.origin_place used home k hid, heq] at hne
      exact hne hb
    · intro trail path
      obtain ⟨trail₀, path₀, hmeets⟩ := h.projects.pathTo hf' path
      obtain ⟨x, hx, hxhome⟩ := hmeets home (hpath trail₀ (hb ▸ path₀))
      exact h.passes used home k hid b' trail path (hb ▸ hne.symm) x hx hxhome

/-- What precedes a place still does where nothing has moved and there are no new ways to go. -/
theorem Precedes.mono (f' : Function)
    (hentry : ∀ e, f'.entryBlock? = some e → f.entryBlock? = some e)
    (hedge : ∀ a b, f'.Edge a b → f.Edge a b)
    (hlisted : ∀ id b pos, f.Listed id b pos → f'.Listed id b pos) {used : InstId} {b : BlockId}
    {pos : Option Nat} (h : f.Precedes used b pos) : f'.Precedes used b pos := by
  obtain ⟨home, k, hid, hbefore⟩ := h
  refine ⟨home, k, hlisted used home k hid, fun hreach => ?_⟩
  obtain ⟨trail, path⟩ := hreach
  refine (hbefore ⟨trail, path.mono hentry hedge⟩).imp_right ?_
  rintro ⟨hne, hpath⟩
  exact ⟨hne, fun trail path => hpath trail (path.mono hentry hedge)⟩

end Function

/-- The block from before that a block of a function that was cut stands for: all parts and the
other side of the cut stand for the block that was cut. -/
def Cut.origin (c : Cut) (join : BlockId) (parts : List Part) (b : BlockId) : BlockId :=
  if b = join ∨ b ∈ parts.map Part.block then c.head else b

namespace Patched

variable {f f' : Function} {c : Cut} {join b : BlockId} {parts : List Part} {ty : Ty}
  {entries : List (Value × BlockId)} (h : Patched f c join parts ty entries f') (hf : f.Tidy)
  (hc : c.Of f)
include h hf

theorem origin_of_mem (hb : b ∈ f.layout) : c.origin join parts b = b := by
  unfold Cut.origin
  split
  · next hgroup =>
    obtain rfl | hpart := hgroup
    · exact absurd hb (h.opened.join_not_mem hf.closed)
    · by_contra hne
      exact h.opened.not_mem_of_kept hf.closed hb (Ne.symm hne) hpart
  · rfl

include hc

theorem projects : f.Projects f' (c.origin join parts) where
  entry := by
    intro e he
    rw [h.opened.entry] at he
    rw [h.origin_of_mem hf (Function.mem_layout_of_entryBlock? he), he]
  edge := by
    intro a ha b hedge
    obtain ⟨hlive, -, hedge⟩ | ⟨rfl, hsucc⟩ | ⟨p, hp, rfl, hsucc⟩ :=
      h.opened.edge_cases hf.closed ha hedge
    · rw [h.origin_of_mem hf hlive, h.origin_of_mem hf (hf.closed.toLive a hlive b hedge)]
      exact .inr hedge
    · rw [h.origin_of_mem hf (Opened.live_of_successor hf.closed hc hsucc), Cut.origin,
        if_pos (.inl rfl)]
      exact .inr (Opened.edge_of_successor hc hsucc)
    · left
      rw [Cut.origin, if_pos (.inr (List.mem_map_of_mem hp)), Cut.origin, if_pos]
      exact (h.ends p hp b hsucc).imp_right And.left

/-- What stands for the block that was cut is entered through the first part. -/
theorem head_onEveryPath (hb : c.origin join parts b = c.head) : f'.OnEveryPath c.head b := by
  have hold : ∀ b ∈ f.layout, c.origin join parts b = c.head → b = c.head :=
    fun b hb heq => (h.origin_of_mem hf hb).symm.trans heq
  intro trail path
  induction path with
  | @entry e he =>
    rw [h.opened.entry] at he
    exact List.mem_singleton.mpr (hold e (Function.mem_layout_of_entryBlock? he) hb).symm
  | @step a b trail path edge ih =>
    have hlive := (h.closed hf hc).mem_layout path
    obtain ⟨ha, -, hedge⟩ | ⟨rfl, hsucc⟩ | ⟨p, hp, rfl, hsucc⟩ :=
      h.opened.edge_cases hf.closed hlive edge
    · rw [hold b (hf.closed.toLive a ha b hedge) hb]
      exact List.mem_cons_self
    · rw [hold b (Opened.live_of_successor hf.closed hc hsucc) hb]
      exact List.mem_cons_self
    · refine List.mem_cons_of_mem _ (ih ?_)
      rw [Cut.origin, if_pos (.inr (List.mem_map_of_mem hp))]

/-- It is left from the other side of the cut. -/
theorem join_mem {trail : List BlockId} (path : f'.PathTo b trail)
    (hb : c.origin join parts b ≠ c.head) {x : BlockId} (hx : x ∈ trail)
    (hxhead : c.origin join parts x = c.head) : join ∈ trail := by
  induction path with
  | @entry e he =>
    obtain rfl := List.mem_singleton.mp hx
    exact absurd hxhead hb
  | @step a b trail path edge ih =>
    obtain rfl | hx := List.mem_cons.mp hx
    · exact absurd hxhead hb
    refine List.mem_cons_of_mem _ ?_
    by_cases ha : c.origin join parts a = c.head
    · have hlive := (h.closed hf hc).mem_layout path
      obtain ⟨hold, hne, -⟩ | ⟨rfl, -⟩ | ⟨p, hp, rfl, hsucc⟩ :=
        h.opened.edge_cases hf.closed hlive edge
      · exact absurd ((h.origin_of_mem hf hold).symm.trans ha) hne
      · exact path.mem
      · refine absurd ?_ hb
        rw [Cut.origin, if_pos]
        exact (h.ends p hp b hsucc).imp_right And.left
    · exact ih ha hx

theorem relocates : f.Relocates f' (c.origin join parts) (c.place join) where
  projects := h.projects hf hc
  listed := fun _ _ _ hid => h.listed_mono hf hc hid
  origin_place := by
    intro id b pos hid
    unfold Cut.place
    split
    · next hrest =>
      rw [Cut.origin, if_pos (.inl rfl), hrest.1]
    · exact h.origin_of_mem hf hid.1
  passes := by
    intro id b pos hid b' trail path hb' x hx hxb
    unfold Cut.place
    by_cases hhead : b = c.head
    · subst hhead
      split
      · exact h.join_mem hf hc path hb' hx hxb
      · exact (h.head_onEveryPath hf hc hxb).mem path hx
    · rw [if_neg fun hrest => hhead hrest.1]
      unfold Cut.origin at hxb
      split at hxb
      · exact absurd hxb.symm hhead
      · exact hxb ▸ hx

end Patched

end EdgeProbe
