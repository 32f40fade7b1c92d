import EdgeProbe.Proofs.Machine.Compared

/-!
# How strings compare

`Memory.ComparesBytes` follows a comparison byte by byte, however long it takes. What it sees of a
string are the bytes from its address on, cut at the bound and behind the first NUL, and folded when
case is ignored (`Memory.stringAt`). Main statement: `Memory.compareStrings_difference`.
-/

namespace EdgeProbe

/-! ## Byte by byte -/

namespace Memory

/-- How strings compare that are followed byte by byte, up to the limit if there is one. -/
inductive ComparesBytes (m : Memory) (ignoreCase : Bool) :
    Option Nat → UInt64 → UInt64 → Except Trap Int64 → Prop
  | limit {lhs rhs : UInt64} : ComparesBytes m ignoreCase (some 0) lhs rhs (.ok 0)
  | noFirst {limit : Option Nat} {lhs rhs : UInt64} {trap : Trap} (hlimit : limit ≠ some 0)
    (h : m.byte lhs = .error trap) : ComparesBytes m ignoreCase limit lhs rhs (.error trap)
  | noSecond {limit : Option Nat} {lhs rhs : UInt64} {a : UInt8} {trap : Trap}
    (hlimit : limit ≠ some 0) (ha : m.byte lhs = .ok a) (h : m.byte rhs = .error trap) :
    ComparesBytes m ignoreCase limit lhs rhs (.error trap)
  | decided {limit : Option Nat} {lhs rhs : UInt64} {a b : UInt8} (hlimit : limit ≠ some 0)
    (ha : m.byte lhs = .ok a) (hb : m.byte rhs = .ok b)
    (h : (Text.foldCase ignoreCase a != Text.foldCase ignoreCase b
      || Text.foldCase ignoreCase a == 0) = true) :
    ComparesBytes m ignoreCase limit lhs rhs
      (.ok (byteDifference (Text.foldCase ignoreCase a) (Text.foldCase ignoreCase b)))
  | next {limit : Option Nat} {lhs rhs : UInt64} {a b : UInt8} {answer : Except Trap Int64}
    (hlimit : limit ≠ some 0) (ha : m.byte lhs = .ok a) (hb : m.byte rhs = .ok b)
    (h : (Text.foldCase ignoreCase a != Text.foldCase ignoreCase b
      || Text.foldCase ignoreCase a == 0) = false)
    (hrest : ComparesBytes m ignoreCase (limit.map (· - 1)) (lhs + 1) (rhs + 1) answer) :
    ComparesBytes m ignoreCase limit lhs rhs answer

variable {m : Memory} {ignoreCase : Bool} {limit : Option Nat} {lhs rhs : UInt64}
  {answer : Except Trap Int64}

theorem compareFrom_succ (left : Nat) :
    m.compareFrom ignoreCase (left + 1) lhs rhs = (do
      let a := Text.foldCase ignoreCase (← m.byte lhs)
      let b := Text.foldCase ignoreCase (← m.byte rhs)
      if a != b || a == 0 then return byteDifference a b
      else m.compareFrom ignoreCase left (lhs + 1) (rhs + 1)) := by
  rw [compareFrom]

/-- As many bytes as are left are enough: they are the limit, or go past the end of memory. -/
structure Enough (m : Memory) (limit : Option Nat) (lhs : UInt64) (left : Nat) : Prop where
  le_limit : ∀ n, limit = some n → left ≤ n
  past_end : limit ≠ some left → 0 < left ∧ (reserved ≤ lhs.toNat → m.size - lhs.toNat < left)

theorem Enough.next {left : Nat} (h : m.Enough limit lhs (left + 1)) {a : UInt8}
    (ha : m.byte lhs = .ok a) : m.Enough (limit.map (· - 1)) (lhs + 1) left := by
  have hbounds := Compares.byte_bounds ha
  have hsucc : (lhs + 1).toNat = (lhs.toNat + 1) % 2 ^ 64 := UInt64.toNat_add lhs 1
  refine ⟨fun n hn => ?_, fun hne => ?_⟩
  · obtain ⟨k, hk, rfl⟩ := Option.map_eq_some_iff.mp hn
    have := h.le_limit k hk
    omega
  · have hne' : limit ≠ some (left + 1) := by
      rintro rfl
      exact hne rfl
    have hpast := (h.past_end hne').2 hbounds.1
    refine ⟨by omega, fun hres => ?_⟩
    have hlhs := lhs.toNat_lt
    have : reserved = 16 := rfl
    omega

theorem comparesBytes_compareFrom {left : Nat} (h : m.Enough limit lhs left) :
    m.ComparesBytes ignoreCase limit lhs rhs (m.compareFrom ignoreCase left lhs rhs) := by
  induction left generalizing limit lhs rhs with
  | zero =>
    have hlimit : limit = some 0 := by
      by_contra hne
      exact Nat.lt_irrefl 0 (h.past_end hne).1
    subst hlimit
    exact .limit
  | succ left ih =>
    have hlimit : limit ≠ some 0 := fun heq => absurd (h.le_limit 0 heq) (by omega)
    rw [compareFrom_succ]
    cases ha : m.byte lhs with
    | error trap => exact .noFirst hlimit ha
    | ok a =>
      cases hb : m.byte rhs with
      | error trap => exact .noSecond hlimit ha hb
      | ok b =>
        dsimp only [bind, Except.bind, pure, Except.pure]
        split
        next hends => exact .decided hlimit ha hb hends
        next hgoes => exact .next hlimit ha hb (by simpa using hgoes) (ih (h.next ha))

/-- Strings are compared as far as it takes, which is never past the end of memory. -/
theorem comparesBytes_compareStrings (m : Memory) (ignoreCase : Bool) (limit : Option Nat)
    (lhs rhs : UInt64) :
    m.ComparesBytes ignoreCase limit lhs rhs (m.compareStrings ignoreCase limit lhs rhs) := by
  refine comparesBytes_compareFrom ⟨?_, ?_⟩
  · rintro n rfl
    exact Nat.min_le_left _ _
  · intro hne
    have hleft : min (limit.getD (m.size + 1)) (m.size + 1) = m.size + 1 := by
      cases limit with
      | none => exact Nat.min_self _
      | some n =>
        refine Nat.min_eq_right (Nat.le_of_not_lt fun hlt => hne ?_)
        rw [Option.getD_some, Nat.min_eq_left (by simpa using Nat.le_of_lt hlt)]
    rw [hleft]
    exact ⟨Nat.succ_pos _, fun _ => by omega⟩

theorem ComparesBytes.unique {answer' : Except Trap Int64}
    (h : m.ComparesBytes ignoreCase limit lhs rhs answer)
    (h' : m.ComparesBytes ignoreCase limit lhs rhs answer') : answer = answer' := by
  induction h generalizing answer' with
  | limit => cases h' <;> first | rfl | contradiction
  | noFirst hlimit h => cases h' <;> simp_all
  | noSecond hlimit ha h => cases h' <;> simp_all
  | decided hlimit ha hb h => cases h' <;> simp_all
  | next hlimit ha hb h hrest ih =>
    cases h' with
    | next _ _ _ _ hrest' => exact ih hrest'
    | _ => simp_all

end Memory

/-! ## Differences of bytes -/

theorem toInt_byteDifference (x y : UInt8) :
    (byteDifference x y).toInt = (x.toNat : Int) - y.toNat := by
  have hx := x.toNat_lt
  have hy := y.toNat_lt
  exact Int64.toInt_ofInt_of_le (by omega) (by omega)

theorem neg_byteDifference (x y : UInt8) : -byteDifference x y = byteDifference y x := by
  rw [byteDifference, byteDifference, ← Int64.ofInt_neg, Int.neg_sub]

theorem byteDifference_eq_zero {x y : UInt8} : byteDifference x y = 0 ↔ x = y := by
  constructor
  · intro h
    have hint := congrArg Int64.toInt h
    rw [toInt_byteDifference, Int64.toInt_zero] at hint
    exact UInt8.toNat_inj.mp (by omega)
  · rintro rfl
    exact byteDifference_self x

/-! ## Strings in memory -/

/-- A list of bytes up to its first NUL, which is the last of them. -/
def throughNul : List UInt8 → List UInt8
  | [] => []
  | byte :: rest => if byte = 0 then [byte] else byte :: throughNul rest

/-- What a comparison sees of some bytes. -/
def seenOf (ignoreCase : Bool) (limit : Option Nat) (bytes : List UInt8) : List UInt8 :=
  let bounded := match limit with
    | none => bytes
    | some count => bytes.take count
  (throughNul bounded).map (Text.foldCase ignoreCase)

/-- A comparison of two lists of bytes comes to an end: they have as many bytes as the bound says, or
a position below the bound where they differ or the first one has a NUL. -/
def Decided (ignoreCase : Bool) (limit : Option Nat) (xs ys : List UInt8) : Prop :=
  (∃ count, limit = some count ∧ count ≤ xs.length ∧ count ≤ ys.length) ∨
    ∃ k x y, (∀ count, limit = some count → k < count) ∧ xs[k]? = some x ∧ ys[k]? = some y ∧
      (Text.foldCase ignoreCase x ≠ Text.foldCase ignoreCase y ∨ x = 0)

/-- Two lists are the same in front of a position, where each has a byte of its own. -/
structure PartAt (xs ys : List UInt8) (k : Nat) (x y : UInt8) : Prop where
  before : xs.take k = ys.take k
  left : xs[k]? = some x
  right : ys[k]? = some y
  ne : x ≠ y

variable {ignoreCase : Bool} {limit : Option Nat} {xs ys : List UInt8} {x y : UInt8} {k : Nat}

theorem PartAt.cons (h : PartAt xs ys k x y) (byte : UInt8) :
    PartAt (byte :: xs) (byte :: ys) (k + 1) x y :=
  ⟨by rw [List.take_succ_cons, List.take_succ_cons, h.before], h.left, h.right, h.ne⟩

theorem PartAt.ne_lists (h : PartAt xs ys k x y) : xs ≠ ys := by
  rintro rfl
  exact h.ne (Option.some.inj (h.left.symm.trans h.right))

@[simp] theorem seenOf_zero (bytes : List UInt8) : seenOf ignoreCase (some 0) bytes = [] :=
  rfl

theorem seenOf_cons (h : limit ≠ some 0) (byte : UInt8) (rest : List UInt8) :
    seenOf ignoreCase limit (byte :: rest) = Text.foldCase ignoreCase byte ::
      if byte = 0 then [] else seenOf ignoreCase (limit.map (· - 1)) rest := by
  unfold seenOf
  match limit with
  | none =>
    dsimp only [Option.map_none]
    rw [throughNul]
    split <;> rfl
  | some 0 => exact absurd rfl h
  | some (count + 1) =>
    dsimp only [Option.map_some]
    rw [List.take_succ_cons, throughNul, Nat.add_sub_cancel]
    split <;> rfl

theorem decided_zero : Decided ignoreCase (some 0) xs ys :=
  .inl ⟨0, rfl, Nat.zero_le _, Nat.zero_le _⟩

theorem not_decided_nil_left (h : limit ≠ some 0) : ¬Decided ignoreCase limit [] ys := by
  rintro (⟨count, rfl, hle, -⟩ | ⟨k, x, y, -, hx, -⟩)
  · exact h (congrArg some (Nat.le_zero.mp hle))
  · cases hx

theorem not_decided_nil_right (h : limit ≠ some 0) : ¬Decided ignoreCase limit xs [] := by
  rintro (⟨count, rfl, -, hle⟩ | ⟨k, x, y, -, -, hy, -⟩)
  · exact h (congrArg some (Nat.le_zero.mp hle))
  · cases hy

theorem decided_cons (h : limit ≠ some 0) :
    Decided ignoreCase limit (x :: xs) (y :: ys) ↔
      (Text.foldCase ignoreCase x ≠ Text.foldCase ignoreCase y ∨ x = 0) ∨
        Decided ignoreCase (limit.map (· - 1)) xs ys := by
  constructor
  · rintro (⟨count, rfl, hx, hy⟩ | ⟨k, x', y', hk, hx, hy, hends⟩)
    · rw [List.length_cons] at hx hy
      exact .inr (.inl ⟨count - 1, rfl, by omega, by omega⟩)
    · cases k with
      | zero =>
        obtain rfl := Option.some.inj hx
        obtain rfl := Option.some.inj hy
        exact .inl hends
      | succ k =>
        refine .inr (.inr ⟨k, x', y', fun count hcount => ?_, hx, hy, hends⟩)
        obtain ⟨count, hlimit, rfl⟩ := Option.map_eq_some_iff.mp hcount
        have := hk count hlimit
        omega
  · rintro (hends | ⟨count, hcount, hx, hy⟩ | ⟨k, x', y', hk, hx, hy, hends⟩)
    · refine .inr ⟨0, x, y, fun count hcount => Nat.pos_of_ne_zero ?_, rfl, rfl, hends⟩
      rintro rfl
      exact h hcount
    · obtain ⟨count, rfl, rfl⟩ := Option.map_eq_some_iff.mp hcount
      refine .inl ⟨count, rfl, ?_, ?_⟩ <;> rw [List.length_cons] <;> omega
    · refine .inr ⟨k + 1, x', y', fun count hcount => ?_, hx, hy, hends⟩
      have := hk (count - 1) (hcount ▸ rfl)
      omega

namespace Memory

/-- The bytes from an address to the end of memory. There are none in front of what is handed out,
and none behind the last address. -/
def bytesFrom (m : Memory) (addr : UInt64) : List UInt8 :=
  if reserved ≤ addr.toNat then (m.bytes.toList.take UInt64.size).drop addr.toNat else []

/-- What a comparison sees of the string at an address. -/
def stringAt (m : Memory) (ignoreCase : Bool) (limit : Option Nat) (addr : UInt64) : List UInt8 :=
  seenOf ignoreCase limit (m.bytesFrom addr)

variable {m : Memory} {addr lhs rhs : UInt64} {byte : UInt8} {answer : Except Trap Int64}
  {result : Int64}

theorem bytesFrom_of_byte (h : m.byte addr = .ok byte) :
    m.bytesFrom addr = byte :: m.bytesFrom (addr + 1) := by
  obtain ⟨hreserved, hsize⟩ := Compares.byte_bounds h
  have hlt : addr.toNat < (m.bytes.toList.take UInt64.size).length := by
    rw [List.length_take, Array.length_toList]
    exact lt_min addr.toNat_lt hsize
  have hbyte : (m.bytes.toList.take UInt64.size)[addr.toNat] = byte := by
    unfold Memory.byte at h
    split at h
    · rw [List.getElem_take, Array.getElem_toList]
      exact (Array.getElem_eq_getD 0).trans (Except.ok.inj h)
    · cases h
  have hnext : (addr + 1).toNat = (addr.toNat + 1) % UInt64.size := UInt64.toNat_add addr 1
  rw [bytesFrom, if_pos hreserved, List.drop_eq_getElem_cons hlt, hbyte, bytesFrom, hnext]
  congr 1
  obtain hmore | hlast := (Nat.succ_le_of_lt addr.toNat_lt).lt_or_eq
  · rw [Nat.mod_eq_of_lt hmore, if_pos (Nat.le_succ_of_le hreserved)]
  · -- Behind the last address comes null.
    have hwrap : (addr.toNat + 1) % UInt64.size = 0 := by
      rw [show addr.toNat + 1 = UInt64.size from hlast, Nat.mod_self]
    rw [hwrap, if_neg (by decide)]
    refine List.drop_eq_nil_of_le ?_
    rw [List.length_take]
    exact (min_le_left _ _).trans hlast.ge

theorem bytesFrom_of_byte_error {trap : Trap} (h : m.byte addr = .error trap) :
    m.bytesFrom addr = [] := by
  unfold Memory.byte at h
  split at h
  · cases h
  · next hout =>
    unfold bytesFrom
    split
    · next hreserved =>
      have hsize : ¬addr.toNat + 1 ≤ m.size := fun hle => hout (inBounds_iff.mpr ⟨hreserved, hle⟩)
      refine List.drop_eq_nil_of_le ?_
      rw [List.length_take, Array.length_toList]
      exact (min_le_right _ _).trans (Nat.not_lt.mp hsize)
    · rfl

namespace ComparesBytes

/-- The result is that of the first position where the strings part. -/
theorem parts (h : m.ComparesBytes ignoreCase limit lhs rhs answer) (hresult : answer = .ok result) :
    m.stringAt ignoreCase limit lhs = m.stringAt ignoreCase limit rhs ∧ result = 0 ∨
      ∃ k x y, PartAt (m.stringAt ignoreCase limit lhs) (m.stringAt ignoreCase limit rhs) k x y ∧
        result = byteDifference x y := by
  unfold stringAt
  induction h with
  | limit =>
    obtain rfl := Except.ok.inj hresult
    exact .inl ⟨rfl, rfl⟩
  | noFirst => cases hresult
  | noSecond => cases hresult
  | @decided limit lhs rhs a b hlimit ha hb hends =>
    obtain rfl := Except.ok.inj hresult
    rw [bytesFrom_of_byte ha, bytesFrom_of_byte hb, seenOf_cons hlimit, seenOf_cons hlimit]
    by_cases hsame : Text.foldCase ignoreCase a = Text.foldCase ignoreCase b
    · have hnul : Text.foldCase ignoreCase a = 0 := by simpa [hsame] using hends
      have ha : a = 0 := (foldCase_eq_zero _ _).mp hnul
      have hb : b = 0 := (foldCase_eq_zero _ _).mp (hsame ▸ hnul)
      subst ha hb
      exact .inl ⟨rfl, byteDifference_self _⟩
    · exact .inr ⟨0, _, _, ⟨rfl, rfl, rfl, hsame⟩, rfl⟩
  | @next limit lhs rhs a b answer hlimit ha hb hgoes _ ih =>
    obtain ⟨hsame, hnul⟩ : Text.foldCase ignoreCase a = Text.foldCase ignoreCase b ∧
        Text.foldCase ignoreCase a ≠ 0 := by simpa using hgoes
    have ha₀ : a ≠ 0 := fun h => hnul ((foldCase_eq_zero _ _).mpr h)
    have hb₀ : b ≠ 0 := fun h => hnul (hsame.trans ((foldCase_eq_zero _ _).mpr h))
    rw [bytesFrom_of_byte ha, bytesFrom_of_byte hb, seenOf_cons hlimit, seenOf_cons hlimit,
      if_neg ha₀, if_neg hb₀, ← hsame]
    obtain ⟨hequal, hzero⟩ | ⟨k, x, y, hparts, hdifference⟩ := ih hresult
    · exact .inl ⟨congrArg _ hequal, hzero⟩
    · exact .inr ⟨k + 1, x, y, hparts.cons _, hdifference⟩

/-- The other way around the result is the negative. -/
theorem swap (h : m.ComparesBytes ignoreCase limit lhs rhs answer) (hresult : answer = .ok result) :
    m.ComparesBytes ignoreCase limit rhs lhs (.ok (-result)) := by
  induction h with
  | limit =>
    obtain rfl := Except.ok.inj hresult
    exact .limit
  | noFirst => cases hresult
  | noSecond => cases hresult
  | @decided limit lhs rhs a b hlimit ha hb hends =>
    obtain rfl := Except.ok.inj hresult
    rw [neg_byteDifference]
    refine .decided hlimit hb ha ?_
    rw [Bool.or_eq_true, bne_iff_ne, beq_iff_eq] at hends ⊢
    grind
  | @next limit lhs rhs a b answer hlimit ha hb hgoes _ ih =>
    refine .next hlimit hb ha ?_ (ih hresult)
    rw [Bool.or_eq_false_iff, bne_eq_false_iff_eq, beq_eq_false_iff_ne] at hgoes ⊢
    exact ⟨hgoes.1.symm, hgoes.1 ▸ hgoes.2⟩

/-- There is a result exactly when the bytes up to the one that decides are in memory. -/
theorem exists_result_iff (h : m.ComparesBytes ignoreCase limit lhs rhs answer) :
    (∃ result, answer = .ok result) ↔
      Decided ignoreCase limit (m.bytesFrom lhs) (m.bytesFrom rhs) := by
  induction h with
  | limit => exact iff_of_true ⟨0, rfl⟩ decided_zero
  | noFirst hlimit herror =>
    rw [bytesFrom_of_byte_error herror]
    exact iff_of_false nofun (not_decided_nil_left hlimit)
  | noSecond hlimit ha herror =>
    rw [bytesFrom_of_byte_error herror]
    exact iff_of_false nofun (not_decided_nil_right hlimit)
  | @decided limit lhs rhs a b hlimit ha hb hends =>
    rw [bytesFrom_of_byte ha, bytesFrom_of_byte hb, decided_cons hlimit]
    refine iff_of_true ⟨_, rfl⟩ (.inl ?_)
    rw [Bool.or_eq_true, bne_iff_ne, beq_iff_eq, foldCase_eq_zero] at hends
    exact hends
  | @next limit lhs rhs a b answer hlimit ha hb hgoes _ ih =>
    rw [bytesFrom_of_byte ha, bytesFrom_of_byte hb, decided_cons hlimit, ih]
    rw [Bool.or_eq_false_iff, bne_eq_false_iff_eq, beq_eq_false_iff_ne, Ne,
      foldCase_eq_zero] at hgoes
    simp [hgoes]

end ComparesBytes

/-- If a comparison has a result, it is zero exactly when the strings are the same, and otherwise the
difference of the bytes at the first position where they part; the other way around the result is
the negative. There is a result exactly when the bytes up to the position that decides are in
memory. -/
theorem compareStrings_difference (m : Memory) (ignoreCase : Bool) (limit : Option Nat)
    (lhs rhs : UInt64) :
    (∀ result, m.compareStrings ignoreCase limit lhs rhs = .ok result →
      (result = 0 ↔ m.stringAt ignoreCase limit lhs = m.stringAt ignoreCase limit rhs) ∧
      (m.stringAt ignoreCase limit lhs ≠ m.stringAt ignoreCase limit rhs → ∃ k x y,
        PartAt (m.stringAt ignoreCase limit lhs) (m.stringAt ignoreCase limit rhs) k x y ∧
          result.toInt = (x.toNat : Int) - y.toNat) ∧
      m.compareStrings ignoreCase limit rhs lhs = .ok (-result)) ∧
    ((∃ result, m.compareStrings ignoreCase limit lhs rhs = .ok result) ↔
      Decided ignoreCase limit (m.bytesFrom lhs) (m.bytesFrom rhs)) := by
  have hcompares := comparesBytes_compareStrings m ignoreCase limit lhs rhs
  refine ⟨fun result hresult => ⟨?_, fun hne => ?_, ?_⟩, hcompares.exists_result_iff⟩
  · obtain ⟨hequal, rfl⟩ | ⟨k, x, y, hparts, rfl⟩ := hcompares.parts hresult
    · exact iff_of_true rfl hequal
    · exact iff_of_false (byteDifference_eq_zero.not.mpr hparts.ne) hparts.ne_lists
  · obtain ⟨hequal, -⟩ | ⟨k, x, y, hparts, rfl⟩ := hcompares.parts hresult
    · exact absurd hequal hne
    · exact ⟨k, x, y, hparts, toInt_byteDifference x y⟩
  · exact (comparesBytes_compareStrings m ignoreCase limit rhs lhs).unique (hcompares.swap hresult)

/-- A word in capitals and behind it one that goes on with a byte that is no letter. -/
def twoWords : Memory where
  bytes := Array.replicate reserved 0 ++ #[65, 66, 0, 97, 98, 255, 0]

theorem twoWords_difference :
    twoWords.compareStrings true none 16 19 = .ok (-255) ∧
      twoWords.stringAt true none 16 ≠ twoWords.stringAt true none 19 ∧
      twoWords.compareStrings true none 19 16 = .ok 255 ∧
      twoWords.stringAt true (some 2) 16 = twoWords.stringAt true (some 2) 19 := by
  have hwhole : twoWords.compareStrings true none 16 19 = .ok (-255) := rfl
  have hbounded : twoWords.compareStrings true (some 2) 16 19 = .ok 0 := rfl
  obtain ⟨hzero, -, hswap⟩ := (compareStrings_difference twoWords true none 16 19).1 _ hwhole
  obtain ⟨hzero', -⟩ := (compareStrings_difference twoWords true (some 2) 16 19).1 _ hbounded
  exact ⟨hwhole, fun h => absurd (hzero.mpr h) (by decide), hswap, hzero'.mp rfl⟩

end Memory

end EdgeProbe
