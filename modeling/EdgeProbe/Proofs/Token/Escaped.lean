import Mathlib.Tactic
import EdgeProbe.Proofs.Json.ReadBack
import EdgeProbe.Token.Entry

/-!
# Tokens read back

A token is read back by putting a byte in the place of each escape. What comes out are the bytes of
the literal, without the NUL that text tokens lose, so tokens tell literals apart as far as that.
Main statement: `Token.encode?_decodes`.
-/

namespace EdgeProbe

namespace Token

/-- The byte that two hexadecimal digits spell. -/
def hexByte? (hi lo : Char) : Option UInt8 := do
  return UInt8.ofNat ((← Json.hexDigit? hi) * 16 + (← Json.hexDigit? lo))

/-- The bytes a token stands for: one for each escape, and the one of its number for any other
character. -/
def decode : List Char → List UInt8
  | '\\' :: 'x' :: hi :: lo :: rest =>
    match hexByte? hi lo with
    | some byte => byte :: decode rest
    | none => UInt8.ofNat '\\'.toNat :: decode ('x' :: hi :: lo :: rest)
  | c :: rest => UInt8.ofNat c.toNat :: decode rest
  | [] => []

/-- A printable character of ASCII that neither ends a token nor parts it from its tag. -/
def Unmarked (c : Char) : Prop :=
  ' ' ≤ c ∧ c ≤ '~' ∧ c ≠ '"' ∧ c ≠ '='

/-- Characters without a meaning in a dictionary line, among which a backslash begins an escape. -/
inductive Quotable : List Char → Prop
  | nil : Quotable []
  | plain {c : Char} {rest : List Char} : Unmarked c → c ≠ '\\' → Quotable rest → Quotable (c :: rest)
  | escape {hi lo : Char} {byte : UInt8} {rest : List Char} : hexByte? hi lo = some byte →
      Quotable rest → Quotable ('\\' :: 'x' :: hi :: lo :: rest)

/-! ## Escapes -/

theorem hexByte?_eq_some {hi lo : Char} {byte : UInt8} (h : hexByte? hi lo = some byte) :
    (∃ n, Json.hexDigit? hi = some n) ∧ ∃ n, Json.hexDigit? lo = some n := by
  obtain ⟨n, hn, h⟩ := Option.bind_eq_some_iff.mp h
  obtain ⟨k, hk, -⟩ := Option.bind_eq_some_iff.mp h
  exact ⟨⟨n, hn⟩, k, hk⟩

theorem unmarked_of_hexDigit? {c : Char} {n : Nat} (h : Json.hexDigit? c = some n) : Unmarked c := by
  have hbounds : '0' ≤ c ∧ c ≤ '9' ∨ 'a' ≤ c ∧ c ≤ 'f' ∨ 'A' ≤ c ∧ c ≤ 'F' := by
    unfold Json.hexDigit? at h
    split at h
    · exact .inl ‹_›
    split at h
    · exact .inr (.inl ‹_›)
    split at h
    · exact .inr (.inr ‹_›)
    · cases h
  simp only [Char.le_def, UInt32.le_iff_toNat_le] at hbounds
  have hle : ' '.val.toNat ≤ c.val.toNat ∧ c.val.toNat ≤ '~'.val.toNat := by
    simp at hbounds ⊢
    omega
  refine ⟨UInt32.le_iff_toNat_le.mpr hle.1, UInt32.le_iff_toNat_le.mpr hle.2, ?_, ?_⟩
  all_goals
    rintro rfl
    revert hbounds
    decide

/-- The digits of a byte spell it. -/
theorem escapeByte_eq (byte : UInt8) : ∃ hi lo, escapeByte byte = ['\\', 'x', hi, lo] ∧
    hexByte? hi lo = some byte := by
  have hlt := byte.toNat_lt
  refine ⟨Text.hexDigit (byte.toNat / 16 % 16), Text.hexDigit (byte.toNat % 16), rfl, ?_⟩
  have hsum : byte.toNat / 16 % 16 * 16 + byte.toNat % 16 = byte.toNat := by omega
  rw [hexByte?, Json.hexDigit?_hexDigit _ (by omega), Json.hexDigit?_hexDigit _ (by omega)]
  change some (UInt8.ofNat (byte.toNat / 16 % 16 * 16 + byte.toNat % 16)) = some byte
  rw [hsum, UInt8.ofNat_toNat]

theorem decode_escapeByte (byte : UInt8) (rest : List Char) :
    decode (escapeByte byte ++ rest) = byte :: decode rest := by
  obtain ⟨hi, lo, hescape, hbyte⟩ := escapeByte_eq byte
  rw [hescape]
  change (match hexByte? hi lo with
    | some byte => byte :: decode rest
    | none => UInt8.ofNat '\\'.toNat :: decode ('x' :: hi :: lo :: rest)) = _
  rw [hbyte]

theorem decode_cons {c : Char} (hc : c ≠ '\\') (rest : List Char) :
    decode (c :: rest) = UInt8.ofNat c.toNat :: decode rest := by
  rw [decode]
  rintro hi lo rest rfl
  exact absurd rfl hc

/-- The character of a plain byte has its number, and no meaning of its own. -/
theorem char_of_isPlain {byte : UInt8} (h : isPlain byte = true) :
    UInt8.ofNat (Char.ofNat byte.toNat).toNat = byte ∧ Unmarked (Char.ofNat byte.toNat) ∧
      Char.ofNat byte.toNat ≠ '\\' := by
  have hall : ∀ n : Fin 256, isPlain (.ofFin n) = true →
      UInt8.ofNat (Char.ofNat n.val).toNat = .ofFin n ∧ (' ' ≤ Char.ofNat n.val ∧
        Char.ofNat n.val ≤ '~' ∧ Char.ofNat n.val ≠ '"' ∧ Char.ofNat n.val ≠ '=') ∧
        Char.ofNat n.val ≠ '\\' := by
    decide +kernel
  exact hall byte.toFin h

/-! ## Tokens -/

theorem encodeByte_cases (text : Bool) (byte : UInt8) :
    isPlain byte = true ∧ encodeByte text byte = [Char.ofNat byte.toNat] ∨
      encodeByte text byte = escapeByte byte := by
  unfold encodeByte
  split
  · next hplain => exact .inl ⟨(Bool.and_eq_true_iff.mp hplain).2, rfl⟩
  · exact .inr rfl

theorem decode_encodeByte (text : Bool) (byte : UInt8) (rest : List Char) :
    decode (encodeByte text byte ++ rest) = byte :: decode rest := by
  obtain ⟨hplain, henc⟩ | henc := encodeByte_cases text byte
  · obtain ⟨hchar, -, hne⟩ := char_of_isPlain hplain
    rw [henc, List.singleton_append, decode_cons hne, hchar]
  · rw [henc, decode_escapeByte byte rest]

theorem decode_encoded (text : Bool) (bytes : List UInt8) :
    decode (bytes.flatMap (encodeByte text)) = bytes := by
  induction bytes with
  | nil => rfl
  | cons byte rest ih => rw [List.flatMap_cons, decode_encodeByte, ih]

theorem quotable_encoded (text : Bool) (bytes : List UInt8) :
    Quotable (bytes.flatMap (encodeByte text)) := by
  induction bytes with
  | nil => exact .nil
  | cons byte rest ih =>
    rw [List.flatMap_cons]
    obtain ⟨hplain, henc⟩ | henc := encodeByte_cases text byte
    · obtain ⟨-, hunmarked, hne⟩ := char_of_isPlain hplain
      rw [henc]
      exact .plain hunmarked hne ih
    · obtain ⟨hi, lo, hescape, hbyte⟩ := escapeByte_eq byte
      rw [henc, hescape]
      exact .escape hbyte ih

theorem Quotable.unmarked {cs : List Char} (h : Quotable cs) : ∀ c ∈ cs, Unmarked c := by
  induction h with
  | nil => exact List.forall_mem_nil _
  | plain hc _ _ ih => exact List.forall_mem_cons.mpr ⟨hc, ih⟩
  | escape hbyte _ ih =>
    obtain ⟨⟨n, hhi⟩, k, hlo⟩ := hexByte?_eq_some hbyte
    have hfront : Unmarked '\\' ∧ Unmarked 'x' := by
      unfold Unmarked
      decide
    exact List.forall_mem_cons.mpr ⟨hfront.1, List.forall_mem_cons.mpr ⟨hfront.2,
      List.forall_mem_cons.mpr ⟨unmarked_of_hexDigit? hhi,
        List.forall_mem_cons.mpr ⟨unmarked_of_hexDigit? hlo, ih⟩⟩⟩⟩

/-- Two digits follow each backslash and its `x`. -/
theorem Quotable.escaped {cs : List Char} (h : Quotable cs) {front back : List Char}
    (hcs : cs = front ++ '\\' :: back) :
    ∃ hi lo byte rest, back = 'x' :: hi :: lo :: rest ∧ hexByte? hi lo = some byte := by
  induction h generalizing front with
  | nil => cases front <;> cases hcs
  | plain hc hne _ ih =>
    cases front with
    | nil => exact absurd (List.cons.inj hcs).1 hne
    | cons d front => exact ih (List.cons.inj hcs).2
  | @escape hi lo byte rest hbyte _ ih =>
    have hdigit : ∀ {c : Char} {n : Nat}, Json.hexDigit? c = some n → c ≠ '\\' := by
      rintro c n h rfl
      cases h
    obtain ⟨⟨n, hhi⟩, k, hlo⟩ := hexByte?_eq_some hbyte
    -- The backslash is the first of the escape, for none of the other three is one.
    match front, hcs with
    | [], hcs => exact ⟨hi, lo, byte, rest, ((List.cons.inj hcs).2).symm, hbyte⟩
    | [_], hcs => cases (List.cons.inj (List.cons.inj hcs).2).1
    | [_, _], hcs =>
      exact absurd (List.cons.inj (List.cons.inj (List.cons.inj hcs).2).2).1 (hdigit hhi)
    | [_, _, _], hcs =>
      exact absurd (List.cons.inj (List.cons.inj (List.cons.inj (List.cons.inj hcs).2).2).2).1
        (hdigit hlo)
    | _ :: _ :: _ :: _ :: front, hcs =>
      exact ih (List.cons.inj (List.cons.inj (List.cons.inj (List.cons.inj hcs).2).2).2).2

theorem encode?_eq_some {limits : Limits} {text : Bool} {bytes : List UInt8} {token : String} :
    encode? limits text bytes = some token ↔
      (limits.minTokenLen ≤ bytes.length ∧ bytes.length ≤ limits.maxTokenLen) ∧
        token = String.ofList ((withoutTerminator text bytes).flatMap (encodeByte text)) := by
  unfold encode?
  split
  · next h => exact ⟨nofun, fun h' => by omega⟩
  · next h =>
    rw [Option.some_inj, eq_comm]
    exact ⟨fun h' => ⟨by omega, h'⟩, And.right⟩

/-- A token is decoded to the bytes of its literal. -/
theorem decode_of_encode? {limits : Limits} {text : Bool} {bytes : List UInt8} {token : String}
    (h : encode? limits text bytes = some token) :
    decode token.toList = withoutTerminator text bytes := by
  rw [encode?_eq_some] at h
  obtain ⟨-, rfl⟩ := h
  rw [String.toList_ofList, decode_encoded]

theorem quotable_of_encode? {limits : Limits} {text : Bool} {bytes : List UInt8} {token : String}
    (h : encode? limits text bytes = some token) : Quotable token.toList := by
  rw [encode?_eq_some] at h
  obtain ⟨-, rfl⟩ := h
  rw [String.toList_ofList]
  exact quotable_encoded text _

/-- A literal of a length within the limits has a token that is decoded to it, less the NUL at the
end of a text. The token has no character with a meaning in a dictionary line and no backslash that
does not begin an escape, and it is the token of no literal that differs by more than such a NUL. -/
theorem encode?_decodes {limits : Limits} (text : Bool) {bytes : List UInt8}
    (hmin : limits.minTokenLen ≤ bytes.length) (hmax : bytes.length ≤ limits.maxTokenLen) :
    ∃ token, encode? limits text bytes = some token ∧
      decode token.toList = withoutTerminator text bytes ∧
      (∀ c ∈ token.toList, ' ' ≤ c ∧ c ≤ '~' ∧ c ≠ '"' ∧ c ≠ '=') ∧
      (∀ front back, token.toList = front ++ '\\' :: back →
        ∃ hi lo byte rest, back = 'x' :: hi :: lo :: rest ∧ hexByte? hi lo = some byte) ∧
      ∀ limits' text' bytes', encode? limits' text' bytes' = some token →
        withoutTerminator text' bytes' = withoutTerminator text bytes := by
  have htoken : encode? limits text bytes =
      some (String.ofList ((withoutTerminator text bytes).flatMap (encodeByte text))) := by
    rw [encode?_eq_some]
    exact ⟨⟨hmin, hmax⟩, rfl⟩
  have hquotable := quotable_of_encode? htoken
  refine ⟨_, htoken, decode_of_encode? htoken, hquotable.unmarked,
    fun front back => hquotable.escaped, fun limits' text' bytes' htoken' => ?_⟩
  rw [← decode_of_encode? htoken, decode_of_encode? htoken']

/-- A text that spells an escape and ends in a NUL. -/
theorem spelled_escape_decodes :
    (3 ≤ [0x5c, 0x78, 0x34, 0x31, 0x3d, 0x22, 0x00].length ∧
      [0x5c, 0x78, 0x34, 0x31, 0x3d, 0x22, 0x00].length ≤ 32) ∧
    ∃ token, encode? {} true [0x5c, 0x78, 0x34, 0x31, 0x3d, 0x22, 0x00] = some token ∧
      token = "\\x5cx41\\x3d\\x22" ∧
      decode token.toList = [0x5c, 0x78, 0x34, 0x31, 0x3d, 0x22] ∧
      ∀ bytes, encode? {} false bytes = some token → bytes = [0x5c, 0x78, 0x34, 0x31, 0x3d, 0x22] := by
  refine ⟨by decide, ?_⟩
  obtain ⟨token, htoken, hdecode, -, -, hsame⟩ := @encode?_decodes {} true
    [0x5c, 0x78, 0x34, 0x31, 0x3d, 0x22, 0x00] (by decide) (by decide)
  refine ⟨token, htoken, ?_, hdecode, fun bytes hbytes => hsame {} false bytes hbytes⟩
  rw [encode?_eq_some] at htoken
  obtain ⟨-, rfl⟩ := htoken
  decide +kernel

end Token

end EdgeProbe
