import RegisterMachine.Proofs.Text.Split
import RegisterMachine.Text.Utf8

/-! # Texts read back from their bytes

A text that was encoded is decoded as it was (`decode?_encode`).  This also holds line by line: the
byte of a line end stands in the encoding of no other character, so cutting the bytes at it is the
same as cutting the text (`segments_encodedBytes`).

A byte index is a place in a text just if it is the length of what stands before it
(`splitAtByte?_eq_some_iff`). -/

namespace RegisterMachine
namespace Text

/-- The bytes of a text, in order. -/
def encodedBytes (t : Text) : List UInt8 :=
  t.flatMap String.utf8EncodeChar

theorem encode_eq (t : Text) : encode t = ⟨(encodedBytes t).toArray⟩ :=
  ByteArray.ext (List.data_toByteArray)

/-- **A text is read back from its bytes.** -/
theorem decode?_encode (t : Text) : decode? (encode t) = some t := by
  have hvalid : String.fromUTF8? (String.ofList t).toUTF8 = some (String.ofList t) := by
    rw [String.fromUTF8?, String.toUTF8_eq_toByteArray, dif_pos (String.ofList t).isValidUTF8]
    rfl
  rw [decode?, encode, hvalid, Option.map_some, String.toList_ofList]

/-! ## Places -/

@[simp] theorem byteLength_nil : byteLength [] = 0 := rfl

@[simp] theorem byteLength_cons (c : Char) (t : Text) :
    byteLength (c :: t) = c.utf8Size + byteLength t := rfl

@[simp] theorem byteLength_append (t u : Text) :
    byteLength (t ++ u) = byteLength t + byteLength u := by
  induction t with
  | nil => simp
  | cons c t ih => simp [ih, Nat.add_assoc]

theorem byteLength_eq_zero_iff {t : Text} : byteLength t = 0 ↔ t = [] := by
  cases t with
  | nil => simp
  | cons c t =>
    have hpos := c.utf8Size_pos
    simp only [byteLength_cons, reduceCtorEq, iff_false]
    omega

/-- **A text is split at a byte index** if that is the length of some first characters. -/
theorem splitAtByte?_eq_some_iff {t u v : Text} {count : Nat} :
    splitAtByte? t count = some (u, v) ↔ t = u ++ v ∧ byteLength u = count := by
  induction t generalizing count u v with
  | nil =>
    cases count with
    | zero => cases u <;> simp [splitAtByte?, eq_comm]
    | succ count =>
      simp only [splitAtByte?, reduceCtorEq, false_iff, not_and]
      intro hnil
      rw [(List.append_eq_nil_iff.mp hnil.symm).1]
      simp
  | cons c t ih =>
    cases count with
    | zero =>
      rw [splitAtByte?, Option.some.injEq, Prod.mk.injEq, byteLength_eq_zero_iff]
      constructor
      · rintro ⟨rfl, rfl⟩
        exact ⟨rfl, rfl⟩
      · rintro ⟨hsplit, rfl⟩
        exact ⟨rfl, hsplit⟩
    | succ count =>
      have hpos := c.utf8Size_pos
      rw [splitAtByte?]
      split
      · rename_i hle
        simp only [Option.map_eq_some_iff, Prod.exists, Prod.mk.injEq, ih]
        constructor
        · rintro ⟨front, back, ⟨rfl, hfront⟩, rfl, rfl⟩
          refine ⟨rfl, ?_⟩
          rw [byteLength_cons]
          omega
        · rintro ⟨hsplit, hlength⟩
          cases u with
          | nil => simp at hlength
          | cons d u =>
            obtain ⟨rfl, rfl⟩ := List.cons.inj hsplit
            rw [byteLength_cons] at hlength
            exact ⟨u, v, ⟨rfl, by omega⟩, rfl, rfl⟩
      · rename_i hle
        simp only [reduceCtorEq, false_iff, not_and]
        intro hsplit hlength
        cases u with
        | nil => simp at hlength
        | cons d u =>
          obtain ⟨rfl, -⟩ := List.cons.inj hsplit
          rw [byteLength_cons] at hlength
          omega

/-- **What stands between two places** is found by their byte indices. -/
theorem slice?_append (before part after : Text) :
    slice? (before ++ (part ++ after)) (byteLength before) (byteLength before + byteLength part) =
      some part := by
  have hfront : splitAtByte? (before ++ (part ++ after)) (byteLength before) =
      some (before, part ++ after) := splitAtByte?_eq_some_iff.mpr ⟨rfl, rfl⟩
  have hpart : splitAtByte? (part ++ after) (byteLength part) = some (part, after) :=
    splitAtByte?_eq_some_iff.mpr ⟨rfl, rfl⟩
  simp [slice?, hfront, hpart]

/-! ## Lines of bytes -/

/-- A character of two bytes or more has none below 128. -/
theorem toNat_of_mem_utf8EncodeChar {c : Char} {b : UInt8} (h : b ∈ String.utf8EncodeChar c) :
    b.toNat = c.toNat ∨ 128 ≤ b.toNat := by
  have hval : c.val.toNat = c.toNat := rfl
  simp only [String.utf8EncodeChar, hval] at h
  split at h
  · rw [List.mem_singleton.mp h]
    left
    rw [UInt8.toNat_ofNat']
    omega
  · right
    split at h
    · simp only [List.mem_cons, List.not_mem_nil, or_false] at h
      rcases h with rfl | rfl <;> rw [UInt8.toNat_ofNat'] <;> omega
    · split at h <;> simp only [List.mem_cons, List.not_mem_nil, or_false] at h
      · rcases h with rfl | rfl | rfl <;> rw [UInt8.toNat_ofNat'] <;> omega
      · rcases h with rfl | rfl | rfl | rfl <;> rw [UInt8.toNat_ofNat'] <;> omega

/-- **The byte of a line end stands for nothing else.** -/
theorem forall_mem_encodedBytes_ne {t : Text} (h : ∀ c ∈ t, (c == '\n') = false) :
    ∀ b ∈ encodedBytes t, (b == '\n'.toUInt8) = false := by
  intro b hb
  obtain ⟨c, hc, hmem⟩ := List.mem_flatMap.mp hb
  have hne : c ≠ '\n' := by simpa using h c hc
  refine beq_eq_false_iff_ne.mpr ?_
  rintro rfl
  have hten : '\n'.toUInt8.toNat = '\n'.toNat := rfl
  rcases toNat_of_mem_utf8EncodeChar hmem with heq | hge
  · exact hne (Char.toNat_inj.mp (heq.symm.trans hten))
  · exact absurd hge (by decide)

theorem encodedBytes_ne_nil {t : Text} (h : t ≠ []) : encodedBytes t ≠ [] := by
  cases t with
  | nil => exact absurd rfl h
  | cons c t => simp [encodedBytes, String.utf8EncodeChar_ne_nil]

/-- **The lines of the bytes are the bytes of the lines.** -/
theorem segments_encodedBytes (t : Text) :
    segments (· == '\n'.toUInt8) (encodedBytes t) =
      (segments (· == '\n') t).map encodedBytes := by
  induction t using separated_induction (· == '\n') with
  | last t hnone =>
    rw [segments_of_forall_not (forall_mem_encodedBytes_ne hnone), segments_of_forall_not hnone]
    cases t with
    | nil => rfl
    | cons c t =>
      have hne := encodedBytes_ne_nil (List.cons_ne_nil c t)
      simp [hne]
  | next before c after hbefore hc ih =>
    obtain rfl : c = '\n' := by simpa using hc
    have hbytes : encodedBytes (before ++ '\n' :: after) =
        encodedBytes before ++ '\n'.toUInt8 :: encodedBytes after := by
      rw [encodedBytes, List.flatMap_append, List.flatMap_cons]
      rfl
    have hend : encodedBytes (before ++ ['\n']) = encodedBytes before ++ ['\n'.toUInt8] := by
      rw [encodedBytes, List.flatMap_append]
      rfl
    rw [hbytes, segments_append_cons (forall_mem_encodedBytes_ne hbefore) (by simp), ih,
      segments_append_cons hbefore hc, List.map_cons, hend]

end Text
end RegisterMachine
