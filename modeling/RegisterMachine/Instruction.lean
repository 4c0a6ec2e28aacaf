import RegisterMachine.Opcode
import RegisterMachine.Word

/-! # Instruction words

Read as an instruction, a word of memory has three fields of `fieldBits` bits: the code of the
operation lowest, then its two operands; the top byte plays no part.  Every word is *some*
instruction, since `Instruction` does not ask that its code be known: what an unknown code
means is for the machine to decide.

`decode` after `encode` is the identity (`decode_encode`), and `encode` after `decode` clears
the top byte (`toNat_encode_decode`). -/

namespace RegisterMachine

/-- The three fields of an instruction word. -/
@[ext]
structure Instruction where
  /-- The code of the operation, known or not. -/
  code : UInt8
  /-- The first operand. -/
  first : UInt8
  /-- The second operand. -/
  second : UInt8
deriving DecidableEq, Repr

namespace Instruction

/-- The width of a field, in bits. -/
def fieldBits : Word := 8

/-- The largest value of a field, which is also the mask that selects the lowest one. -/
def fieldMask : Word := 255

/-- The word of an instruction: its fields side by side, the code lowest. -/
def encode (i : Instruction) : Word :=
  (i.second.toUInt32 <<< fieldBits ||| i.first.toUInt32) <<< fieldBits ||| i.code.toUInt32

/-- The instruction a word stands for. -/
def decode (w : Word) : Instruction where
  code := (w &&& fieldMask).toUInt8
  first := (w >>> fieldBits &&& fieldMask).toUInt8
  second := (w >>> fieldBits >>> fieldBits &&& fieldMask).toUInt8

/-- The operation of an instruction, if its code is known. -/
def opcode? (i : Instruction) : Option Opcode :=
  Opcode.ofCode? i.code

/-- The source form of an instruction, for a reader: mnemonic and both operands. -/
def describe? (i : Instruction) : Option Text :=
  i.opcode?.map fun o =>
    o.mnemonic ++ " | ".toList ++ Text.decimal i.first.toNat ++ " | ".toList ++
      Text.decimal i.second.toNat

/-! ## Encoding and decoding -/

/-- A field put below a number that leaves room for it. -/
theorem toNat_shiftLeft_or (w : Word) (field : UInt8) (h : w.toNat < 0x1000000) :
    (w <<< fieldBits ||| field.toUInt32).toNat = 256 * w.toNat + field.toNat := by
  have hshift : (w <<< fieldBits).toNat = w.toNat <<< 8 := by
    rw [UInt32.toNat_shiftLeft]
    refine Nat.mod_eq_of_lt (?_ : w.toNat <<< 8 < 0x100000000)
    rw [Nat.shiftLeft_eq]
    omega
  -- the shift leaves the bits of the field free, so that joining is adding
  rw [UInt32.toNat_or, hshift, UInt8.toNat_toUInt32,
    ← Nat.shiftLeft_add_eq_or_of_lt field.toNat_lt, Nat.shiftLeft_eq]
  omega

theorem toNat_shiftRight (w : Word) : (w >>> fieldBits).toNat = w.toNat / 256 := by
  rw [UInt32.toNat_shiftRight]
  exact Nat.shiftRight_eq_div_pow w.toNat 8

/-- The lowest field of a word. -/
theorem toNat_and_mask (w : Word) : (w &&& fieldMask).toUInt8.toNat = w.toNat % 256 := by
  have hmask : (w &&& fieldMask).toNat = w.toNat % 256 := by
    rw [UInt32.toNat_and]
    exact Nat.and_two_pow_sub_one_eq_mod w.toNat 8
  rw [UInt32.toNat_toUInt8, hmask]
  omega

theorem toNat_encode (i : Instruction) :
    i.encode.toNat = i.code.toNat + 256 * i.first.toNat + 65536 * i.second.toNat := by
  have hfirst := i.first.toNat_lt
  have hsecond := i.second.toNat_lt
  have hoperands : (i.second.toUInt32 <<< fieldBits ||| i.first.toUInt32).toNat =
      256 * i.second.toNat + i.first.toNat := by
    have hroom : i.second.toUInt32.toNat < 0x1000000 := by
      rw [UInt8.toNat_toUInt32]
      omega
    rw [toNat_shiftLeft_or _ _ hroom, UInt8.toNat_toUInt32]
  rw [encode, toNat_shiftLeft_or _ _ (by omega), hoperands]
  omega

theorem toNat_decode_code (w : Word) : (decode w).code.toNat = w.toNat % 256 :=
  toNat_and_mask w

theorem toNat_decode_first (w : Word) : (decode w).first.toNat = w.toNat / 256 % 256 := by
  rw [decode, toNat_and_mask, toNat_shiftRight]

theorem toNat_decode_second (w : Word) : (decode w).second.toNat = w.toNat / 65536 % 256 := by
  rw [decode, toNat_and_mask, toNat_shiftRight, toNat_shiftRight, Nat.div_div_eq_div_mul]

@[simp] theorem decode_encode (i : Instruction) : decode i.encode = i := by
  have hc := i.code.toNat_lt
  have hf := i.first.toNat_lt
  have hs := i.second.toNat_lt
  have hw := i.toNat_encode
  have hcode := toNat_decode_code i.encode
  have hfirst := toNat_decode_first i.encode
  have hsecond := toNat_decode_second i.encode
  refine Instruction.ext (UInt8.toNat_inj.mp ?_) (UInt8.toNat_inj.mp ?_) (UInt8.toNat_inj.mp ?_)
  · omega
  · omega
  · omega

/-- Encoding what a word decodes to keeps the three fields and clears the rest. -/
theorem toNat_encode_decode (w : Word) : (decode w).encode.toNat = w.toNat % 0x1000000 := by
  rw [toNat_encode, toNat_decode_code, toNat_decode_first, toNat_decode_second]
  omega

theorem opcode?_eq_some_iff {i : Instruction} {o : Opcode} :
    i.opcode? = some o ↔ i.code = o.code := by
  rw [opcode?, Opcode.ofCode?_eq_some_iff]
  exact eq_comm

end Instruction

/-- The word that stands in memory where a breakpoint is set. -/
def breakpointWord : Word :=
  Instruction.encode ⟨Opcode.breakpoint.code, 0, 0⟩

end RegisterMachine
