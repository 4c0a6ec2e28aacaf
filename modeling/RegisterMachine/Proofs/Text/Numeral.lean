import Mathlib.Data.List.Induction
import Mathlib.Data.Nat.Digits.Defs
import Mathlib.Tactic.MkIffOfInductiveProp
import RegisterMachine.Proofs.Text.Split
import RegisterMachine.Text.Numeral

/-! # What numerals stand for

A numeral is a run of digits, with or without a plus sign; what it stands for is said here without
reading it, in decimal (`IsNatural`, `IsNumeral`) and in hexadecimal (`IsHexNatural`,
`IsHexNumeral`), and reading finds just that (`number?_eq_some_iff`, `hexNumber?_eq_some_iff`).

Reading gives back what was printed, in hexadecimal whatever zeros stand before it
(`number?_paddedHex`). -/

namespace RegisterMachine
namespace Text

/-! ## Signs -/

theorem natural?_plus (base : Nat) (t : Text) : natural? base ('+' :: t) = none := by
  have hdigit : digit? base '+' = none := rfl
  simp [natural?, hdigit]

/-- **A plus sign** may stand before digits, and is none itself. -/
theorem natural?_dropPlus_eq_some_iff {base n : Nat} {t : Text} :
    natural? base (dropPlus t) = some n ↔
      natural? base t = some n ∨ ∃ u, natural? base u = some n ∧ t = '+' :: u := by
  unfold dropPlus
  split
  · rename_i u
    simp [natural?_plus]
  · rename_i hplus
    constructor
    · exact .inl
    · rintro (h | ⟨u, -, rfl⟩)
      · exact h
      · exact absurd rfl (hplus u)

/-! ## Decimal -/

/-- **Decimal digits**, at least one of them, and the number they stand for. -/
structure IsNatural (t : Text) (n : Nat) : Prop where
  nonempty : t ≠ []
  digits : ∀ c ∈ t, c.isDigit = true
  value : Nat.ofDigitChars 10 t 0 = n

/-- **A decimal numeral**: digits, with or without a plus sign before them. -/
@[mk_iff]
inductive IsNumeral : Text → Nat → Prop
  | unsigned {t : Text} {n : Nat} (h : IsNatural t n) : IsNumeral t n
  | signed {t : Text} {n : Nat} (h : IsNatural t n) : IsNumeral ('+' :: t) n

theorem isDigit_iff {c : Char} :
    c.isDigit = true ↔ '0'.toNat ≤ c.toNat ∧ c.toNat ≤ '9'.toNat := by
  simp only [Char.isDigit, Bool.and_eq_true, decide_eq_true_eq, ge_iff_le, UInt32.le_iff_toNat_le]
  rfl

theorem digit?_ten (c : Char) :
    digit? 10 c = if c.isDigit then some (c.toNat - '0'.toNat) else none := by
  by_cases h : '0'.toNat ≤ c.toNat ∧ c.toNat ≤ '9'.toNat
  · have hlt : c.toNat - '0'.toNat < 10 := by
      have h9 : '9'.toNat = '0'.toNat + 9 := rfl
      omega
    rw [if_pos (isDigit_iff.mpr h), digit?, digitValue, if_pos h]
    simpa using hlt
  · rw [if_neg (mt isDigit_iff.mp h), digit?, digitValue, if_neg h]
    -- a letter is worth ten at least
    split
    · simp
    · split <;> simp

theorem foldlM_digit?_ten {t : Text} {start n : Nat} :
    t.foldlM (fun value c => (digit? 10 c).map (10 * value + ·)) start = some n ↔
      (∀ c ∈ t, c.isDigit = true) ∧ Nat.ofDigitChars 10 t start = n := by
  induction t generalizing start with
  | nil => simp
  | cons c t ih =>
    rw [List.foldlM_cons, digit?_ten, Nat.ofDigitChars_cons]
    cases hc : c.isDigit with
    | false => simp [hc]
    | true => simp [hc, ih]

theorem natural?_eq_some_iff {t : Text} {n : Nat} : natural? 10 t = some n ↔ IsNatural t n := by
  unfold natural?
  split
  · rename_i hempty
    have hnil := List.isEmpty_iff.mp hempty
    simp only [reduceCtorEq, false_iff]
    exact fun h => h.nonempty hnil
  · rename_i hempty
    rw [foldlM_digit?_ten]
    constructor
    · rintro ⟨hdigits, hvalue⟩
      exact ⟨by simpa using hempty, hdigits, hvalue⟩
    · intro h
      exact ⟨h.digits, h.value⟩

/-- **Reading a decimal numeral** gives the number it stands for, unless that is too large. -/
theorem number?_eq_some_iff {limit n : Nat} {t : Text} :
    number? 10 limit t = some n ↔ IsNumeral t n ∧ n < limit := by
  rw [number?, Option.filter_eq_some_iff, natural?_dropPlus_eq_some_iff, decide_eq_true_iff,
    isNumeral_iff]
  simp only [natural?_eq_some_iff]

/-- **The decimal digits of a number** stand for it. -/
theorem isNatural_decimal (n : Nat) : IsNatural (decimal n) n where
  nonempty := Nat.toDigits_ne_nil
  digits _ hc := Nat.isDigit_of_mem_toDigits (by decide) (by decide) hc
  value := Nat.ofDigitChars_ten_toDigits

/-! ## Hexadecimal -/

/-- The digits that numbers are printed with. -/
def hexDigits : Text := "0123456789abcdef".toList

/-- The digits that numbers may also be read from. -/
def upperHexDigits : Text := "0123456789ABCDEF".toList

/-- **A hexadecimal digit**, of either case, and its value. -/
def IsHexDigit (c : Char) (d : Nat) : Prop :=
  hexDigits[d]? = some c ∨ upperHexDigits[d]? = some c

/-- **Hexadecimal digits**, at least one of them, and the number they stand for.  The last digit is
the lowest. -/
structure IsHexNatural (t : Text) (n : Nat) : Prop where
  nonempty : t ≠ []
  value : ∃ ds, List.Forall₂ IsHexDigit t.reverse ds ∧ Nat.ofDigits 16 ds = n

/-- **A hexadecimal numeral**: digits, with or without a plus sign before them. -/
@[mk_iff]
inductive IsHexNumeral : Text → Nat → Prop
  | unsigned {t : Text} {n : Nat} (h : IsHexNatural t n) : IsHexNumeral t n
  | signed {t : Text} {n : Nat} (h : IsHexNatural t n) : IsHexNumeral ('+' :: t) n

theorem IsHexNumeral.ne_nil {t : Text} {n : Nat} (h : IsHexNumeral t n) : t ≠ [] := by
  cases h with
  | unsigned h => exact h.nonempty
  | signed => exact List.cons_ne_nil _ _

theorem digit?_of_isHexDigit {c : Char} {d : Nat} (h : IsHexDigit c d) :
    digit? 16 c = some d := by
  have hlower : ∀ d : Fin 16, (hexDigits[d.val]?).bind (digit? 16) = some d.val := by decide
  have hupper : ∀ d : Fin 16, (upperHexDigits[d.val]?).bind (digit? 16) = some d.val := by decide
  rcases h with h | h
  · have hlt : d < 16 := (List.getElem?_eq_some_iff.mp h).1
    simpa [h] using hlower ⟨d, hlt⟩
  · have hlt : d < 16 := (List.getElem?_eq_some_iff.mp h).1
    simpa [h] using hupper ⟨d, hlt⟩

/-- Digits in the order of their characters are found by their distance from the first. -/
theorem getElem?_of_range (width start : Nat) {digits : Text} {first : Nat} {c : Char}
    (hdigits : ∀ k : Fin width, digits[k.val + start]? = some (Char.ofNat (first + k)))
    (hle : first ≤ c.toNat) (hlt : c.toNat < first + width) :
    digits[c.toNat - first + start]? = some c := by
  have hwidth : c.toNat - first < width := by omega
  rw [hdigits ⟨c.toNat - first, hwidth⟩, Nat.add_sub_cancel' hle, Char.ofNat_toNat]

theorem mem_hexDigits_of_isDigit {c : Char} (h : c.isDigit = true) : c ∈ hexDigits := by
  obtain ⟨hle, hlt⟩ := isDigit_iff.mp h
  exact List.mem_of_getElem? (getElem?_of_range 10 0 (by decide) hle (Nat.lt_succ_of_le hlt))

theorem isHexDigit_of_digit? {c : Char} {d : Nat} (h : digit? 16 c = some d) :
    IsHexDigit c d := by
  have hvalue : digitValue c = some d := (Option.filter_eq_some_iff.mp h).1
  unfold digitValue at hvalue
  split at hvalue
  · rename_i hrange
    obtain rfl := Option.some.inj hvalue
    exact .inl (getElem?_of_range 10 0 (by decide) hrange.1 (Nat.lt_succ_of_le hrange.2))
  · split at hvalue
    · rename_i hrange
      obtain rfl := Option.some.inj hvalue
      exact .inl (getElem?_of_range 6 10 (by decide) hrange.1 (Nat.lt_succ_of_le hrange.2))
    · split at hvalue
      · rename_i hrange
        obtain rfl := Option.some.inj hvalue
        exact .inr (getElem?_of_range 6 10 (by decide) hrange.1 (Nat.lt_succ_of_le hrange.2))
      · cases hvalue

theorem digit?_sixteen_iff {c : Char} {d : Nat} : digit? 16 c = some d ↔ IsHexDigit c d :=
  ⟨isHexDigit_of_digit?, digit?_of_isHexDigit⟩

theorem foldlM_digit?_sixteen {t : Text} {n : Nat} :
    t.foldlM (fun value c => (digit? 16 c).map (16 * value + ·)) 0 = some n ↔
      ∃ ds, List.Forall₂ IsHexDigit t.reverse ds ∧ Nat.ofDigits 16 ds = n := by
  induction t using List.reverseRecOn generalizing n with
  | nil => simp
  | append_singleton t c ih =>
    simp only [List.foldlM_append, List.foldlM_cons, List.foldlM_nil, Option.bind_eq_bind,
      Option.pure_def, Option.bind_fun_some, Option.bind_eq_some_iff, ih,
      Option.map_eq_some_iff, digit?_sixteen_iff, List.reverse_append, List.reverse_singleton,
      List.singleton_append, List.forall₂_cons_left_iff]
    constructor
    · rintro ⟨value, ⟨ds, hds, rfl⟩, d, hd, rfl⟩
      exact ⟨d :: ds, ⟨d, ds, hd, hds, rfl⟩, by rw [Nat.ofDigits_cons, Nat.add_comm]⟩
    · rintro ⟨_, ⟨d, ds, hd, hds, rfl⟩, rfl⟩
      exact ⟨_, ⟨ds, hds, rfl⟩, d, hd, by rw [Nat.ofDigits_cons, Nat.add_comm]⟩

theorem hexNatural?_eq_some_iff {t : Text} {n : Nat} :
    natural? 16 t = some n ↔ IsHexNatural t n := by
  unfold natural?
  split
  · rename_i hempty
    have hnil := List.isEmpty_iff.mp hempty
    simp only [reduceCtorEq, false_iff]
    exact fun h => h.nonempty hnil
  · rename_i hempty
    rw [foldlM_digit?_sixteen]
    constructor
    · exact fun hvalue => ⟨by simpa using hempty, hvalue⟩
    · exact fun h => h.value

/-- **Reading a hexadecimal numeral** gives the number it stands for, unless that is too large. -/
theorem hexNumber?_eq_some_iff {limit n : Nat} {t : Text} :
    number? 16 limit t = some n ↔ IsHexNumeral t n ∧ n < limit := by
  rw [number?, Option.filter_eq_some_iff, natural?_dropPlus_eq_some_iff, decide_eq_true_iff,
    isHexNumeral_iff]
  simp only [hexNatural?_eq_some_iff]

theorem digitChar_mem_hexDigits {d : Nat} (h : d < 16) : d.digitChar ∈ hexDigits := by
  have hall : ∀ d : Fin 16, d.val.digitChar ∈ hexDigits := by decide
  exact hall ⟨d, h⟩

theorem digit?_digitChar {d : Nat} (h : d < 16) : digit? 16 d.digitChar = some d := by
  have hall : ∀ d : Fin 16, digit? 16 d.val.digitChar = some d.val := by decide
  exact hall ⟨d, h⟩

theorem mem_hexDigits_of_mem_hex {n : Nat} {c : Char} (h : c ∈ hex n) : c ∈ hexDigits := by
  induction n using Nat.strongRecOn with
  | ind n ih =>
    rw [hex, Nat.toDigits_eq_if (by decide)] at h
    split at h
    · rename_i hlt
      rw [List.mem_singleton.mp h]
      exact digitChar_mem_hexDigits hlt
    · rcases List.mem_append.mp h with h | h
      · exact ih (n / 16) (by omega) h
      · rw [List.mem_singleton.mp h]
        exact digitChar_mem_hexDigits (Nat.mod_lt _ (by decide))

theorem mem_hexDigits_of_mem_paddedHex {n : Nat} {c : Char} (h : c ∈ paddedHex n) :
    c ∈ hexDigits := by
  rcases List.mem_append.mp h with h | h
  · rw [List.eq_of_mem_replicate h]
    decide
  · exact mem_hexDigits_of_mem_hex h

/-- A number of up to 24 bits takes six digits. -/
theorem length_paddedHex_of_lt {n : Nat} (h : n < 0x1000000) : (paddedHex n).length = hexWidth := by
  have hle : (hex n).length ≤ hexWidth :=
    (Nat.length_toDigits_le_iff (by decide) (by decide)).mpr (by simpa [hexWidth] using h)
  rw [length_paddedHex]
  exact Nat.max_eq_left hle

theorem paddedHex_ne_nil (n : Nat) : paddedHex n ≠ [] := by
  intro h
  have hlength := length_paddedHex n
  rw [h, List.length_nil] at hlength
  have hle := Nat.le_max_left hexWidth (hex n).length
  simp only [hexWidth] at hle hlength
  omega

/-- What is printed for a number holds no blank, and no sign. -/
theorem hexDigits_not_blank :
    ∀ c ∈ hexDigits, isBlank c = false ∧ c ≠ '+' ∧ c ≠ '\n' ∧ c ≠ '\r' := by
  -- decided on the list of digits, and not on all characters
  have hall : (hexDigits.all fun c => !isBlank c && c != '+' && c != '\n' && c != '\r') = true := by
    decide
  intro c hc
  simpa [and_assoc] using List.all_eq_true.mp hall c hc

theorem oneLine_paddedHex (n : Nat) : OneLine (paddedHex n) :=
  fun c hc => (hexDigits_not_blank c (mem_hexDigits_of_mem_paddedHex hc)).2.2

theorem foldlM_hex (n : Nat) :
    (hex n).foldlM (fun value c => (digit? 16 c).map (16 * value + ·)) 0 = some n := by
  induction n using Nat.strongRecOn with
  | ind n ih =>
    rw [hex, Nat.toDigits_eq_if (by decide)]
    split
    · rename_i hlt
      simp [digit?_digitChar hlt]
    · have hfront := ih (n / 16) (by omega)
      have hlast := digit?_digitChar (Nat.mod_lt n (show 16 > 0 by decide))
      rw [hex] at hfront
      rw [List.foldlM_append, hfront]
      simp only [Option.bind_eq_bind, Option.bind_some, List.foldlM_cons, List.foldlM_nil, hlast,
        Option.map_some, Option.pure_def]
      congr 1
      omega

theorem foldlM_zeros (k : Nat) :
    (List.replicate k '0').foldlM (fun value c => (digit? 16 c).map (16 * value + ·)) 0 =
      some 0 := by
  induction k with
  | zero => rfl
  | succ k ih =>
    have hzero : digit? 16 '0' = some 0 := by decide
    simp [List.replicate_succ, hzero, ih]

theorem natural?_paddedHex (n : Nat) : natural? 16 (paddedHex n) = some n := by
  have hempty : (paddedHex n).isEmpty = false := by simpa using paddedHex_ne_nil n
  rw [natural?, hempty, if_neg Bool.false_ne_true, paddedHex, List.leftpad, List.foldlM_append,
    foldlM_zeros]
  exact foldlM_hex n

theorem paddedHex_injective {m n : Nat} (h : paddedHex m = paddedHex n) : m = n := by
  have hread := natural?_paddedHex m
  rw [h, natural?_paddedHex] at hread
  exact (Option.some.inj hread).symm

/-- **A number that was printed is read back.** -/
theorem number?_paddedHex {limit n : Nat} (h : n < limit) :
    number? 16 limit (paddedHex n) = some n := by
  have hplus : dropPlus (paddedHex n) = paddedHex n := by
    unfold dropPlus
    split
    · rename_i rest heq
      have hmem : '+' ∈ paddedHex n := by simp [heq]
      exact absurd rfl (hexDigits_not_blank _ (mem_hexDigits_of_mem_paddedHex hmem)).2.1
    · rfl
  rw [number?, hplus, natural?_paddedHex]
  simp [h]

end Text
end RegisterMachine
