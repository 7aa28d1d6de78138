import Bseal.Common.CheckedArithmetic
import Bseal.Lib.Decimal

/-! `common/SizeParser.hpp`: strict parsers of sizes and of 32-bit numbers. -/
namespace Bseal
open Decimal

/-- `text[i] - '0'`. -/
def digitWord (c : Byte) : UInt64 := c.toUInt64 - 0x30

/-- The loop over the digits: the number so far, and what is left of the text. -/
def sizeDigits (value : UInt64) : Bytes → Result (UInt64 × Bytes)
  | [] => .ok (value, [])
  | c :: rest =>
    if IsDigit c then
      if value > (u64Max - digitWord c) / 10 then
        .error (.invalidArgument "size value is too large")
      else sizeDigits (value * 10 + digitWord c) rest
    else .ok (value, c :: rest)

def suffixMultiplier : Bytes → Result UInt64
  | [] => .ok 1
  | [c] =>
    if c = 0x4b ∨ c = 0x6b then .ok 1024
    else if c = 0x4d ∨ c = 0x6d then .ok (1024 * 1024)
    else if c = 0x47 ∨ c = 0x67 then .ok (1024 * 1024 * 1024)
    else if c = 0x54 ∨ c = 0x74 then .ok (1024 * 1024 * 1024 * 1024)
    else .error (.invalidArgument "unknown size suffix")
  | _ :: _ :: _ =>
    .error (.invalidArgument "size suffix must be one character: K, M, G, or T")

def parseSizeBytes (text : Bytes) : Result UInt64 :=
  if text.isEmpty then .error (.invalidArgument "size must not be empty")
  else do
    let (value, rest) ← sizeDigits 0 text
    if rest.length = text.length then .error (.invalidArgument "size must start with a number")
    else do
      let multiplier ← suffixMultiplier rest
      if value > u64Max / multiplier then .error (.invalidArgument "size value is too large")
      else .ok (value * multiplier)

def u32Max : UInt64 := 0xffffffff

/-- The loop over all characters; `whole` is for the messages. -/
def u32Digits (whole : Bytes) (value : UInt64) : Bytes → Result UInt64
  | [] => .ok value
  | c :: rest =>
    if ¬IsDigit c then .error (.invalidArgument ("invalid integer: '" ++ text whole ++ "'"))
    else
      let value := value * 10 + digitWord c
      if value > u32Max then
        .error (.invalidArgument ("integer value is too large: '" ++ text whole ++ "'"))
      else u32Digits whole value rest

def parseU32 (text : Bytes) : Result UInt32 :=
  if text.isEmpty then .error (.invalidArgument "integer value must not be empty")
  else do
    let value ← u32Digits text 0 text
    pure value.toUInt32

def parseSizeKib (text : Bytes) : Result UInt32 := do
  let bytes ← parseSizeBytes text
  if bytes % 1024 ≠ 0 then
    .error (.invalidArgument "size must be a whole number of KiB (e.g. 256M, 2G)")
  else
    let kib := bytes / 1024
    if kib > u32Max then
      .error (.invalidArgument "size is too large (maximum ~4 TiB expressed in KiB)")
    else .ok kib.toUInt32

section Digits
variable {c : Byte} {value : UInt64}

theorem digitWord_toNat (isDigit : IsDigit c) : (digitWord c).toNat = digit c := by
  have low : 0x30 ≤ c.toNat := UInt8.le_iff_toNat_le.mp isDigit.1
  have high : c.toNat ≤ 0x39 := UInt8.le_iff_toNat_le.mp isDigit.2
  unfold digitWord digit
  rw [UInt64.toNat_sub_of_le, UInt8.toNat_toUInt64]
  · rfl
  · rw [UInt64.le_iff_toNat_le, UInt8.toNat_toUInt64]
    exact low

/-- The guard of the first loop is exact. -/
theorem sizeGuard_iff (isDigit : IsDigit c) :
    value > (u64Max - digitWord c) / 10 ↔ 2 ^ 64 ≤ value.toNat * 10 + digit c := by
  have small := digit_lt isDigit
  have le : digitWord c ≤ u64Max := by
    rw [UInt64.le_iff_toNat_le, digitWord_toNat isDigit, u64Max_toNat]
    omega
  rw [gt_iff_lt, UInt64.lt_iff_toNat_lt, UInt64.toNat_div, UInt64.toNat_sub_of_le _ _ le,
    digitWord_toNat isDigit, u64Max_toNat, show (10 : UInt64).toNat = 10 from rfl]
  omega

theorem sizeStep_toNat (isDigit : IsDigit c) (fits : value.toNat * 10 + digit c < 2 ^ 64) :
    (value * 10 + digitWord c).toNat = value.toNat * 10 + digit c := by
  rw [UInt64.toNat_add, UInt64.toNat_mul, digitWord_toNat isDigit,
    show (10 : UInt64).toNat = 10 from rfl, Nat.mod_eq_of_lt (a := value.toNat * 10) (by omega),
    Nat.mod_eq_of_lt fits]

end Digits

/-- The first loop takes the digits at the front, as long as they fit in a word. -/
theorem sizeDigits_ok (value : UInt64) (text : Bytes) (result : UInt64) (rest : Bytes) :
    sizeDigits value text = .ok (result, rest) ↔
      ∃ digits, text = digits ++ rest ∧ (∀ c ∈ digits, IsDigit c) ∧
        (∀ c tail, rest = c :: tail → ¬IsDigit c) ∧
        result.toNat = valueFrom value.toNat digits := by
  induction text generalizing value with
  | nil =>
    rw [sizeDigits]
    constructor
    · rintro ⟨⟩
      exact ⟨[], rfl, fun c member => absurd member List.not_mem_nil,
        fun c tail same => absurd same.symm (List.cons_ne_nil c tail), rfl⟩
    · rintro ⟨digits, same, -, -, number⟩
      obtain ⟨rfl, rfl⟩ := List.append_eq_nil_iff.mp same.symm
      rw [UInt64.toNat.inj number]
  | cons c text ih =>
    rw [sizeDigits]
    by_cases isDigit : IsDigit c
    · rw [if_pos isDigit, Result.guard_eq_ok, sizeGuard_iff isDigit, Nat.not_le]
      constructor
      · rintro ⟨fits, more⟩
        obtain ⟨digits, rfl, all, stops, number⟩ := (ih _).mp more
        rw [sizeStep_toNat isDigit fits] at number
        refine ⟨c :: digits, rfl, ?_, stops, number⟩
        intro d member
        rcases List.mem_cons.mp member with rfl | member
        · exact isDigit
        · exact all d member
      · rintro ⟨digits, same, all, stops, number⟩
        cases digits with
        | nil => exact absurd isDigit (stops c text same.symm)
        | cons d digits =>
          obtain ⟨rfl, rfl⟩ := List.cons.inj same
          have fits : value.toNat * 10 + digit c < 2 ^ 64 := by
            have := le_valueFrom (value.toNat * 10 + digit c) digits
            have := result.toNat_lt
            rw [valueFrom_cons] at number
            omega
          refine ⟨fits, (ih _).mpr
            ⟨digits, rfl, fun e member => all e (List.mem_cons_of_mem c member),
            stops, ?_⟩⟩
          rw [sizeStep_toNat isDigit fits]
          exact number
    · rw [if_neg isDigit]
      constructor
      · rintro ⟨⟩
        refine ⟨[], rfl, fun d member => absurd member List.not_mem_nil, ?_, rfl⟩
        rintro d tail ⟨⟩
        exact isDigit
      · rintro ⟨digits, same, all, -, number⟩
        cases digits with
        | nil =>
          cases same
          rw [UInt64.toNat.inj number]
        | cons d digits =>
          obtain ⟨rfl, -⟩ := List.cons.inj same
          exact absurd (all c List.mem_cons_self) isDigit

/-- The power of 1024 that a suffix stands for. -/
inductive SuffixPower : Bytes → Nat → Prop where
  | bytes : SuffixPower [] 0
  | kibi {c : Byte} (letter : c = 0x4b ∨ c = 0x6b) : SuffixPower [c] 1
  | mebi {c : Byte} (letter : c = 0x4d ∨ c = 0x6d) : SuffixPower [c] 2
  | gibi {c : Byte} (letter : c = 0x47 ∨ c = 0x67) : SuffixPower [c] 3
  | tebi {c : Byte} (letter : c = 0x54 ∨ c = 0x74) : SuffixPower [c] 4

/-- The number that a size stands for: digits, and at most one suffix. -/
def SizeText (text : Bytes) (n : Nat) : Prop :=
  ∃ digits suffix k, text = digits ++ suffix ∧ digits ≠ [] ∧ (∀ c ∈ digits, IsDigit c) ∧
    SuffixPower suffix k ∧ n = value digits * 1024 ^ k

theorem suffixMultiplier_ok (suffix : Bytes) (multiplier : UInt64) :
    suffixMultiplier suffix = .ok multiplier ↔
      ∃ k, SuffixPower suffix k ∧ multiplier.toNat = 1024 ^ k := by
  constructor
  · intro made
    rcases suffix with _ | ⟨c, _ | ⟨d, rest⟩⟩
    · cases made
      exact ⟨0, .bytes, rfl⟩
    · rw [suffixMultiplier] at made
      split at made
      · next letter =>
        cases made
        exact ⟨1, .kibi letter, rfl⟩
      · split at made
        · next letter =>
          cases made
          exact ⟨2, .mebi letter, rfl⟩
        · split at made
          · next letter =>
            cases made
            exact ⟨3, .gibi letter, rfl⟩
          · split at made
            · next letter =>
              cases made
              exact ⟨4, .tebi letter, rfl⟩
            · cases made
    · cases made
  · rintro ⟨k, power, number⟩
    cases power with
    | bytes => exact congrArg Except.ok (UInt64.toNat.inj number).symm
    | kibi letter =>
      rcases letter with rfl | rfl <;> exact congrArg Except.ok (UInt64.toNat.inj number).symm
    | mebi letter =>
      rcases letter with rfl | rfl <;> exact congrArg Except.ok (UInt64.toNat.inj number).symm
    | gibi letter =>
      rcases letter with rfl | rfl <;> exact congrArg Except.ok (UInt64.toNat.inj number).symm
    | tebi letter =>
      rcases letter with rfl | rfl <;> exact congrArg Except.ok (UInt64.toNat.inj number).symm

theorem SuffixPower.not_digit {suffix : Bytes} {k : Nat} (power : SuffixPower suffix k) :
    ∀ c tail, suffix = c :: tail → ¬IsDigit c := by
  rintro c tail rfl
  cases power with
  | kibi letter => rcases letter with rfl | rfl <;> decide
  | mebi letter => rcases letter with rfl | rfl <;> decide
  | gibi letter => rcases letter with rfl | rfl <;> decide
  | tebi letter => rcases letter with rfl | rfl <;> decide

/-- The guard of the last multiplication is exact. -/
theorem multiplyGuard_iff {value multiplier : UInt64} {k : Nat}
    (power : multiplier.toNat = 1024 ^ k) :
    value > u64Max / multiplier ↔ 2 ^ 64 ≤ value.toNat * multiplier.toNat := by
  have pos : 0 < multiplier.toNat := power ▸ Nat.pow_pos (by decide)
  rw [gt_iff_lt, UInt64.lt_iff_toNat_lt, UInt64.toNat_div, u64Max_toNat, Nat.div_lt_iff_lt_mul pos]
  omega

theorem product_toNat {value multiplier : UInt64}
    (fits : value.toNat * multiplier.toNat < 2 ^ 64) :
    (value * multiplier).toNat = value.toNat * multiplier.toNat := by
  rw [UInt64.toNat_mul, Nat.mod_eq_of_lt fits]

theorem parseSizeBytes_ok (text : Bytes) (n : UInt64) :
    parseSizeBytes text = .ok n ↔ SizeText text n.toNat := by
  unfold parseSizeBytes
  rw [Result.guard_eq_ok, Result.bind_eq_ok]
  constructor
  · rintro ⟨-, ⟨number, suffix⟩, digits, more⟩
    rw [Result.guard_eq_ok, Result.bind_eq_ok] at more
    obtain ⟨shorter, multiplier, letter, more⟩ := more
    obtain ⟨k, power, factor⟩ := (suffixMultiplier_ok suffix multiplier).mp letter
    rw [Result.guard_eq_ok, multiplyGuard_iff factor, Nat.not_le] at more
    obtain ⟨fits, same⟩ := more
    cases same
    obtain ⟨front, rfl, all, -, denoted⟩ := (sizeDigits_ok 0 _ _ _).mp digits
    refine ⟨front, suffix, k, rfl, ?_, all, power, ?_⟩
    · rintro rfl
      exact shorter rfl
    · rw [product_toNat fits, denoted, factor]
      rfl
  · rintro ⟨front, suffix, k, rfl, some, all, power, denoted⟩
    have bound := n.toNat_lt
    have factor : 1 ≤ 1024 ^ k := Nat.pow_pos (by decide)
    have le : value front ≤ n.toNat := denoted ▸ Nat.le_mul_of_pos_right _ factor
    have number : (UInt64.ofNat (value front)).toNat = value front := by
      rw [UInt64.toNat_ofNat', Nat.mod_eq_of_lt (by omega)]
    have digits : sizeDigits 0 (front ++ suffix) = .ok (UInt64.ofNat (value front), suffix) :=
      (sizeDigits_ok 0 _ _ _).mpr ⟨front, rfl, all, power.not_digit, number⟩
    have multiplier : (UInt64.ofNat (1024 ^ k)).toNat = 1024 ^ k := by
      cases power <;> rfl
    have fits : (UInt64.ofNat (value front)).toNat * (UInt64.ofNat (1024 ^ k)).toNat < 2 ^ 64 := by
      rw [number, multiplier, ← denoted]
      exact bound
    refine ⟨?_, _, digits, ?_⟩
    · rw [List.isEmpty_iff]
      exact List.append_ne_nil_of_left_ne_nil some suffix
    · rw [Result.guard_eq_ok, Result.bind_eq_ok]
      refine ⟨?_, _, (suffixMultiplier_ok _ _).mpr ⟨k, power, multiplier⟩, ?_⟩
      · have := List.length_pos_iff.mpr some
        rw [List.length_append]
        omega
      · rw [Result.guard_eq_ok, multiplyGuard_iff multiplier, Nat.not_le]
        refine ⟨fits, congrArg Except.ok (UInt64.toNat.inj ?_)⟩
        rw [product_toNat fits, number, multiplier, denoted]

theorem u32Step_toNat {c : Byte} {value : UInt64} (isDigit : IsDigit c)
    (small : value.toNat ≤ u32Max.toNat) :
    (value * 10 + digitWord c).toNat = value.toNat * 10 + digit c := by
  have low := digit_lt isDigit
  have limit : u32Max.toNat = 2 ^ 32 - 1 := rfl
  exact sizeStep_toNat isDigit (by omega)

/-- The second loop takes digits only, as long as they stay below `2^32`. -/
theorem u32Digits_ok (whole : Bytes) (start : UInt64) (text : Bytes) (result : UInt64)
    (small : start.toNat ≤ u32Max.toNat) :
    u32Digits whole start text = .ok result ↔
      (∀ c ∈ text, IsDigit c) ∧ result.toNat ≤ u32Max.toNat ∧
        result.toNat = valueFrom start.toNat text := by
  induction text generalizing start with
  | nil =>
    rw [u32Digits]
    constructor
    · rintro ⟨⟩
      exact ⟨fun c member => absurd member List.not_mem_nil, small, rfl⟩
    · rintro ⟨-, -, number⟩
      rw [UInt64.toNat.inj number]
  | cons c text ih =>
    rw [u32Digits, Result.guard_eq_ok, not_not, List.forall_mem_cons, valueFrom_cons, and_assoc]
    refine and_congr_right fun isDigit => ?_
    have step := u32Step_toNat isDigit small
    simp only
    rw [Result.guard_eq_ok, gt_iff_lt, UInt64.lt_iff_toNat_lt, Nat.not_lt, step]
    constructor
    · rintro ⟨fits, more⟩
      rw [ih _ (step ▸ fits), step] at more
      exact more
    · rintro ⟨all, le, number⟩
      have fits : start.toNat * 10 + digit c ≤ u32Max.toNat :=
        Nat.le_trans (number ▸ le_valueFrom _ text) le
      refine ⟨fits, ?_⟩
      rw [ih _ (step ▸ fits), step]
      exact ⟨all, le, number⟩

def NumberText (text : Bytes) (n : Nat) : Prop :=
  text ≠ [] ∧ (∀ c ∈ text, IsDigit c) ∧ n = value text

theorem parseU32_ok (text : Bytes) (n : UInt32) :
    parseU32 text = .ok n ↔ NumberText text n.toNat := by
  unfold parseU32 NumberText
  rw [Result.guard_eq_ok, List.isEmpty_iff, Result.bind_eq_ok]
  refine and_congr_right fun _ => ?_
  have limit : u32Max.toNat = 2 ^ 32 - 1 := rfl
  have start : (0 : UInt64).toNat ≤ u32Max.toNat := Nat.zero_le _
  constructor
  · rintro ⟨number, digits, same⟩
    obtain ⟨all, small, denoted⟩ := (u32Digits_ok text 0 text number start).mp digits
    cases same
    refine ⟨all, ?_⟩
    rw [UInt64.toNat_toUInt32, Nat.mod_eq_of_lt (by omega), denoted]
    rfl
  · rintro ⟨all, denoted⟩
    have bound := n.toNat_lt
    refine ⟨n.toUInt64, (u32Digits_ok text 0 text _ start).mpr ⟨all, ?_, ?_⟩, ?_⟩
    · rw [UInt32.toNat_toUInt64]
      omega
    · rw [UInt32.toNat_toUInt64]
      exact denoted
    · exact congrArg Except.ok (UInt32.toUInt32_toUInt64 n)

theorem parseSizeKib_ok (text : Bytes) (n : UInt32) :
    parseSizeKib text = .ok n ↔ ∃ v, parseSizeBytes text = .ok v ∧ v.toNat % 1024 = 0 ∧
      v.toNat / 1024 < 2 ^ 32 ∧ n.toNat = v.toNat / 1024 := by
  unfold parseSizeKib
  rw [Result.bind_eq_ok]
  refine exists_congr fun v => and_congr_right fun _ => ?_
  have remainder : (v % 1024).toNat = v.toNat % 1024 := rfl
  have quotient : (v / 1024).toNat = v.toNat / 1024 := UInt64.toNat_div v 1024
  have limit : u32Max.toNat = 2 ^ 32 - 1 := rfl
  have whole : ¬v % 1024 ≠ 0 ↔ v.toNat % 1024 = 0 := by
    rw [not_not, ← UInt64.toNat_inj, remainder]
    rfl
  have fits : ¬v / 1024 > u32Max ↔ v.toNat / 1024 < 2 ^ 32 := by
    rw [gt_iff_lt, UInt64.lt_iff_toNat_lt, quotient, limit]
    omega
  simp only
  rw [Result.guard_eq_ok, whole, Result.guard_eq_ok, fits, Except.ok.injEq]
  refine and_congr_right fun _ => and_congr_right fun small => ?_
  rw [← UInt32.toNat_inj, UInt64.toNat_toUInt32, quotient, Nat.mod_eq_of_lt small]
  exact eq_comm

/-- The parsers read back what `std::to_string` prints. -/
theorem parseSizeBytes_numeral (n : UInt64) : parseSizeBytes (numeral n.toNat) = .ok n :=
  (parseSizeBytes_ok _ n).mpr ⟨numeral n.toNat, [], 0, (List.append_nil _).symm,
    numeral_ne_nil _, isDigit_numeral _, .bytes, by rw [value_numeral, Nat.pow_zero, Nat.mul_one]⟩

theorem parseU32_numeral (n : UInt32) : parseU32 (numeral n.toNat) = .ok n :=
  (parseU32_ok _ n).mpr ⟨numeral_ne_nil _, isDigit_numeral _, (value_numeral _).symm⟩

theorem parseSizeKib_numeral (n k : UInt32) :
    parseSizeKib (numeral n.toNat) = .ok k ↔ n.toNat % 1024 = 0 ∧ k.toNat = n.toNat / 1024 := by
  have parsed : parseSizeBytes (numeral n.toNat) = .ok n.toUInt64 := by
    rw [← UInt32.toNat_toUInt64]
    exact parseSizeBytes_numeral n.toUInt64
  have small := n.toNat_lt
  rw [parseSizeKib_ok, parsed]
  constructor
  · rintro ⟨v, same, whole, -, quotient⟩
    cases same
    exact ⟨whole, quotient⟩
  · rintro ⟨whole, quotient⟩
    exact ⟨n.toUInt64, rfl, whole, by rw [UInt32.toNat_toUInt64]; omega, quotient⟩

/-- No step of the first loop wraps, also where a later one throws. -/
def SizeLoopExact (value : UInt64) : Bytes → Prop
  | [] => True
  | c :: rest => IsDigit c →
    (digitWord c).toNat = digit c ∧
    ((u64Max - digitWord c) / 10).toNat = (2 ^ 64 - 1 - digit c) / 10 ∧
    (¬value > (u64Max - digitWord c) / 10 →
      (value * 10 + digitWord c).toNat = value.toNat * 10 + digit c ∧
      SizeLoopExact (value * 10 + digitWord c) rest)

def U32LoopExact (value : UInt64) : Bytes → Prop
  | [] => True
  | c :: rest => IsDigit c →
    (value * 10 + digitWord c).toNat = value.toNat * 10 + digit c ∧
    (¬value * 10 + digitWord c > u32Max → U32LoopExact (value * 10 + digitWord c) rest)

theorem sizeLoopExact (value : UInt64) (text : Bytes) : SizeLoopExact value text := by
  induction text generalizing value with
  | nil => trivial
  | cons c text ih =>
    intro isDigit
    have low := digit_lt isDigit
    have word := digitWord_toNat isDigit
    have le : digitWord c ≤ u64Max := by
      rw [UInt64.le_iff_toNat_le, word, u64Max_toNat]
      omega
    refine ⟨word, ?_, fun fits => ⟨sizeStep_toNat isDigit ?_, ih _⟩⟩
    · rw [UInt64.toNat_div, UInt64.toNat_sub_of_le _ _ le, word, u64Max_toNat]
      rfl
    · rw [sizeGuard_iff isDigit, Nat.not_le] at fits
      exact fits

theorem u32LoopExact (value : UInt64) (text : Bytes) (small : value.toNat ≤ u32Max.toNat) :
    U32LoopExact value text := by
  induction text generalizing value with
  | nil => trivial
  | cons c text ih =>
    intro isDigit
    refine ⟨u32Step_toNat isDigit small, fun fits => ih _ ?_⟩
    rw [gt_iff_lt, UInt64.lt_iff_toNat_lt, Nat.not_lt] at fits
    exact fits

/-- The parsers accept exactly the texts of numbers that fit, and compute without wrapping. -/
theorem size_parsers_exact (text : Bytes) :
    (∀ n, parseSizeBytes text = .ok n ↔ SizeText text n.toNat) ∧
    ((∃ n, parseSizeBytes text = .ok n) ↔ ∃ n, SizeText text n ∧ n < 2 ^ 64) ∧
    (∀ n, parseU32 text = .ok n ↔ NumberText text n.toNat) ∧
    ((∃ n, parseU32 text = .ok n) ↔ ∃ n, NumberText text n ∧ n < 2 ^ 32) ∧
    (∀ n, parseSizeKib text = .ok n ↔ ∃ v, parseSizeBytes text = .ok v ∧ v.toNat % 1024 = 0 ∧
      v.toNat / 1024 < 2 ^ 32 ∧ n.toNat = v.toNat / 1024) ∧
    SizeLoopExact 0 text ∧ U32LoopExact 0 text ∧
    ∀ number rest multiplier, sizeDigits 0 text = .ok (number, rest) →
      suffixMultiplier rest = .ok multiplier → ¬number > u64Max / multiplier →
      (number * multiplier).toNat = number.toNat * multiplier.toNat := by
  refine ⟨parseSizeBytes_ok text, ?_, parseU32_ok text, ?_, parseSizeKib_ok text,
    sizeLoopExact 0 text, u32LoopExact 0 text (Nat.zero_le _), ?_⟩
  · constructor
    · rintro ⟨n, parsed⟩
      exact ⟨n.toNat, (parseSizeBytes_ok text n).mp parsed, n.toNat_lt⟩
    · rintro ⟨n, denoted, small⟩
      refine ⟨UInt64.ofNat n, (parseSizeBytes_ok text _).mpr ?_⟩
      rwa [UInt64.toNat_ofNat', Nat.mod_eq_of_lt small]
  · constructor
    · rintro ⟨n, parsed⟩
      exact ⟨n.toNat, (parseU32_ok text n).mp parsed, n.toNat_lt⟩
    · rintro ⟨n, denoted, small⟩
      refine ⟨UInt32.ofNat n, (parseU32_ok text _).mpr ?_⟩
      rwa [UInt32.toNat_ofNat', Nat.mod_eq_of_lt small]
  · intro number rest multiplier _ letter fits
    obtain ⟨k, -, factor⟩ := (suffixMultiplier_ok rest multiplier).mp letter
    rw [multiplyGuard_iff factor, Nat.not_le] at fits
    exact product_toNat fits

end Bseal
