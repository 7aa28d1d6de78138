import Mathlib.Data.Nat.Digits.Defs

/-! Decimal numerals as bytes: the number that digits denote, and the numeral of a number. -/
namespace Decimal

def IsDigit (b : UInt8) : Prop := 0x30 ≤ b ∧ b ≤ 0x39

instance (b : UInt8) : Decidable (IsDigit b) := inferInstanceAs (Decidable (_ ∧ _))

def digit (b : UInt8) : Nat := b.toNat - 0x30

theorem digit_lt {b : UInt8} (isDigit : IsDigit b) : digit b < 10 := by
  have high : b.toNat ≤ 0x39 := UInt8.le_iff_toNat_le.mp isDigit.2
  unfold digit
  omega

def valueFrom (n : Nat) (digits : List UInt8) : Nat :=
  digits.foldl (fun v b => v * 10 + digit b) n

def value (digits : List UInt8) : Nat := valueFrom 0 digits

@[simp] theorem valueFrom_cons (n : Nat) (b : UInt8) (digits : List UInt8) :
    valueFrom n (b :: digits) = valueFrom (n * 10 + digit b) digits := by
  unfold valueFrom
  rw [List.foldl_cons]

theorem value_concat (digits : List UInt8) (b : UInt8) :
    value (digits ++ [b]) = value digits * 10 + digit b := by
  unfold value valueFrom
  rw [List.foldl_append]
  rfl

theorem le_valueFrom (n : Nat) (digits : List UInt8) : n ≤ valueFrom n digits := by
  induction digits generalizing n with
  | nil => exact Nat.le_refl n
  | cons b digits ih =>
    have step := ih (n * 10 + digit b)
    rw [valueFrom_cons]
    omega

def digitByte (d : Nat) : UInt8 := .ofNat (0x30 + d)

theorem digit_digitByte {d : Nat} (small : d < 10) : digit (digitByte d) = d := by
  unfold digit digitByte
  rw [UInt8.toNat_ofNat', Nat.mod_eq_of_lt (by omega)]
  omega

theorem isDigit_digitByte {d : Nat} (small : d < 10) : IsDigit (digitByte d) := by
  unfold IsDigit digitByte
  rw [UInt8.le_iff_toNat_le, UInt8.le_iff_toNat_le, UInt8.toNat_ofNat', Nat.mod_eq_of_lt (by omega)]
  change 0x30 ≤ 0x30 + d ∧ 0x30 + d ≤ 0x39
  omega

def numeral (n : Nat) : List UInt8 :=
  if n = 0 then [digitByte 0] else (Nat.digits 10 n).reverse.map digitByte

theorem numeral_ne_nil (n : Nat) : numeral n ≠ [] := by
  unfold numeral
  split
  · exact List.cons_ne_nil _ _
  · next nonzero =>
    intro none
    rw [List.map_eq_nil_iff, List.reverse_eq_nil_iff, Nat.digits_eq_nil_iff_eq_zero] at none
    exact nonzero none

theorem isDigit_numeral (n : Nat) : ∀ b ∈ numeral n, IsDigit b := by
  intro b member
  unfold numeral at member
  split at member
  · rw [List.mem_singleton] at member
    exact member ▸ isDigit_digitByte (by decide)
  · obtain ⟨d, inside, rfl⟩ := List.mem_map.mp member
    exact isDigit_digitByte (Nat.digits_lt_base (by decide) (List.mem_reverse.mp inside))

theorem value_digits {digits : List Nat} (small : ∀ d ∈ digits, d < 10) :
    value (digits.reverse.map digitByte) = Nat.ofDigits 10 digits := by
  induction digits with
  | nil => rfl
  | cons d digits ih =>
    rw [List.reverse_cons, List.map_append, List.map_singleton, value_concat,
      ih fun e member => small e (List.mem_cons_of_mem d member),
      digit_digitByte (small d List.mem_cons_self), Nat.ofDigits_cons]
    ring

theorem value_numeral (n : Nat) : value (numeral n) = n := by
  unfold numeral
  split
  · next zero =>
    rw [zero]
    rfl
  · rw [value_digits fun d => Nat.digits_lt_base (by decide), Nat.ofDigits_digits]

end Decimal
