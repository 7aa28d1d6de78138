import Bseal.Common.Errors
import Mathlib.Tactic.IntervalCases

/-! `common/CheckedArithmetic.hpp`: 64-bit arithmetic that throws instead of
wrapping. Each operation has one lemma giving its exact domain over the naturals. -/
namespace Bseal

def u64Max : UInt64 := 0xffffffffffffffff

def checkedAddU64 (a b : UInt64) (context : String) : Result UInt64 :=
  if b > u64Max - a then .error (.invalidArgument (context ++ ": addition overflow"))
  else .ok (a + b)

def checkedMulU64 (a b : UInt64) (context : String) : Result UInt64 :=
  if a ≠ 0 ∧ b > u64Max / a then
    .error (.invalidArgument (context ++ ": multiplication overflow"))
  else .ok (a * b)

def checkedCeilDivU64 (a b : UInt64) (context : String) : Result UInt64 :=
  if b = 0 then .error (.invalidArgument (context ++ ": division by zero"))
  else if a = 0 then .ok 0
  else .ok ((a - 1) / b + 1)

/-- The doubling loop `while (p < x) p <<= 1`, run for at most `fuel` rounds. -/
def doubleUntil : Nat → UInt64 → UInt64 → UInt64
  | 0, p, _ => p
  | fuel + 1, p, x => if p < x then doubleUntil fuel (p <<< 1) x else p

def checkedNextPowerOfTwoU64 (x : UInt64) (context : String) : Result UInt64 :=
  if x > (1 : UInt64) <<< 63 then
    .error (.invalidArgument (context ++ ": value too large for power-of-two rounding"))
  else if x = 0 then .ok 1
  else .ok (doubleUntil 64 1 x)

theorem u64Max_toNat : u64Max.toNat = 2 ^ 64 - 1 := rfl

theorem u64_pos {v : UInt64} (h : v ≠ 0) : 0 < v.toNat :=
  Nat.pos_of_ne_zero fun zero => h (UInt64.toNat_inj.mp zero)

theorem u32_pos {v : UInt32} (h : v ≠ 0) : 0 < v.toNat :=
  Nat.pos_of_ne_zero fun zero => h (UInt32.toNat_inj.mp zero)

theorem u64_sub_one_toNat {v : UInt64} (h : v ≠ 0) : (v - 1).toNat = v.toNat - 1 := by
  have one : (1 : UInt64) ≤ v := by
    rw [UInt64.le_iff_toNat_le]
    exact u64_pos h
  rw [UInt64.toNat_sub_of_le _ _ one, UInt64.toNat_one]

theorem u64_toUInt32_toNat {v : UInt64} (small : ¬v > 0xffffffff) : v.toUInt32.toNat = v.toNat := by
  rw [gt_iff_lt, UInt64.not_lt, UInt64.le_iff_toNat_le] at small
  have limit : (0xffffffff : UInt64).toNat = 2 ^ 32 - 1 := rfl
  rw [UInt64.toNat_toUInt32, Nat.mod_eq_of_lt (by omega)]

theorem u64_powerOfTwo {v : UInt64} (nonzero : v ≠ 0) (masked : v &&& (v - 1) = 0) :
    ∃ k, v.toNat = 2 ^ k := by
  have bits := congrArg UInt64.toNat masked
  rw [UInt64.toNat_and, u64_sub_one_toNat nonzero] at bits
  exact Nat.ne_zero_and_sub_one_eq_zero_iff_isPowerOfTwo.mp ⟨(u64_pos nonzero).ne', bits⟩

theorem u64_masked_of_powerOfTwo {v : UInt64} {k : Nat} (power : v.toNat = 2 ^ k) :
    v ≠ 0 ∧ v &&& (v - 1) = 0 := by
  obtain ⟨nonzero, bits⟩ := Nat.ne_zero_and_sub_one_eq_zero_iff_isPowerOfTwo.mpr ⟨k, power⟩
  have pos : v ≠ 0 := fun zero => nonzero (congrArg UInt64.toNat zero)
  refine ⟨pos, UInt64.toNat_inj.mp ?_⟩
  rw [UInt64.toNat_and, u64_sub_one_toNat pos, bits, UInt64.toNat_zero]

theorem u32_masked_of_powerOfTwo {v : UInt32} {k : Nat} (power : v.toNat = 2 ^ k) :
    v ≠ 0 ∧ v &&& (v - 1) = 0 := by
  obtain ⟨nonzero, bits⟩ := Nat.ne_zero_and_sub_one_eq_zero_iff_isPowerOfTwo.mpr ⟨k, power⟩
  have pos : v ≠ 0 := fun zero => nonzero (congrArg UInt32.toNat zero)
  have one : (1 : UInt32) ≤ v := UInt32.le_iff_toNat_le.mpr (u32_pos pos)
  refine ⟨pos, UInt32.toNat_inj.mp ?_⟩
  rw [UInt32.toNat_and, UInt32.toNat_sub_of_le _ _ one, UInt32.toNat_one, bits, UInt32.toNat_zero]

theorem checkedAddU64_ok (a b r : UInt64) (context : String) :
    checkedAddU64 a b context = .ok r ↔ r.toNat = a.toNat + b.toNat := by
  have ha := a.toNat_lt
  have hb := b.toNat_lt
  have room : (u64Max - a).toNat = 2 ^ 64 - 1 - a.toNat := by
    rw [UInt64.toNat_sub_of_le _ _ (by rw [UInt64.le_iff_toNat_le, u64Max_toNat]; omega),
      u64Max_toNat]
  unfold checkedAddU64
  split
  · rename_i exceeds
    rw [gt_iff_lt, UInt64.lt_iff_toNat_lt, room] at exceeds
    have hr := r.toNat_lt
    simp only [reduceCtorEq, false_iff]
    omega
  · rename_i fits
    rw [gt_iff_lt, UInt64.lt_iff_toNat_lt, room] at fits
    rw [Except.ok.injEq, ← UInt64.toNat_inj, UInt64.toNat_add, Nat.mod_eq_of_lt (by omega)]
    exact eq_comm

theorem checkedMulU64_ok (a b r : UInt64) (context : String) :
    checkedMulU64 a b context = .ok r ↔ r.toNat = a.toNat * b.toNat := by
  have bound : (a ≠ 0 ∧ b > u64Max / a) ↔ 2 ^ 64 ≤ a.toNat * b.toNat := by
    rw [ne_eq, ← UInt64.toNat_inj, UInt64.toNat_zero, gt_iff_lt, UInt64.lt_iff_toNat_lt,
      UInt64.toNat_div, u64Max_toNat]
    rcases Nat.eq_zero_or_pos a.toNat with ha | ha
    · simp [ha]
    · rw [Nat.div_lt_iff_lt_mul ha, Nat.mul_comm b.toNat]
      omega
  unfold checkedMulU64
  split
  · rename_i exceeds
    have hr := r.toNat_lt
    rw [bound] at exceeds
    simp only [reduceCtorEq, false_iff]
    omega
  · rename_i fits
    rw [bound] at fits
    rw [Except.ok.injEq, ← UInt64.toNat_inj, UInt64.toNat_mul, Nat.mod_eq_of_lt (by omega)]
    exact eq_comm

/-- From `2^j` on, the loop stops at the least power of two that is not below `x`. -/
theorem doubleUntil_toNat (fuel j : Nat) (p x : UInt64) (hp : p.toNat = 2 ^ j)
    (hj : j ≤ 63) (hx : x.toNat ≤ 2 ^ 63) (enough : 63 ≤ j + fuel) :
    ∃ k, j ≤ k ∧ (doubleUntil fuel p x).toNat = 2 ^ k ∧ x.toNat ≤ 2 ^ k ∧
      ∀ i, j ≤ i → x.toNat ≤ 2 ^ i → k ≤ i := by
  induction fuel generalizing j p with
  | zero =>
    have top : j = 63 := by omega
    subst top
    exact ⟨63, le_rfl, hp, hx, fun i hi _ => hi⟩
  | succ fuel ih =>
    rw [doubleUntil]
    split
    · rename_i below
      rw [UInt64.lt_iff_toNat_lt, hp] at below
      have room : j < 63 := by
        by_contra full
        have top : j = 63 := by omega
        subst top
        omega
      have doubled : (p <<< 1).toNat = 2 ^ (j + 1) := by
        have small : 2 ^ (j + 1) < 2 ^ 64 := Nat.pow_lt_pow_right (by decide) (by omega)
        rw [UInt64.toNat_shiftLeft, hp, show (1 : UInt64).toNat % 64 = 1 from rfl,
          Nat.shiftLeft_eq, ← pow_add, Nat.mod_eq_of_lt small]
      obtain ⟨k, hk, value, above, least⟩ := ih (j + 1) (p <<< 1) doubled room (by omega)
      refine ⟨k, by omega, value, above, fun i hi hxi => least i ?_ hxi⟩
      rcases Nat.lt_or_ge j i with h | h
      · exact h
      · have same : i = j := by omega
        subst same
        omega
    · rename_i reached
      rw [UInt64.lt_iff_toNat_lt, hp, not_lt] at reached
      exact ⟨j, le_rfl, hp, reached, fun i hi _ => hi⟩

theorem checkedNextPowerOfTwoU64_ok (x r : UInt64) (context : String) :
    checkedNextPowerOfTwoU64 x context = .ok r ↔
      ∃ k, r.toNat = 2 ^ k ∧ x.toNat ≤ 2 ^ k ∧ ∀ i, x.toNat ≤ 2 ^ i → k ≤ i := by
  have top : ((1 : UInt64) <<< 63).toNat = 2 ^ 63 := by decide
  have unique : ∀ {k l : Nat}, x.toNat ≤ 2 ^ k → x.toNat ≤ 2 ^ l →
      (∀ i, x.toNat ≤ 2 ^ i → k ≤ i) → (∀ i, x.toNat ≤ 2 ^ i → l ≤ i) → k = l :=
    fun hk hl leastK leastL => le_antisymm (leastK _ hl) (leastL _ hk)
  unfold checkedNextPowerOfTwoU64
  split
  · rename_i large
    rw [gt_iff_lt, UInt64.lt_iff_toNat_lt, top] at large
    simp only [reduceCtorEq, false_iff, not_exists, not_and]
    intro k hr hx
    exfalso
    have hk : 64 ≤ k := by
      by_contra low
      have := Nat.pow_le_pow_right (show 0 < 2 by decide) (show k ≤ 63 by omega)
      omega
    have := Nat.pow_le_pow_right (show 0 < 2 by decide) hk
    have := r.toNat_lt
    omega
  · rename_i small
    rw [gt_iff_lt, UInt64.lt_iff_toNat_lt, top, not_lt] at small
    have value : ∃ k, (if x = 0 then 1 else doubleUntil 64 1 x : UInt64).toNat = 2 ^ k ∧
        x.toNat ≤ 2 ^ k ∧ ∀ i, x.toNat ≤ 2 ^ i → k ≤ i := by
      split
      · rename_i zero
        subst zero
        exact ⟨0, rfl, by simp, fun i _ => Nat.zero_le i⟩
      · obtain ⟨k, -, value, above, least⟩ :=
          doubleUntil_toNat 64 0 1 x rfl (by omega) small (by omega)
        exact ⟨k, value, above, fun i => least i (Nat.zero_le i)⟩
    obtain ⟨k, hk, above, least⟩ := value
    rw [← apply_ite Except.ok, Except.ok.injEq, ← UInt64.toNat_inj, hk]
    constructor
    · intro h
      exact ⟨k, h.symm, above, least⟩
    · rintro ⟨l, hl, above', least'⟩
      rw [hl, unique above above' least least']

theorem checkedCeilDivU64_ok (a b r : UInt64) (context : String) (hb : b ≠ 0) :
    checkedCeilDivU64 a b context = .ok r ↔
      r.toNat = (a.toNat + b.toNat - 1) / b.toNat := by
  have hb' := u64_pos hb
  unfold checkedCeilDivU64
  rw [if_neg hb]
  split
  · rename_i ha
    subst ha
    rw [Except.ok.injEq, ← UInt64.toNat_inj, UInt64.toNat_zero, Nat.zero_add,
      Nat.div_eq_of_lt (by omega)]
    exact eq_comm
  · rename_i ha
    have ha' := u64_pos ha
    have hlt := a.toNat_lt
    have pred := u64_sub_one_toNat ha
    have quot : (a.toNat - 1) / b.toNat ≤ a.toNat - 1 := Nat.div_le_self _ _
    have ceil : (a.toNat + b.toNat - 1) / b.toNat = (a.toNat - 1) / b.toNat + 1 := by
      rw [show a.toNat + b.toNat - 1 = a.toNat - 1 + b.toNat by omega,
        Nat.add_div_right _ hb']
    rw [Except.ok.injEq, ← UInt64.toNat_inj, UInt64.toNat_add, UInt64.toNat_div, pred, ceil,
      UInt64.toNat_one, Nat.mod_eq_of_lt (by omega)]
    exact eq_comm

end Bseal
