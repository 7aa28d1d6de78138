import Bseal.App.Padding
import Mathlib.Data.Nat.Log
import Mathlib.Order.Bounds.Basic

/-! `compute_padding` picks the least target of its policy that leaves no gap or room for a
record prefix, and throws exactly when that target has no 64-bit representation. -/
namespace Bseal.App
open Bseal.Archive

/-- No gap, or a gap with room for a record prefix. -/
def GapFits (raw target : Nat) : Prop := target = raw ∨ raw + 9 ≤ target

theorem isLeast_gapFits {S : Set Nat} {raw base next : Nat}
    (first : IsLeast {t | t ∈ S ∧ raw ≤ t} base) (second : IsLeast {t | t ∈ S ∧ base < t} next)
    (room : raw + 9 ≤ next) :
    IsLeast {t | t ∈ S ∧ GapFits raw t} (if raw < base ∧ base < raw + 9 then next else base) := by
  obtain ⟨⟨member, above⟩, least⟩ := first
  by_cases small : raw < base ∧ base < raw + 9
  · rw [if_pos small]
    refine ⟨⟨second.1.1, .inr room⟩, fun t ⟨inside, fits⟩ => second.2 ⟨inside, ?_⟩⟩
    rcases fits with rfl | wide
    · exact absurd (least ⟨inside, le_rfl⟩) (Nat.not_le.mpr small.1)
    · omega
  · rw [if_neg small]
    refine ⟨⟨member, ?_⟩, fun t ⟨inside, fits⟩ => least ⟨inside, ?_⟩⟩
    · unfold GapFits
      omega
    · rcases fits with rfl | wide
      · exact le_rfl
      · omega

/-- What the policies ask of a target. -/
def PaddingTarget (raw c : Nat) (policy : PaddingPolicy) (target : Nat) : Prop :=
  match policy.kind with
  | .none => target = raw
  | .chunk => IsLeast {t | c ∣ t ∧ GapFits raw t} target
  | .power2 => IsLeast {t | (max raw c ≤ t ∧ ∃ k, t = 2 ^ k) ∧ GapFits raw t} target
  | .fixedSize => target = policy.fixedSizeBytes.toNat ∧ c ∣ target ∧ GapFits raw target

def PaddingPolicy.id (policy : PaddingPolicy) : UInt16 :=
  match policy.kind with
  | .none => 0
  | .chunk => 1
  | .power2 => 2
  | .fixedSize => 3

def PaddingPolicy.value (policy : PaddingPolicy) : UInt64 :=
  match policy.kind with
  | .fixedSize => policy.fixedSizeBytes
  | _ => 0

theorem PaddingTarget.gap {raw c target : Nat} {policy : PaddingPolicy}
    (least : PaddingTarget raw c policy target) : GapFits raw target := by
  unfold PaddingTarget at least
  obtain ⟨kind, n⟩ := policy
  cases kind with
  | none => exact .inl least
  | chunk => exact least.1.2
  | power2 => exact least.1.2
  | fixedSize => exact least.2.2

theorem PaddingTarget.unique {raw c target target' : Nat} {policy : PaddingPolicy}
    (least : PaddingTarget raw c policy target) (least' : PaddingTarget raw c policy target') :
    target = target' := by
  unfold PaddingTarget at least least'
  obtain ⟨kind, n⟩ := policy
  cases kind with
  | none => exact least.trans least'.symm
  | chunk => exact least.unique least'
  | power2 => exact least.unique least'
  | fixedSize => exact least.1.trans least'.1.symm

section Chunk

def roundUp (raw c : Nat) : Nat := raw + (if raw % c = 0 then 0 else c - raw % c)

theorem roundUp_isLeast (raw : Nat) {c : Nat} (pos : 0 < c) :
    IsLeast {t | t ∈ {t | c ∣ t} ∧ raw ≤ t} (roundUp raw c) := by
  have rem := Nat.mod_lt raw pos
  have split := Nat.div_add_mod raw c
  refine ⟨⟨?_, Nat.le_add_right _ _⟩, fun t ⟨multiple, above⟩ => ?_⟩
  · unfold roundUp
    by_cases zero : raw % c = 0
    · rw [if_pos zero]
      exact Nat.dvd_of_mod_eq_zero zero
    · rw [if_neg zero]
      refine ⟨raw / c + 1, ?_⟩
      rw [Nat.mul_add, Nat.mul_one]
      omega
  · unfold roundUp
    by_cases zero : raw % c = 0
    · rw [if_pos zero]
      exact above
    · rw [if_neg zero]
      obtain ⟨q, rfl⟩ := multiple
      have more : raw / c < q := by
        by_contra few
        have := Nat.mul_le_mul_left c (Nat.not_lt.mp few)
        omega
      have := Nat.mul_le_mul_left c more
      rw [Nat.mul_succ] at this
      omega

theorem next_multiple_isLeast {c base : Nat} (pos : 0 < c) (multiple : c ∣ base) :
    IsLeast {t | t ∈ {t | c ∣ t} ∧ base < t} (base + c) := by
  refine ⟨⟨(Nat.dvd_add_right multiple).mpr dvd_rfl, by omega⟩, fun t ⟨inside, above⟩ => ?_⟩
  have gap := Nat.le_of_dvd (by omega) (Nat.dvd_sub inside multiple)
  omega

theorem roundToChunk_ok {raw c : UInt64} (pos : 0 < c.toNat) (t : UInt64) :
    roundToChunk raw c = .ok t ↔ t.toNat = roundUp raw.toNat c.toNat := by
  have rem : (raw % c).toNat < c.toNat := by
    rw [UInt64.toNat_mod]
    exact Nat.mod_lt _ pos
  have fill : (c - raw % c).toNat = c.toNat - raw.toNat % c.toNat := by
    rw [UInt64.toNat_sub_of_le _ _ (UInt64.le_iff_toNat_le.mpr rem.le), UInt64.toNat_mod]
  have zero : raw % c = 0 ↔ raw.toNat % c.toNat = 0 := by
    rw [← UInt64.toNat_inj, UInt64.toNat_mod, UInt64.toNat_zero]
  unfold roundToChunk roundUp
  simp only [zero]
  by_cases exact : raw.toNat % c.toNat = 0
  · rw [if_pos exact, if_pos exact, Except.ok.injEq, ← UInt64.toNat_inj, Nat.add_zero]
    exact eq_comm
  · rw [if_neg exact, if_neg exact, checkedAddU64_ok, fill]

theorem chunkTarget_ok {raw c : UInt64} (large : 9 ≤ c.toNat) (t : UInt64) :
    chunkTarget raw c = .ok t ↔
      IsLeast {t | c.toNat ∣ t ∧ GapFits raw.toNat t} t.toNat := by
  have pos : 0 < c.toNat := by omega
  have first := roundUp_isLeast raw.toNat pos
  have second := next_multiple_isLeast pos first.1.1
  have above := first.1.2
  have least := isLeast_gapFits first second (by omega)
  have value : chunkTarget raw c = .ok t ↔ t.toNat =
      if raw.toNat < roundUp raw.toNat c.toNat ∧ roundUp raw.toNat c.toNat < raw.toNat + 9 then
        roundUp raw.toNat c.toNat + c.toNat else roundUp raw.toNat c.toNat := by
    unfold chunkTarget
    simp only [Result.bind_eq_ok, roundToChunk_ok pos]
    constructor
    · rintro ⟨base, rounded, ok⟩
      simp only [smallGap_iff (rounded ▸ above), rounded] at ok
      split_ifs at ok with small
      · rw [if_pos small, ← rounded]
        exact (checkedAddU64_ok _ _ _ _).mp ok
      · cases ok
        rw [if_neg small]
        exact rounded
    · intro same
      have limit := t.toNat_lt
      have fits : roundUp raw.toNat c.toNat < 2 ^ 64 := by split_ifs at same <;> omega
      have rounded : (UInt64.ofNat (roundUp raw.toNat c.toNat)).toNat = roundUp raw.toNat c.toNat :=
        UInt64.toNat_ofNat_of_lt' fits
      refine ⟨_, rounded, ?_⟩
      simp only [smallGap_iff (rounded ▸ above), rounded]
      split_ifs at same ⊢ with small
      · rw [checkedAddU64_ok, rounded]
        exact same
      · rw [← same, UInt64.ofNat_toNat]
        rfl
  rw [value]
  constructor
  · intro same
    rw [same]
    exact least
  · exact fun other => other.unique least

end Chunk

section Power2

def Powers (raw c : Nat) : Set Nat := {t | max raw c ≤ t ∧ ∃ k, t = 2 ^ k}

theorem power_isLeast (raw c : Nat) :
    IsLeast {t | t ∈ Powers raw c ∧ raw ≤ t} (2 ^ Nat.clog 2 (max raw c)) := by
  have above := Nat.le_pow_clog (by decide : 1 < 2) (max raw c)
  refine ⟨⟨⟨above, _, rfl⟩, (Nat.le_max_left _ _).trans above⟩, ?_⟩
  rintro t ⟨⟨holds, k, rfl⟩, -⟩
  exact Nat.pow_le_pow_right (by decide) (Nat.clog_le_of_le_pow holds)

theorem next_power_isLeast {raw c m : Nat} (holds : max raw c ≤ 2 ^ m) :
    IsLeast {t | t ∈ Powers raw c ∧ 2 ^ m < t} (2 ^ (m + 1)) := by
  have more : 2 ^ m < 2 ^ (m + 1) := Nat.pow_lt_pow_right (by decide) (Nat.lt_succ_self m)
  refine ⟨⟨⟨holds.trans more.le, _, rfl⟩, more⟩, ?_⟩
  rintro t ⟨⟨-, k, rfl⟩, above⟩
  exact Nat.pow_le_pow_right (by decide) ((Nat.pow_lt_pow_iff_right (by decide)).mp above)

theorem checkedNextPowerOfTwoU64_clog (x r : UInt64) (context : String) :
    checkedNextPowerOfTwoU64 x context = .ok r ↔ r.toNat = 2 ^ Nat.clog 2 x.toNat := by
  rw [checkedNextPowerOfTwoU64_ok]
  constructor
  · rintro ⟨k, value, above, least⟩
    rw [value, le_antisymm (least _ (Nat.le_pow_clog (by decide) _)) (Nat.clog_le_of_le_pow above)]
  · intro value
    exact ⟨_, value, Nat.le_pow_clog (by decide) _, fun i => Nat.clog_le_of_le_pow⟩

theorem clog_max {raw j : Nat} :
    2 ^ Nat.clog 2 (max raw (2 ^ j)) = max (2 ^ Nat.clog 2 raw) (2 ^ j) := by
  have mono : Monotone fun n => Nat.clog 2 n := fun _ _ => Nat.clog_mono_right 2
  have pow : Monotone fun n : Nat => 2 ^ n := fun _ _ => Nat.pow_le_pow_right (by decide)
  rw [show Nat.clog 2 (max raw (2 ^ j)) = max (Nat.clog 2 raw) (Nat.clog 2 (2 ^ j)) from
    mono.map_max, show (2 : Nat) ^ max (Nat.clog 2 raw) (Nat.clog 2 (2 ^ j)) =
      max (2 ^ Nat.clog 2 raw) (2 ^ Nat.clog 2 (2 ^ j)) from pow.map_max,
    Nat.clog_pow 2 j (by decide)]

theorem bump_ok {raw middle : UInt64} {m : Nat} (value : middle.toNat = 2 ^ m)
    (above : raw.toNat ≤ 2 ^ m) (context : String) (t : UInt64) :
    (if smallGap middle raw then checkedMulU64 middle 2 context else pure middle) = .ok t ↔
      t.toNat = if raw.toNat < 2 ^ m ∧ 2 ^ m < raw.toNat + 9 then 2 ^ (m + 1) else 2 ^ m := by
  have small := smallGap_iff (value ▸ above : raw.toNat ≤ middle.toNat)
  rw [value] at small
  by_cases gap : raw.toNat < 2 ^ m ∧ 2 ^ m < raw.toNat + 9
  · rw [if_pos (small.mpr gap), if_pos gap, checkedMulU64_ok, value, pow_succ]
    rfl
  · rw [if_neg (small.not.mpr gap), if_neg gap, ← value, UInt64.toNat_inj]
    exact ⟨fun same => (Except.ok.inj same).symm, fun same => congrArg Except.ok same.symm⟩

theorem power2Target_value {raw c : UInt64} {m : Nat} (above : raw.toNat ≤ 2 ^ m)
    (lifted : max (2 ^ Nat.clog 2 raw.toNat) c.toNat = 2 ^ m) (t : UInt64) :
    power2Target raw c = .ok t ↔ t.toNat =
      if raw.toNat < 2 ^ m ∧ 2 ^ m < raw.toNat + 9 then 2 ^ (m + 1) else 2 ^ m := by
  have middle : ∀ r : UInt64, r.toNat = 2 ^ Nat.clog 2 raw.toNat →
      (if r < c then c else r).toNat = 2 ^ m := by
    intro r value
    rw [← lifted, ← value, max_def]
    by_cases below : r < c
    · have less := UInt64.lt_iff_toNat_lt.mp below
      rw [if_pos below, if_pos less.le]
    · have reached := UInt64.le_iff_toNat_le.mp (UInt64.not_lt.mp below)
      rw [if_neg below]
      by_cases le : r.toNat ≤ c.toNat
      · rw [if_pos le, le_antisymm le reached]
      · rw [if_neg le]
  unfold power2Target
  simp only [Result.bind_eq_ok, checkedNextPowerOfTwoU64_clog]
  constructor
  · rintro ⟨r, value, ok⟩
    exact (bump_ok (middle r value) above _ t).mp ok
  · intro same
    have limit := t.toNat_lt
    have fits : 2 ^ m < 2 ^ 64 := by
      rw [pow_succ] at same
      split_ifs at same
      · omega
      · omega
    have first : 2 ^ Nat.clog 2 raw.toNat ≤ 2 ^ m := lifted ▸ Nat.le_max_left _ _
    have value := UInt64.toNat_ofNat_of_lt' (first.trans_lt fits)
    exact ⟨_, value, (bump_ok (middle _ value) above _ t).mpr same⟩

theorem power2Target_ok {raw c : UInt64} (valid : ValidChunkSize c) (t : UInt64) :
    power2Target raw c = .ok t ↔ IsLeast {t | (max raw.toNat c.toNat ≤ t ∧ ∃ k, t = 2 ^ k) ∧
      GapFits raw.toNat t} t.toNat := by
  obtain ⟨j, power⟩ := valid.power_of_two
  have size := valid.bounds
  have first := power_isLeast raw.toNat c.toNat
  have second := next_power_isLeast first.1.1.1
  have chunk := (Nat.le_max_right _ _).trans first.1.1.1
  have least := isLeast_gapFits first second (by have := first.1.2; rw [pow_succ]; omega)
  have lifted : max (2 ^ Nat.clog 2 raw.toNat) c.toNat =
      2 ^ Nat.clog 2 (max raw.toNat c.toNat) := by
    rw [power, ← clog_max]
  rw [power2Target_value first.1.2 lifted]
  constructor
  · intro same
    rw [same]
    exact least
  · exact fun other => other.unique least

end Power2

/-- `compute_padding` returns exactly the target that its policy asks for. -/
theorem computePadding_ok {raw c : UInt64} (valid : ValidChunkSize c) (pos : 1 ≤ raw)
    (policy : PaddingPolicy) (pad : PaddingResult) :
    computePadding raw c policy = .ok pad ↔
      PaddingTarget raw.toNat c.toNat policy pad.targetSize.toNat ∧ pad.policyId = policy.id ∧
        pad.policyValue = policy.value := by
  obtain ⟨target, id, value⟩ := pad
  obtain ⟨kind, n⟩ := policy
  have size := valid.bounds
  have nonzero : raw ≠ 0 := by
    rintro rfl
    exact absurd pos (by decide)
  have result : ∀ (x : Result UInt64) (i : UInt16) (v : UInt64),
      (x >>= fun t => pure ⟨t, i, v⟩) = .ok (PaddingResult.mk target id value) ↔
        x = .ok target ∧ id = i ∧ value = v := by
    intro x i v
    rw [Result.bind_eq_ok]
    constructor
    · rintro ⟨t, computed, same⟩
      cases same
      exact ⟨computed, rfl, rfl⟩
    · rintro ⟨computed, rfl, rfl⟩
      exact ⟨target, computed, rfl⟩
  unfold computePadding PaddingTarget PaddingPolicy.id PaddingPolicy.value
  cases kind with
  | none =>
    simp only [Except.ok.injEq, PaddingResult.mk.injEq, UInt64.toNat_inj]
    exact ⟨fun ⟨a, b, c⟩ => ⟨a.symm, b.symm, c.symm⟩, fun ⟨a, b, c⟩ => ⟨a.symm, b.symm, c.symm⟩⟩
  | chunk =>
    simp only [if_neg nonzero]
    rw [result, chunkTarget_ok (by omega)]
  | power2 =>
    simp only [if_neg nonzero]
    rw [result, power2Target_ok valid]
  | fixedSize =>
    simp only [Result.guard_eq_ok, gt_iff_lt, UInt64.not_lt, not_not, ne_eq, Except.ok.injEq,
      PaddingResult.mk.injEq, GapFits]
    constructor
    · rintro ⟨le, multiple, wide, rfl, rfl, rfl⟩
      have le := UInt64.le_iff_toNat_le.mp le
      rw [smallGap_iff le] at wide
      refine ⟨⟨rfl, ?_, by omega⟩, rfl, rfl⟩
      rw [← UInt64.toNat_inj, UInt64.toNat_mod] at multiple
      exact Nat.dvd_of_mod_eq_zero multiple
    · rintro ⟨⟨same, multiple, fits⟩, rfl, rfl⟩
      rw [UInt64.toNat_inj] at same
      subst same
      have le : raw.toNat ≤ target.toNat := by omega
      refine ⟨UInt64.le_iff_toNat_le.mpr le, ?_, ?_, rfl, rfl, rfl⟩
      · rw [← UInt64.toNat_inj, UInt64.toNat_mod]
        exact Nat.mod_eq_zero_of_dvd multiple
      · rw [smallGap_iff le]
        omega

/-- The doubling loop stops: after 64 rounds its guard is false, and more rounds change nothing. -/
theorem doubleUntil_stops {x : UInt64} (small : x.toNat ≤ 2 ^ 63) {fuel : Nat}
    (enough : 64 ≤ fuel) :
    doubleUntil fuel 1 x = doubleUntil 64 1 x ∧ ¬doubleUntil fuel 1 x < x := by
  obtain ⟨k, -, value, above, least⟩ :=
    doubleUntil_toNat fuel 0 1 x rfl (by omega) small (by omega)
  obtain ⟨k', -, value', above', least'⟩ :=
    doubleUntil_toNat 64 0 1 x rfl (by omega) small (by omega)
  have same : k = k' :=
    le_antisymm (least k' (Nat.zero_le _) above') (least' k (Nat.zero_le _) above)
  refine ⟨UInt64.toNat_inj.mp (by rw [value, value', same]), ?_⟩
  rw [UInt64.lt_iff_toNat_lt, value]
  omega

/-- The target is correct and minimal, it is missing only when it has no 64-bit value, and the
loop that looks for a power of two ends. -/
theorem computePadding_exact {raw c : UInt64} (valid : ValidChunkSize c) (pos : 1 ≤ raw)
    (policy : PaddingPolicy) :
    (∀ pad, computePadding raw c policy = .ok pad →
      PaddingTarget raw.toNat c.toNat policy pad.targetSize.toNat ∧
        GapFits raw.toNat pad.targetSize.toNat) ∧
    ((∃ e, computePadding raw c policy = .error e) ↔
      ¬∃ target < 2 ^ 64, PaddingTarget raw.toNat c.toNat policy target) ∧
    ∀ x : UInt64, ¬x > (1 : UInt64) <<< 63 → ∀ fuel ≥ 64,
      doubleUntil fuel 1 x = doubleUntil 64 1 x ∧ ¬doubleUntil fuel 1 x < x := by
  refine ⟨fun pad ok => ?_, ?_, fun x small fuel enough => ?_⟩
  · have target := ((computePadding_ok valid pos policy pad).mp ok).1
    exact ⟨target, target.gap⟩
  · constructor
    · rintro ⟨e, failed⟩ ⟨target, limit, least⟩
      have same : (UInt64.ofNat target).toNat = target := UInt64.toNat_ofNat_of_lt' limit
      have ok := (computePadding_ok valid pos policy ⟨UInt64.ofNat target, policy.id,
        policy.value⟩).mpr ⟨same.symm ▸ least, rfl, rfl⟩
      rw [failed] at ok
      cases ok
    · intro missing
      cases computed : computePadding raw c policy with
      | error e => exact ⟨e, rfl⟩
      | ok pad =>
        have target := ((computePadding_ok valid pos policy pad).mp computed).1
        exact absurd ⟨_, pad.targetSize.toNat_lt, target⟩ missing
  · have top : ((1 : UInt64) <<< 63).toNat = 2 ^ 63 := by decide
    rw [gt_iff_lt, UInt64.lt_iff_toNat_lt, top] at small
    exact doubleUntil_stops (Nat.not_lt.mp small) enough

theorem computePadding_exact_chunk : PaddingTarget 100 65536 ⟨.chunk, 0⟩ 65536 ∧
    GapFits 100 65536 := by
  have valid : ValidChunkSize 65536 := ⟨by decide, by decide, by decide⟩
  have pos : (1 : UInt64) ≤ 100 := by decide
  exact (computePadding_exact valid pos ⟨.chunk, 0⟩).1 ⟨65536, 1, 0⟩ (by decide)

end Bseal.App
