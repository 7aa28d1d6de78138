import Bseal.Common.Errors

/-! The Argon2id parameters of `crypto/Kdf` and the limits that a header's are held to. -/
namespace Bseal.Crypto

inductive KdfPreset where
  | fast
  | strong
  | paranoid
  | custom
  deriving DecidableEq, Repr

def kArgon2MemoryKiBMin : UInt32 := 65536
def kArgon2MemoryKiBMax : UInt32 := 4194304
def kArgon2IterationsMin : UInt32 := 1
def kArgon2IterationsMax : UInt32 := 10
def kArgon2ParallelismMin : UInt32 := 1
def kArgon2ParallelismMax : UInt32 := 32
def kArgon2OutputBytesMin : UInt32 := 32
def kArgon2OutputBytesMax : UInt32 := 64
def kArgon2OutputBytesDefault : UInt32 := 32

structure KdfParams where
  preset : KdfPreset
  memoryKib : UInt32
  iterations : UInt32
  parallelism : UInt32
  outputBytes : UInt32
  deriving DecidableEq, Repr

/-- The limits of a decrypting host, with their defaults. -/
structure KdfResourcePolicy where
  maxMemoryKib : UInt32 := 2 * 1024 * 1024
  maxIterations : UInt32 := 4
  maxParallelism : UInt32 := 8
  deriving DecidableEq, Repr

def requireU32Range (value minValue maxValue : UInt32) (name : String) : Result Unit :=
  if value < minValue ∨ value > maxValue then
    .error (.invalidArgument (name ++ " is outside the allowed range"))
  else .ok ()

def validateKdfParams (params : KdfParams) : Result Unit := do
  requireU32Range params.memoryKib kArgon2MemoryKiBMin kArgon2MemoryKiBMax "Argon2id memory_kib"
  requireU32Range params.iterations kArgon2IterationsMin kArgon2IterationsMax
    "Argon2id iterations"
  requireU32Range params.parallelism kArgon2ParallelismMin kArgon2ParallelismMax
    "Argon2id parallelism"
  requireU32Range params.outputBytes kArgon2OutputBytesMin kArgon2OutputBytesMax
    "KDF output_bytes"

/-- The two checks that `validate_kdf_resource_policy` makes of each limit. -/
def requirePolicyLimit (value maxValue : UInt32) (name : String) : Result Unit :=
  if value = 0 then
    .error (.invalidArgument ("KDF resource policy " ++ name ++ " must not be zero"))
  else if value > maxValue then
    .error (.invalidArgument ("KDF resource policy " ++ name ++ " (" ++ toString value ++
      ") exceeds the format maximum (" ++ toString maxValue ++ ")"))
  else .ok ()

def validateKdfResourcePolicy (policy : KdfResourcePolicy) : Result Unit := do
  requirePolicyLimit policy.maxMemoryKib kArgon2MemoryKiBMax "max_memory_kib"
  requirePolicyLimit policy.maxIterations kArgon2IterationsMax "max_iterations"
  requirePolicyLimit policy.maxParallelism kArgon2ParallelismMax "max_parallelism"

structure KdfPolicyRules (policy : KdfResourcePolicy) : Prop where
  maxMemoryKib : policy.maxMemoryKib ≠ 0 ∧ policy.maxMemoryKib ≤ kArgon2MemoryKiBMax
  maxIterations : policy.maxIterations ≠ 0 ∧ policy.maxIterations ≤ kArgon2IterationsMax
  maxParallelism : policy.maxParallelism ≠ 0 ∧ policy.maxParallelism ≤ kArgon2ParallelismMax

structure KdfParamsRules (params : KdfParams) : Prop where
  memoryKib : kArgon2MemoryKiBMin ≤ params.memoryKib ∧ params.memoryKib ≤ kArgon2MemoryKiBMax
  iterations : kArgon2IterationsMin ≤ params.iterations ∧
    params.iterations ≤ kArgon2IterationsMax
  parallelism : kArgon2ParallelismMin ≤ params.parallelism ∧
    params.parallelism ≤ kArgon2ParallelismMax
  outputBytes : kArgon2OutputBytesMin ≤ params.outputBytes ∧
    params.outputBytes ≤ kArgon2OutputBytesMax

theorem requireU32Range_ok (value minValue maxValue : UInt32) (name : String) (u : Unit) :
    requireU32Range value minValue maxValue name = .ok u ↔
      minValue ≤ value ∧ value ≤ maxValue := by
  unfold requireU32Range
  rw [Result.guard_eq_ok, not_or, UInt32.not_lt, gt_iff_lt, UInt32.not_lt]
  exact and_iff_left rfl

theorem validateKdfParams_ok (params : KdfParams) (u : Unit) :
    validateKdfParams params = .ok u ↔ KdfParamsRules params := by
  unfold validateKdfParams
  simp only [Result.bind_eq_ok, requireU32Range_ok]
  constructor
  · rintro ⟨_, memory, _, iterations, _, parallelism, output⟩
    exact ⟨memory, iterations, parallelism, output⟩
  · rintro ⟨memory, iterations, parallelism, output⟩
    exact ⟨(), memory, (), iterations, (), parallelism, output⟩

theorem requirePolicyLimit_ok (value maxValue : UInt32) (name : String) (u : Unit) :
    requirePolicyLimit value maxValue name = .ok u ↔ value ≠ 0 ∧ value ≤ maxValue := by
  unfold requirePolicyLimit
  rw [Result.guard_eq_ok, Result.guard_eq_ok, gt_iff_lt, UInt32.not_lt]
  exact and_congr_right fun _ => and_iff_left rfl

theorem validateKdfResourcePolicy_ok (policy : KdfResourcePolicy) (u : Unit) :
    validateKdfResourcePolicy policy = .ok u ↔ KdfPolicyRules policy := by
  unfold validateKdfResourcePolicy
  simp only [Result.bind_eq_ok, requirePolicyLimit_ok]
  constructor
  · rintro ⟨_, memory, _, iterations, parallelism⟩
    exact ⟨memory, iterations, parallelism⟩
  · rintro ⟨memory, iterations, parallelism⟩
    exact ⟨(), memory, (), iterations, parallelism⟩

end Bseal.Crypto
