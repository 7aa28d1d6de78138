import Bseal.Crypto.Kdf
import Bseal.Crypto.Keyfiles
import Bseal.Crypto.KeySchedule

/-! From a passphrase to the keys of an archive: the rest of `crypto/Kdf` and `expand_keys`. The
functions of the libraries are parameters. -/
namespace Bseal.Crypto
open ByteCodec

/-- What the libraries compute. Argon2id takes its costs, the password, the salt and the output
length, and returns the error code of a call that fails. -/
structure Primitives where
  blake3 : Bytes → Bytes32
  hmacSha256 : Bytes → Bytes → Bytes32
  hkdf : Hkdf
  argon2id : (iterations memoryKib parallelism : UInt32) → (password salt : Bytes) →
    (outputLen : Nat) → Except Int Bytes
  aead : Aead

/-- What the libraries promise: outputs of the length that is asked for, and a ciphertext that is
decrypted under the key, nonce and associated data it was encrypted with. -/
structure Primitives.Lawful (c : Primitives) : Prop where
  hkdf : ∀ ikm salt info len, (c.hkdf ikm salt info len).length = len
  aead : ∀ suite key nonce plaintext aad,
    c.aead.decrypt suite key nonce (c.aead.encrypt suite key nonce plaintext aad) aad =
      some plaintext

def kArgon2FloorMemoryKiB : UInt32 := 256 * 1024
def kArgon2FloorIterationsHigh : UInt32 := 3
def kArgon2FloorIterationsLow : UInt32 := 4

def validateKdfSecurityFloor (params : KdfParams) : Result Unit :=
  let minIter := if params.memoryKib ≥ kArgon2FloorMemoryKiB then kArgon2FloorIterationsHigh
    else kArgon2FloorIterationsLow
  if params.iterations < minIter then
    .error (.invalidArgument ("Argon2id parameters are below the minimum security floor: " ++
      "memory=" ++ toString params.memoryKib ++ " KiB with " ++ toString params.iterations ++
      " iteration(s); " ++ "require at least " ++ toString minIter ++ " iteration(s) at this " ++
      "memory size (floor: >=256 MiB requires t>=3, <256 MiB requires t>=4)"))
  else .ok ()

def requireWithinPolicy (value maxValue : UInt32) (before between after : String) : Result Unit :=
  if value > maxValue then
    .error (.invalidArgument (before ++ toString value ++ between ++ toString maxValue ++ after))
  else .ok ()

def checkKdfParamsAgainstPolicy (params : KdfParams) (policy : KdfResourcePolicy) :
    Result Unit := do
  requireWithinPolicy params.memoryKib policy.maxMemoryKib "archive Argon2id memory_kib ("
    " KiB) exceeds the local KDF resource policy limit (" " KiB); use --max-kdf-memory to override"
  requireWithinPolicy params.iterations policy.maxIterations "archive Argon2id iterations ("
    ") exceed the local KDF resource policy limit (" "); use --max-kdf-iterations to override"
  requireWithinPolicy params.parallelism policy.maxParallelism "archive Argon2id parallelism ("
    ") exceeds the local KDF resource policy limit (" "); use --max-kdf-parallelism to override"

structure KdfInput where
  passphrase : Bytes
  keyfiles : List Keyfile
  salt : Bytes32
  archiveId : Bytes32
  params : KdfParams

section Derivation
variable (c : Primitives)

def deriveMasterSeed (input : KdfInput) : Result Bytes :=
  if input.passphrase.isEmpty then .error (.invalidArgument "passphrase must not be empty")
  else do
    validateKdfParams input.params
    validateKdfSecurityFloor input.params
    let mix ← keyfileMix c.blake3 input.keyfiles
    match c.argon2id input.params.iterations input.params.memoryKib input.params.parallelism
      input.passphrase input.salt.toList input.params.outputBytes.toNat with
    | .error rc => .error (.error ("Argon2id derivation failed: " ++ toString rc))
    | .ok passKey =>
      hkdfSha256 c.hkdf (passKey ++ mix.toList) (input.archiveId.toList ++ input.salt.toList)
        (ascii "BSEAL master key v1") 32

/-- The manifest key is left out; nothing uses it. -/
def expandKeys (masterSeed : Bytes) (suite : CipherSuite) : Result ExpandedKeys :=
  if masterSeed.length ≠ 32 then
    .error (.invalidArgument "master seed must be exactly 32 bytes")
  else do
    let chunkEncryptionKey ← hkdfSha256 c.hkdf masterSeed []
      (makeInfo "BSEAL chunk encryption key v1" suite) suite.keyBytes
    let headerAuthenticationKey ← hkdfSha256 c.hkdf masterSeed []
      (makeInfo "BSEAL header authentication key v1" suite) 32
    let nonceDerivationKey ← hkdfSha256 c.hkdf masterSeed []
      (makeInfo "BSEAL nonce derivation key v1" suite) 32
    pure ⟨chunkEncryptionKey, headerAuthenticationKey, nonceDerivationKey⟩

end Derivation

theorem hkdfSha256_ok {hkdf : Hkdf} {ikm salt info output : Bytes} {len : Nat}
    (derived : hkdfSha256 hkdf ikm salt info len = .ok output) :
    len ≠ 0 ∧ output = hkdf ikm salt info len := by
  unfold hkdfSha256 at derived
  simp only [Result.guard_eq_ok] at derived
  exact ⟨derived.2.1, (Except.ok.inj derived.2.2).symm⟩

structure ExpandedKeys.Sized (keys : ExpandedKeys) (suite : CipherSuite) : Prop where
  chunkEncryptionKey : keys.chunkEncryptionKey.length = suite.keyBytes
  headerAuthenticationKey : keys.headerAuthenticationKey.length = 32
  nonceDerivationKey : keys.nonceDerivationKey.length = 32

theorem expandKeys_sized {c : Primitives} (lawful : c.Lawful) {masterSeed : Bytes}
    {suite : CipherSuite} {keys : ExpandedKeys}
    (expanded : expandKeys c masterSeed suite = .ok keys) :
    keys.Sized suite := by
  unfold expandKeys at expanded
  rw [Result.guard_eq_ok] at expanded
  obtain ⟨chunk, first, rest⟩ := (Result.bind_eq_ok _ _ _).mp expanded.2
  obtain ⟨header, second, rest⟩ := (Result.bind_eq_ok _ _ _).mp rest
  obtain ⟨nonce, third, rest⟩ := (Result.bind_eq_ok _ _ _).mp rest
  cases rest
  refine ⟨?_, ?_, ?_⟩
  · rw [(hkdfSha256_ok first).2, lawful.hkdf]
  · rw [(hkdfSha256_ok second).2, lawful.hkdf]
  · rw [(hkdfSha256_ok third).2, lawful.hkdf]

/-- The seed depends on the costs of the parameters, not on the preset they come from, and on the
keyfiles by their mix only. -/
theorem deriveMasterSeed_congr (c : Primitives) {a b : KdfInput} (salt : a.salt = b.salt)
    (passphrase : a.passphrase = b.passphrase) (archiveId : a.archiveId = b.archiveId)
    (keyfiles : keyfileMix c.blake3 a.keyfiles = keyfileMix c.blake3 b.keyfiles)
    (params : { a.params with preset := b.params.preset } = b.params) :
    deriveMasterSeed c a = deriveMasterSeed c b := by
  obtain ⟨_, _, _, _, _⟩ := a
  obtain ⟨_, _, _, _, _⟩ := b
  subst salt passphrase archiveId
  simp only at keyfiles params
  rw [← params]
  unfold deriveMasterSeed
  rw [keyfiles]
  rfl

end Bseal.Crypto
