import Bseal.Crypto.Backend

/-! `crypto/KeySchedule`: the chunk nonces. HKDF is a parameter. -/
namespace Bseal.Crypto
open ByteCodec

structure ExpandedKeys where
  chunkEncryptionKey : Bytes
  headerAuthenticationKey : Bytes
  nonceDerivationKey : Bytes
  deriving DecidableEq, Repr

structure NonceContext where
  suite : CipherSuite
  archiveId : Bytes32

abbrev Hkdf := (ikm salt info : Bytes) → (outputLen : Nat) → Bytes

def makeInfo (label : String) (suite : CipherSuite) : Bytes := ascii label ++ putU16 suite.toU16

def hkdfSha256 (hkdf : Hkdf) (ikm salt info : Bytes) (outputLen : Nat) : Result Bytes :=
  if ikm.isEmpty then .error (.invalidArgument "HKDF input keying material must not be empty")
  else if outputLen = 0 then .error (.invalidArgument "HKDF output length must not be zero")
  else .ok (hkdf ikm salt info outputLen)

def deriveChunkNonce (hkdf : Hkdf) (nonceDerivationKey : Bytes) (context : NonceContext)
    (globalChunkIndex : UInt64) : Result Bytes :=
  if nonceDerivationKey.isEmpty then
    .error (.invalidArgument "nonce derivation key must not be empty")
  else
    let nonceLen := context.suite.nonceBytes
    if nonceLen < 12 then .error (.invalidArgument "unsupported AEAD nonce length")
    else do
      let prefixBytes ← hkdfSha256 hkdf nonceDerivationKey context.archiveId.toList
        (makeInfo "BSEAL chunk nonce prefix v1" context.suite) (nonceLen - 8)
      pure (prefixBytes ++ putU64 globalChunkIndex)

def noncePrefix (hkdf : Hkdf) (nonceDerivationKey : Bytes) (context : NonceContext) : Bytes :=
  hkdf nonceDerivationKey context.archiveId.toList
    (makeInfo "BSEAL chunk nonce prefix v1" context.suite) (context.suite.nonceBytes - 8)

theorem deriveChunkNonce_ok (hkdf : Hkdf) (key : Bytes) (context : NonceContext)
    (index : UInt64) (nonce : Bytes) :
    deriveChunkNonce hkdf key context index = .ok nonce ↔
      key ≠ [] ∧ nonce = noncePrefix hkdf key context ++ putU64 index := by
  unfold deriveChunkNonce
  by_cases empty : key = []
  · rw [if_pos (by rw [empty]; rfl)]
    simp [empty]
  · have long : ¬context.suite.nonceBytes < 12 := by cases context.suite <;> decide
    have positive : context.suite.nonceBytes - 8 ≠ 0 := by cases context.suite <;> decide
    have derived : hkdfSha256 hkdf key context.archiveId.toList
        (makeInfo "BSEAL chunk nonce prefix v1" context.suite) (context.suite.nonceBytes - 8) =
        .ok (noncePrefix hkdf key context) := by
      unfold hkdfSha256
      rw [if_neg (by simpa using empty), if_neg positive]
      rfl
    rw [if_neg (by simpa using empty), if_neg long, derived, Result.ok_bind]
    change Except.ok _ = Except.ok nonce ↔ _
    rw [Except.ok.injEq, eq_comm]
    exact (and_iff_right empty).symm

theorem deriveChunkNonce_length {hkdf : Hkdf} {key : Bytes} {context : NonceContext}
    {index : UInt64} {nonce : Bytes}
    (exact : ∀ ikm salt info len, (hkdf ikm salt info len).length = len)
    (derived : deriveChunkNonce hkdf key context index = .ok nonce) :
    nonce.length = context.suite.nonceBytes := by
  obtain ⟨_, rfl⟩ := (deriveChunkNonce_ok hkdf key context index nonce).mp derived
  rw [List.length_append, noncePrefix, exact, putU64_length]
  cases context.suite <;> rfl

/-- Nonces of one archive differ in their last eight bytes. -/
theorem deriveChunkNonce_injective {hkdf : Hkdf} {key : Bytes} {context : NonceContext}
    {i j : UInt64} {nonce : Bytes} (first : deriveChunkNonce hkdf key context i = .ok nonce)
    (second : deriveChunkNonce hkdf key context j = .ok nonce) : i = j := by
  obtain ⟨_, left⟩ := (deriveChunkNonce_ok hkdf key context i nonce).mp first
  obtain ⟨_, right⟩ := (deriveChunkNonce_ok hkdf key context j nonce).mp second
  rw [left] at right
  exact putU64_injective (List.append_cancel_left right)

end Bseal.Crypto
