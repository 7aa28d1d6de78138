import Bseal.Common.Errors

/-! `crypto/CryptoBackend` and its two implementations over the AEAD functions of the
libraries they call, whose own calls are taken to succeed. -/
namespace Bseal.Crypto
open ByteCodec

inductive CipherSuite where
  | xChaCha20Poly1305
  | aes256Gcm
  deriving DecidableEq, Repr

namespace CipherSuite

def toU16 : CipherSuite → UInt16
  | .xChaCha20Poly1305 => 1
  | .aes256Gcm => 2

def keyBytes : CipherSuite → Nat
  | .xChaCha20Poly1305 => 32
  | .aes256Gcm => 32

def nonceBytes : CipherSuite → Nat
  | .xChaCha20Poly1305 => 24
  | .aes256Gcm => 12

end CipherSuite

def kAeadTagBytes : Nat := 16

structure ChunkAad where
  publicHeaderHash : Bytes
  chunkFrameHeader : Bytes
  deriving DecidableEq, Repr

structure EncryptChunkRequest where
  key : Bytes
  nonce : Bytes
  plaintext : Bytes
  aad : ChunkAad
  deriving DecidableEq, Repr

structure DecryptChunkRequest where
  key : Bytes
  nonce : Bytes
  ciphertextAndTag : Bytes
  aad : ChunkAad
  deriving DecidableEq, Repr

def kChunkAadDomain : Bytes := ascii "BSEAL chunk aad v1" ++ [0]

def serializeChunkAadV1 (aad : ChunkAad) : Result Bytes :=
  if aad.publicHeaderHash.length ≠ 32 then
    .error (.invalidArgument "chunk AAD requires 32-byte public_header_hash")
  else if aad.chunkFrameHeader.length ≠ 40 then
    .error (.invalidArgument "chunk AAD requires 40-byte ChunkFrameHeaderV1")
  else .ok (kChunkAadDomain ++ aad.publicHeaderHash ++ aad.chunkFrameHeader)

def validateAeadRequest (key nonce : Bytes) (expectedKeySize expectedNonceSize : Nat) :
    Result Unit :=
  if key.length ≠ expectedKeySize then .error (.invalidArgument "invalid AEAD key size")
  else if nonce.length ≠ expectedNonceSize then
    .error (.invalidArgument "invalid AEAD nonce size")
  else .ok ()

structure CryptoBackend where
  suite : CipherSuite
  keySize : Nat
  nonceSize : Nat
  tagSize : Nat
  encryptChunk : EncryptChunkRequest → Result Bytes
  decryptChunk : DecryptChunkRequest → Result Bytes

/-- The AEAD functions of the libraries: `encrypt` returns ciphertext and tag,
and `decrypt` the plaintext of what it authenticates. -/
structure Aead where
  encrypt : CipherSuite → (key nonce plaintext aad : Bytes) → Bytes
  decrypt : CipherSuite → (key nonce ciphertextAndTag aad : Bytes) → Option Bytes

/-- OpenSSL takes sizes as `int`, libsodium as 64-bit numbers. -/
def checkedSize (suite : CipherSuite) (size : Nat) (what : String) : Result Unit :=
  match suite with
  | .aes256Gcm =>
    if size > 2147483647 then .error (.invalidArgument (what ++ " is too large for OpenSSL"))
    else .ok ()
  | .xChaCha20Poly1305 =>
    if size > 18446744073709551615 then .error (.invalidArgument (what ++ " is too large"))
    else .ok ()

variable (aead : Aead) (suite : CipherSuite)

def aeadEncryptChunk (request : EncryptChunkRequest) : Result Bytes := do
  validateAeadRequest request.key request.nonce suite.keyBytes suite.nonceBytes
  let aad ← serializeChunkAadV1 request.aad
  checkedSize suite request.plaintext.length "plaintext"
  pure (aead.encrypt suite request.key request.nonce request.plaintext aad)

def aeadDecryptChunk (request : DecryptChunkRequest) : Result Bytes := do
  validateAeadRequest request.key request.nonce suite.keyBytes suite.nonceBytes
  if request.ciphertextAndTag.length < kAeadTagBytes then .error .authenticationFailed
  else do
    let aad ← serializeChunkAadV1 request.aad
    checkedSize suite
      (match suite with
      | .aes256Gcm => request.ciphertextAndTag.length - kAeadTagBytes
      | .xChaCha20Poly1305 => request.ciphertextAndTag.length) "ciphertext"
    match aead.decrypt suite request.key request.nonce request.ciphertextAndTag aad with
    | some plaintext => pure plaintext
    | none => .error .authenticationFailed

def aeadBackend : CryptoBackend where
  suite := suite
  keySize := suite.keyBytes
  nonceSize := suite.nonceBytes
  tagSize := kAeadTagBytes
  encryptChunk := aeadEncryptChunk aead suite
  decryptChunk := aeadDecryptChunk aead suite

/-- A request that passes the checks returns what the library decrypts. A plaintext of that size
was accepted before. -/
theorem aeadDecryptChunk_ok {aead : Aead} {suite : CipherSuite}
    {request : DecryptChunkRequest} {aad plaintext : Bytes}
    (valid : validateAeadRequest request.key request.nonce suite.keyBytes suite.nonceBytes = .ok ())
    (long : 16 ≤ request.ciphertextAndTag.length) (small : request.ciphertextAndTag.length < 2 ^ 64)
    (serialized : serializeChunkAadV1 request.aad = .ok aad)
    (sized : checkedSize suite (request.ciphertextAndTag.length - 16) "plaintext" = .ok ())
    (decrypts : aead.decrypt suite request.key request.nonce request.ciphertextAndTag aad =
      some plaintext) : aeadDecryptChunk aead suite request = .ok plaintext := by
  unfold aeadDecryptChunk
  refine (Result.bind_eq_ok _ _ _).mpr ⟨(), valid, ?_⟩
  rw [if_neg (by rw [kAeadTagBytes]; omega)]
  refine (Result.bind_eq_ok _ _ _).mpr ⟨aad, serialized, ?_⟩
  refine (Result.bind_eq_ok _ _ _).mpr ⟨(), ?_, ?_⟩
  · unfold checkedSize at sized ⊢
    cases suite
    · exact if_neg (by simp only; omega)
    · simp only [Result.guard_eq_ok] at sized
      exact if_neg sized.1
  · rw [decrypts]
    rfl

end Bseal.Crypto
