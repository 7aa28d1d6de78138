import Bseal.Common.Errors

/-! `select_public_header_hash` of both pipelines: the hash of the shard that owns a
frame, or the fallback. The decrypt side compares with the list length cut to 32 bits. -/
namespace Bseal.Pipeline

def Encrypt.selectPublicHeaderHash (hashes : List Bytes32) (fallback : Bytes32)
    (shardIndex : UInt32) : Bytes32 :=
  if shardIndex.toNat < hashes.length then hashes.getD shardIndex.toNat fallback else fallback

def Decrypt.selectPublicHeaderHash (hashes : List Bytes32) (fallback : Bytes32)
    (shardIndex : UInt32) : Bytes32 :=
  if hashes ≠ [] ∧ shardIndex < UInt32.ofNat hashes.length then
    hashes.getD shardIndex.toNat fallback
  else fallback

theorem Encrypt.selectPublicHeaderHash_of_getElem? {hashes : List Bytes32} {shardIndex : UInt32}
    {hash : Bytes32} (there : hashes[shardIndex.toNat]? = some hash) (fallback : Bytes32) :
    Encrypt.selectPublicHeaderHash hashes fallback shardIndex = hash := by
  unfold Encrypt.selectPublicHeaderHash
  rw [if_pos (List.getElem?_eq_some_iff.mp there).1, List.getD_eq_getElem?_getD, there]
  rfl

theorem Decrypt.selectPublicHeaderHash_eq (hashes : List Bytes32) (fallback : Bytes32)
    (shardIndex : UInt32) (small : hashes.length < 2 ^ 32) :
    Decrypt.selectPublicHeaderHash hashes fallback shardIndex =
      Encrypt.selectPublicHeaderHash hashes fallback shardIndex := by
  have same : (hashes ≠ [] ∧ shardIndex < UInt32.ofNat hashes.length) ↔
      shardIndex.toNat < hashes.length := by
    rw [UInt32.lt_iff_toNat_lt, UInt32.toNat_ofNat_of_lt' small]
    constructor
    · exact And.right
    · intro lt
      refine ⟨?_, lt⟩
      rintro rfl
      exact absurd lt (Nat.not_lt_zero _)
  unfold Decrypt.selectPublicHeaderHash Encrypt.selectPublicHeaderHash
  by_cases inside : shardIndex.toNat < hashes.length
  · rw [if_pos inside, if_pos (same.mpr inside)]
  · rw [if_neg inside, if_neg (fun h => inside (same.mp h))]

end Bseal.Pipeline
