import Bseal.Io.HeaderCounts
import Bseal.Io.ShardReader

/-! The three header codecs are canonical, so the two digests, which are computed on the parsed
headers, cover the bytes that are on disk. -/
namespace Bseal.Io
open ByteCodec

theorem parseGlobalPublicHeader_canonical {bytes : Bytes} {g : GlobalPublicHeaderV1}
    (parsed : parseGlobalPublicHeader bytes = .ok g) :
    serializeGlobalPublicHeader g = bytes.take 192 := by
  obtain ⟨-, -, rest, rfl⟩ := (parseGlobalPublicHeader_ok _ _).mp parsed
  exact (List.take_left' (serializeGlobalPublicHeader_length g)).symm

theorem parseShardPublicHeader_canonical {bytes : Bytes} {s : ShardPublicHeaderV1}
    (parsed : parseShardPublicHeader bytes = .ok s) :
    serializeShardPublicHeader s = bytes.take 80 := by
  obtain ⟨-, rest, rfl⟩ := (parseShardPublicHeader_ok _ _).mp parsed
  exact (List.take_left' (serializeShardPublicHeader_length s)).symm

theorem serializeChunkFrameHeaderV1_of_rules {h : ChunkFrameHeaderV1} (rules : ChunkFrameRules h) :
    serializeChunkFrameHeaderV1 h = .ok (encodeChunkFrameHeaderV1 h) := by
  have tag : h.tagLen ≠ 0 := by
    rw [rules.tagLen]
    decide
  unfold serializeChunkFrameHeaderV1 validateChunkFrameHeaderV1
  rw [if_neg (not_not_intro rules.frameFlags), if_neg tag]
  rfl

theorem parseChunkFrameHeaderV1_canonical {bytes : Bytes} {h : ChunkFrameHeaderV1}
    (parsed : parseChunkFrameHeaderV1 bytes = .ok h) :
    serializeChunkFrameHeaderV1 h = .ok (bytes.take 40) := by
  obtain ⟨rules, rest, rfl⟩ := (parseChunkFrameHeaderV1_ok _ _).mp parsed
  rw [serializeChunkFrameHeaderV1_of_rules rules]
  exact congrArg Except.ok (List.take_left' (encodeChunkFrameHeaderV1_length h)).symm

/-- What a parsed header is written as is parsed as that header. -/
structure HeadersParseBack : Prop where
  globalHeader : ∀ g, g.magic = kGlobalHeaderV1Magic → GlobalHeaderRules g →
    parseGlobalPublicHeader (serializeGlobalPublicHeader g) = .ok g
  shardHeader : ∀ s, s.shardMagic = kShardHeaderV1Magic → ShardHeaderRules s →
    parseShardPublicHeader (serializeShardPublicHeader s) = .ok s
  frameHeader : ∀ h, ChunkFrameRules h → ∃ bytes, serializeChunkFrameHeaderV1 h = .ok bytes ∧
    bytes.length = 40 ∧ parseChunkFrameHeaderV1 bytes = .ok h

theorem headersParseBack : HeadersParseBack := by
  refine ⟨fun g magic rules => ?_, fun s magic rules => ?_, fun h rules => ?_⟩
  · exact (parseGlobalPublicHeader_ok _ _).mpr ⟨magic, rules, [], List.append_nil _⟩
  · exact (parseShardPublicHeader_ok _ _).mpr ⟨⟨magic, rules⟩, [], List.append_nil _⟩
  · exact ⟨_, serializeChunkFrameHeaderV1_of_rules rules, encodeChunkFrameHeaderV1_length h,
      (parseChunkFrameHeaderV1_ok _ _).mpr ⟨rules, [], List.append_nil _⟩⟩

section Coverage

/-- The first 272 bytes of a file with the stored MAC zeroed. -/
def withoutMac (content : Bytes) : Bytes :=
  content.take 232 ++ List.replicate 32 0 ++ (content.take 272).drop 264

def hashInput (g : GlobalPublicHeaderV1) (s : ShardPublicHeaderV1) : Bytes :=
  kPublicHeaderHashDomain ++ serializeGlobalPublicHeader g ++ serializeShardPublicHeaderForMac s

def macMessage (g : GlobalPublicHeaderV1) (s : ShardPublicHeaderV1) : Bytes :=
  kHeaderMacDomain ++ serializeGlobalPublicHeader g ++ serializeShardPublicHeaderForMac s

theorem withoutMac_getElem? {content : Bytes} (long : 272 ≤ content.length) {i : Nat}
    (inside : i < 272) (outside : i < 232 ∨ 264 ≤ i) : (withoutMac content)[i]? = content[i]? := by
  have front : (content.take 232).length = 232 := by rw [List.length_take]; omega
  have middle : (content.take 232 ++ List.replicate 32 0).length = 264 := by
    rw [List.length_append, front, List.length_replicate]
  unfold withoutMac
  rcases outside with before | after
  · rw [List.append_assoc, List.getElem?_append_left (by omega), List.getElem?_take_of_lt before]
  · rw [List.getElem?_append_right (by omega), middle, List.getElem?_drop,
      Nat.add_sub_cancel' after, List.getElem?_take_of_lt inside]

theorem headers_withoutMac (g : GlobalPublicHeaderV1) (s : ShardPublicHeaderV1) (payload : Bytes) :
    serializeGlobalPublicHeader g ++ serializeShardPublicHeaderForMac s = withoutMac
      (serializeGlobalPublicHeader g ++ serializeShardPublicHeader s ++ payload) := by
  let front := serializeGlobalPublicHeader g ++ (putArray s.shardMagic ++ putU32 s.shardHeaderLen ++
    putU32 s.shardIndex ++ putU64 s.firstGlobalChunkIndex ++ putU64 s.shardChunkCount ++
    putU64 s.shardPayloadLen)
  have frontLen : front.length = 232 := by
    simp only [front, List.length_append, serializeGlobalPublicHeader_length, putArray_length,
      putU32_length, putU64_length, kGlobalPublicHeaderV1Size]
  have split : serializeGlobalPublicHeader g ++ serializeShardPublicHeader s ++ payload =
      front ++ (putArray s.headerMac ++ (putU64 s.reserved0 ++ payload)) := by
    simp only [front, serializeShardPublicHeader, List.append_assoc]
  have macLen : (front ++ putArray s.headerMac).length = 264 := by
    rw [List.length_append, frontLen, putArray_length]
  have endLen : (front ++ putArray s.headerMac ++ putU64 s.reserved0).length = 272 := by
    rw [List.length_append, macLen, putU64_length]
  unfold withoutMac
  rw [split, List.take_left' frontLen, ← List.append_assoc front, ← List.append_assoc,
    List.take_left' endLen, List.drop_left' macLen]
  simp only [front, serializeShardPublicHeaderForMac, serializeShardPublicHeader, zeroMac,
    putArray, List.append_assoc]
  rfl

variable {blake3 : Bytes → Bytes32}

theorem digests_on_disk {path content : Bytes} {info : ShardInfo}
    (read : readShardInfo blake3 path content = .ok info) :
    272 ≤ content.length ∧
      macMessage info.globalHeader info.shardHeader = kHeaderMacDomain ++ withoutMac content ∧
      hashInput info.globalHeader info.shardHeader =
        kPublicHeaderHashDomain ++ withoutMac content := by
  obtain ⟨payload, rfl⟩ := ((readShardInfo_ok ..).mp read).layout
  unfold macMessage hashInput
  rw [List.append_assoc kHeaderMacDomain, List.append_assoc kPublicHeaderHashDomain,
    headers_withoutMac _ _ payload]
  refine ⟨?_, rfl, rfl⟩
  simp only [List.length_append, serializeGlobalPublicHeader_length,
    serializeShardPublicHeader_length, kGlobalPublicHeaderV1Size, kShardPublicHeaderV1Size]
  omega

/-- Files that agree with the MAC zeroed agree everywhere outside the MAC. -/
theorem withoutMac_inj {content content' : Bytes} (long : 272 ≤ content.length)
    (long' : 272 ≤ content'.length) (same : withoutMac content = withoutMac content') (i : Nat)
    (inside : i < 272) (outside : i < 232 ∨ 264 ≤ i) : content[i]? = content'[i]? := by
  rw [← withoutMac_getElem? long inside outside, same, withoutMac_getElem? long' inside outside]

end Coverage

/-- The codecs are canonical, and hash and MAC cover every header byte on disk but the MAC. -/
theorem headers_canonical :
    ((∀ bytes g, parseGlobalPublicHeader bytes = .ok g →
        serializeGlobalPublicHeader g = bytes.take 192) ∧
      (∀ bytes s, parseShardPublicHeader bytes = .ok s →
        serializeShardPublicHeader s = bytes.take 80) ∧
      ∀ bytes h, parseChunkFrameHeaderV1 bytes = .ok h →
        serializeChunkFrameHeaderV1 h = .ok (bytes.take 40)) ∧
    HeadersParseBack ∧
    (∀ blake3 (hmacSha256 : Bytes → Bytes → Bytes32) path content info,
      readShardInfo blake3 path content = .ok info →
      info.publicHeaderHash = blake3 (kPublicHeaderHashDomain ++ withoutMac content) ∧
      ∀ key ≠ [], computeShardHeaderMac hmacSha256 key info.globalHeader info.shardHeader =
        .ok (hmacSha256 key (kHeaderMacDomain ++ withoutMac content))) ∧
    ∀ blake3 path path' content content' info info',
      readShardInfo blake3 path content = .ok info →
      readShardInfo blake3 path' content' = .ok info' →
      (∃ i < 272, (i < 232 ∨ 264 ≤ i) ∧ content[i]? ≠ content'[i]?) →
      macMessage info.globalHeader info.shardHeader ≠
          macMessage info'.globalHeader info'.shardHeader ∧
        hashInput info.globalHeader info.shardHeader ≠
          hashInput info'.globalHeader info'.shardHeader := by
  refine ⟨⟨fun _ _ => parseGlobalPublicHeader_canonical,
    fun _ _ => parseShardPublicHeader_canonical, fun _ _ => parseChunkFrameHeaderV1_canonical⟩,
    headersParseBack, ?_, ?_⟩
  · intro blake3 hmacSha256 path content info read
    obtain ⟨-, message, input⟩ := digests_on_disk read
    refine ⟨?_, fun key there => ?_⟩
    · rw [((readShardInfo_ok ..).mp read).hash, ← input]
      rfl
    · rw [computeShardHeaderMac_of_key hmacSha256 key _ _ there, ← message]
      rfl
  · intro blake3 path path' content content' info info' read read' differ
    obtain ⟨i, inside, outside, differ⟩ := differ
    obtain ⟨long, message, input⟩ := digests_on_disk read
    obtain ⟨long', message', input'⟩ := digests_on_disk read'
    refine ⟨fun same => differ ?_, fun same => differ ?_⟩
    · rw [message, message', List.append_cancel_left_eq] at same
      exact withoutMac_inj long long' same i inside outside
    · rw [input, input', List.append_cancel_left_eq] at same
      exact withoutMac_inj long long' same i inside outside

section Files
variable (blake3 : Bytes → Bytes32)

def zeroShard (length : UInt64) : ShardInfo where
  path := ascii "a.bin"
  globalHeader := fiveByteHeader 1
  shardHeader := ⟨kShardHeaderV1Magic, 80, 0, 0, 1, length, zeroMac, 0⟩
  publicHeaderHash := computePublicHeaderHash blake3 (fiveByteHeader 1)
    ⟨kShardHeaderV1Magic, 80, 0, 0, 1, length, zeroMac, 0⟩
  fileSize := kPayloadOffset + length

def zeroShardFile (length : UInt64) : Bytes :=
  serializeGlobalPublicHeader (fiveByteHeader 1) ++
    serializeShardPublicHeader (zeroShard blake3 length).shardHeader ++
      List.replicate length.toNat 0

theorem zeroShard_read {length : UInt64} (filled : length ≠ 0) (small : length < 0x100000000) :
    readShardInfo blake3 (ascii "a.bin") (zeroShardFile blake3 length) =
      .ok (zeroShard blake3 length) := by
  obtain ⟨magic, rules, -⟩ := (parseGlobalPublicHeader_ok _ _).mp
    (fiveByteHeader_parse 1 (by decide) (by decide))
  have one : (1 : UInt64) ≠ 0 := by decide
  refine (readShardInfo_ok ..).mpr ⟨rfl, magic, rules, rfl, ⟨rfl, one, filled, rfl⟩, ⟨_, rfl⟩,
    (by decide : (0 : UInt32) < 1), rfl, ?_, rfl⟩
  refine UInt64.toNat_inj.mp ?_
  have bound := UInt64.lt_iff_toNat_lt.mp small
  rw [zeroShardFile, List.length_append, List.length_append, serializeGlobalPublicHeader_length,
    serializeShardPublicHeader_length, List.length_replicate, UInt64.toNat_ofNat', zeroShard,
    UInt64.toNat_add]
  rfl

end Files

/-- Two files with payloads of five and of six bytes. -/
theorem headers_canonical_zeroShards :
    let g := fiveByteHeader 1
    let h : ChunkFrameHeaderV1 := ⟨kChunkFrameFlagFinalChunk, 0, 0, 5, 5, 16⟩
    let content := zeroShardFile (fun _ => zeroMac) 5
    let info := zeroShard (fun _ => zeroMac) 5
    let info' := zeroShard (fun _ => zeroMac) 6
    serializeGlobalPublicHeader g = content.take 192 ∧
      serializeShardPublicHeader info.shardHeader = (content.drop 192).take 80 ∧
      serializeChunkFrameHeaderV1 h = .ok ((encodeChunkFrameHeaderV1 h ++ [1]).take 40) ∧
      parseGlobalPublicHeader (serializeGlobalPublicHeader g) = .ok g ∧
      computeShardHeaderMac (fun _ _ => zeroMac) [1] g info.shardHeader = .ok zeroMac ∧
      macMessage g info.shardHeader ≠ macMessage g info'.shardHeader ∧
      hashInput g info.shardHeader ≠ hashInput g info'.shardHeader := by
  intro g h content info info'
  obtain ⟨⟨globalHeader, shardHeader, frameHeader⟩, back, digests, differ⟩ := headers_canonical
  have read : readShardInfo (fun _ => zeroMac) (ascii "a.bin") content = .ok info :=
    zeroShard_read _ (by decide) (by decide)
  have read' : readShardInfo (fun _ => zeroMac) (ascii "a.bin")
      (zeroShardFile (fun _ => zeroMac) 6) = .ok info' := zeroShard_read _ (by decide) (by decide)
  obtain ⟨-, magic, rules, shardMagic, shardRules, -⟩ := (readShardInfo_ok ..).mp read
  have parsed : parseGlobalPublicHeader content = .ok g :=
    (parseGlobalPublicHeader_ok _ _).mpr ⟨magic, rules, _, (List.append_assoc ..).symm⟩
  have parsed' : parseShardPublicHeader (content.drop 192) = .ok info.shardHeader := by
    refine (parseShardPublicHeader_ok _ _).mpr ⟨⟨shardMagic, shardRules⟩, List.replicate 5 0, ?_⟩
    refine (List.drop_left' (serializeGlobalPublicHeader_length g)).symm.trans ?_
    rw [← List.append_assoc]
    rfl
  have frame : parseChunkFrameHeaderV1 (encodeChunkFrameHeaderV1 h ++ [1]) = .ok h :=
    (parseChunkFrameHeaderV1_ok _ _).mpr ⟨⟨by decide, rfl, rfl⟩, [1], rfl⟩
  obtain ⟨messages, inputs⟩ := differ _ _ _ _ _ _ _ read read' ⟨224, by decide, by decide,
    by decide +kernel⟩
  exact ⟨globalHeader _ _ parsed, shardHeader _ _ parsed', frameHeader _ _ frame,
    back.globalHeader g magic rules,
    (digests _ (fun _ _ => zeroMac) _ _ _ read).2 [1] (List.cons_ne_nil _ _), messages, inputs⟩

end Bseal.Io
