import Bseal.Common.CheckedArithmetic
import Bseal.Io.HeaderCounts
import Bseal.Io.ShardReader
import Mathlib.Data.List.Sort

/-! `ShardReader::discover` and `ShardReader::validate_shards`: the shards of a directory, and
the checks that make them one archive. The directory is read in any order. -/
namespace Bseal.Io

deriving instance DecidableEq for ShardInfo

namespace ShardInfo

def shardIndex (s : ShardInfo) : UInt32 := s.shardHeader.shardIndex

def firstChunkIndex (s : ShardInfo) : UInt64 := s.shardHeader.firstGlobalChunkIndex

def chunkCount (s : ShardInfo) : UInt64 := s.shardHeader.shardChunkCount

def shardPayloadLen (s : ShardInfo) : UInt64 := s.shardHeader.shardPayloadLen

def Before (a b : ShardInfo) : Prop := a.shardIndex ≤ b.shardIndex

instance : DecidableRel Before := fun a b =>
  inferInstanceAs (Decidable (a.shardIndex ≤ b.shardIndex))

instance : Std.Total Before := ⟨fun a b => by
  unfold Before
  rw [UInt32.le_iff_toNat_le, UInt32.le_iff_toNat_le]
  exact Nat.le_total _ _⟩

instance : IsTrans ShardInfo Before := ⟨fun a b c ab bc => by
  unfold Before at *
  rw [UInt32.le_iff_toNat_le] at *
  exact Nat.le_trans ab bc⟩

end ShardInfo

theorem forall₂_mem_right {α β : Type} {R : α → β → Prop} {l : List α} {l' : List β}
    (all : List.Forall₂ R l l') : ∀ b ∈ l', ∃ a ∈ l, R a b := by
  induction all with
  | nil => exact fun b member => absurd member List.not_mem_nil
  | cons related _ ih =>
    intro b member
    rcases List.mem_cons.mp member with rfl | later
    · exact ⟨_, List.mem_cons_self, related⟩
    · obtain ⟨a, among, found⟩ := ih b later
      exact ⟨a, List.mem_cons_of_mem _ among, found⟩

section Discover
variable (blake3 : Bytes → Bytes32) (files : Bytes → Option Bytes)

/-- The extension of the last path component is `.bin`; a leading dot starts no extension. -/
def hasBinExtension (path : Bytes) : Bool :=
  let name := (path.reverse.takeWhile (· ≠ 47)).reverse
  name.length > 4 && name.drop (name.length - 4) == ascii ".bin"

/-- The files of a listing that are shards; other entries are passed over. -/
def readShards : List Bytes → Result (List ShardInfo)
  | [] => .ok []
  | path :: listing =>
    match files path with
    | none => readShards listing
    | some content =>
      if hasBinExtension path then do
        let info ← readShardInfo blake3 path content
        let shards ← readShards listing
        pure (info :: shards)
      else readShards listing

def discover (inputDir : Bytes) (listing : Option (List Bytes)) : Result (List ShardInfo) :=
  match listing with
  | none => .error (.invalidArgument ("input shard directory does not exist: " ++ text inputDir))
  | some paths => do
    let shards ← readShards blake3 files paths
    if shards.isEmpty then
      .error (.invalidArgument
        ("no framed .bin shard files found in input directory: " ++ text inputDir))
    else .ok (shards.insertionSort ShardInfo.Before)

def isShardFile (path : Bytes) : Bool := (files path).isSome && hasBinExtension path

theorem readShards_ok (listing : List Bytes) (shards : List ShardInfo) :
    readShards blake3 files listing = .ok shards ↔
      List.Forall₂ (fun path s => ∃ content, files path = some content ∧
        ShardInfoRules blake3 path content s) (listing.filter (isShardFile files)) shards := by
  induction listing generalizing shards with
  | nil =>
    rw [readShards, Except.ok.injEq, List.filter_nil, List.forall₂_nil_left_iff]
    exact eq_comm
  | cons path listing ih =>
    rw [readShards, List.filter_cons, isShardFile]
    cases there : files path with
    | none => exact ih shards
    | some content =>
      rw [Option.isSome_some, Bool.true_and]
      by_cases bin : hasBinExtension path = true
      · simp only [bin, if_true, Result.bind_eq_ok, List.forall₂_cons_left_iff, ih,
          readShardInfo_ok, there, Option.some.injEq]
        constructor
        · rintro ⟨info, parsed, more, others, result⟩
          cases result
          exact ⟨info, more, ⟨content, rfl, parsed⟩, others, rfl⟩
        · rintro ⟨info, more, ⟨_, rfl, parsed⟩, others, rfl⟩
          exact ⟨info, parsed, more, others, rfl⟩
      · simp only [bin, if_false, Bool.false_eq_true]
        exact ih shards

theorem discover_ok {inputDir : Bytes} {listing : Option (List Bytes)} {shards : List ShardInfo}
    (found : discover blake3 files inputDir listing = .ok shards) :
    ∃ paths read, listing = some paths ∧ shards.Perm read ∧
      List.Forall₂ (fun path s => ∃ content, files path = some content ∧
        ShardInfoRules blake3 path content s) (paths.filter (isShardFile files)) read := by
  cases listing with
  | none => cases found
  | some paths =>
    obtain ⟨read, listed, found⟩ := (Result.bind_eq_ok ..).mp found
    rw [Result.guard_eq_ok] at found
    cases found.2
    exact ⟨paths, read, rfl, List.perm_insertionSort .., (readShards_ok ..).mp listed⟩

theorem discover_mem {inputDir : Bytes} {listing : Option (List Bytes)} {shards : List ShardInfo}
    (found : discover blake3 files inputDir listing = .ok shards) : ∀ s ∈ shards,
      ∃ content, files s.path = some content ∧ ShardInfoRules blake3 s.path content s := by
  obtain ⟨paths, read, _, perm, matched⟩ := discover_ok blake3 files found
  intro s member
  obtain ⟨path, _, content, there, rules⟩ :=
    forall₂_mem_right matched s (perm.mem_iff.mp member)
  rw [← rules.path] at there rules
  exact ⟨content, there, rules⟩

theorem discover_listed {inputDir : Bytes} {listing : Option (List Bytes)}
    {shards : List ShardInfo} (found : discover blake3 files inputDir listing = .ok shards) :
    ∃ paths, listing = some paths ∧
      ∀ s ∈ shards, s.path ∈ paths ∧ hasBinExtension s.path = true := by
  obtain ⟨paths, read, listed, perm, matched⟩ := discover_ok blake3 files found
  refine ⟨paths, listed, fun s member => ?_⟩
  obtain ⟨path, among, content, there, rules⟩ :=
    forall₂_mem_right matched s (perm.mem_iff.mp member)
  obtain ⟨inside, shardFile⟩ := List.mem_filter.mp among
  rw [rules.path]
  exact ⟨inside, ((Bool.and_eq_true ..).mp shardFile).2⟩

end Discover

structure ShardReaderValidation where
  suiteId : Option UInt16
  archiveId : Option Bytes32
  chunkPlainSize : Option UInt64
  publicHeaderHash : Option Bytes32

def Expects {α : Type} (expected : Option α) (value : α) : Prop := ∀ e ∈ expected, value = e

instance {α : Type} [DecidableEq α] (expected : Option α) (value : α) :
    Decidable (Expects expected value) :=
  decidable_of_iff (expected.all fun e => decide (value = e)) (by
    cases expected <;> simp [Expects])

section Validate
variable (hmacSha256 : Bytes → Bytes → Bytes32) (validation : ShardReaderValidation)
  (authKey : Bytes)

def duplicateShardIndex (i : UInt32) : Failure :=
  .invalidArgument ("duplicate shard index: " ++ toString i)

/-- What the first loop checks of one shard; `alone` when there is no other. -/
def validateShard (reference : Bytes) (alone : Bool) (shard : ShardInfo) : Result Unit :=
  let g := shard.globalHeader
  if serializeGlobalPublicHeader g ≠ reference then
    .error (.invalidArgument ("global header mismatch across shards: " ++ text shard.path))
  else if ¬Expects validation.suiteId g.aeadAlgId then
    .error (.invalidArgument "incompatible shard aead_alg_id")
  else if ¬Expects validation.archiveId g.archiveId then
    .error (.invalidArgument "archive_id mismatch")
  else if ¬Expects validation.chunkPlainSize g.chunkPlainSize.toUInt64 then
    .error (.invalidArgument "chunk_plain_size mismatch")
  else if alone ∧ ¬Expects validation.publicHeaderHash shard.publicHeaderHash then
    .error (.invalidArgument "public_header_hash mismatch")
  else if authKey.isEmpty then .ok ()
  else do
    let verified ← verifyShardHeaderMac hmacSha256 authKey g shard.shardHeader
    if verified then .ok () else .error .authenticationFailed

def validateEach (reference : Bytes) (alone : Bool) :
    List ShardInfo → List UInt32 → Result (List UInt32)
  | [], seen => .ok seen
  | shard :: shards, seen =>
    if shard.shardIndex ∈ seen then .error (duplicateShardIndex shard.shardIndex)
    else do
      validateShard hmacSha256 validation authKey reference alone shard
      validateEach reference alone shards (shard.shardIndex :: seen)

def requireIndices (seen : List UInt32) (shardCount : UInt32) : Result Unit :=
  match (List.range shardCount.toNat).find? fun i => UInt32.ofNat i ∉ seen with
  | some i => .error (.invalidArgument ("missing shard index: " ++ toString i))
  | none => .ok ()

def checkedRangeEnd (first count : UInt64) : Result UInt64 :=
  if first > u64Max - count then .error (.invalidArgument "invalid shard chunk range overflow")
  else .ok (first + count)

/-- The running cursor over the sorted shards. -/
def coverChunks : List ShardInfo → UInt64 → Result UInt64
  | [], expectedFirstChunk => .ok expectedFirstChunk
  | shard :: shards, expectedFirstChunk => do
    let stop ← checkedRangeEnd shard.firstChunkIndex shard.chunkCount
    if shard.firstChunkIndex ≠ expectedFirstChunk then
      .error (.invalidArgument
        ("chunk index gap/overlap before shard " ++ toString shard.shardIndex))
    else coverChunks shards stop

/-- The sorted shards and their total chunk count. -/
def validateShards (shards : List ShardInfo) : Result (List ShardInfo × UInt64) :=
  match shards with
  | [] => .error (.invalidArgument "ShardReader requires at least one shard")
  | front :: rest => do
    let seen ← validateEach hmacSha256 validation authKey
      (serializeGlobalPublicHeader front.globalHeader) rest.isEmpty (front :: rest) []
    let g := front.globalHeader
    if (front :: rest).length ≠ g.shardCount.toNat then
      .error (.invalidArgument "shard count does not match global_header.shard_count")
    else do
      requireIndices seen g.shardCount
      let sorted := (front :: rest).insertionSort ShardInfo.Before
      let covered ← coverChunks sorted 0
      if covered ≠ g.globalChunkCount then
        .error (.invalidArgument "shard set does not cover global_chunk_count")
      else pure (sorted, g.globalChunkCount)

structure ShardChecks (reference : Bytes) (alone : Bool) (shard : ShardInfo) : Prop where
  globalHeader : serializeGlobalPublicHeader shard.globalHeader = reference
  suiteId : Expects validation.suiteId shard.globalHeader.aeadAlgId
  archiveId : Expects validation.archiveId shard.globalHeader.archiveId
  chunkPlainSize : Expects validation.chunkPlainSize shard.globalHeader.chunkPlainSize.toUInt64
  publicHeaderHash : alone → Expects validation.publicHeaderHash shard.publicHeaderHash
  headerMac : authKey ≠ [] →
    verifyShardHeaderMac hmacSha256 authKey shard.globalHeader shard.shardHeader = .ok true

theorem validateShard_ok (reference : Bytes) (alone : Bool) (shard : ShardInfo) (u : Unit) :
    validateShard hmacSha256 validation authKey reference alone shard = .ok u ↔
      ShardChecks hmacSha256 validation authKey reference alone shard := by
  unfold validateShard
  simp only [ne_eq, ite_not]
  constructor
  · intro passed
    split_ifs at passed with header suite archive size hash keyless
    · exact ⟨header, suite, archive, size, fun lonely => not_not.mp (not_and.mp hash lonely),
        fun keyed => absurd (by simpa using keyless) keyed⟩
    · obtain ⟨verified, mac, passed⟩ := (Result.bind_eq_ok ..).mp passed
      split at passed
      · rename_i good
        rw [good] at mac
        exact ⟨header, suite, archive, size, fun lonely => not_not.mp (not_and.mp hash lonely),
          fun _ => mac⟩
      · cases passed
  · rintro ⟨header, suite, archive, size, hash, mac⟩
    have hash' : ¬(alone = true ∧ ¬Expects validation.publicHeaderHash shard.publicHeaderHash) :=
      fun bad => bad.2 (hash bad.1)
    rw [if_pos header, if_pos suite, if_pos archive, if_pos size, if_neg hash']
    split
    · rfl
    · rename_i keyed
      rw [mac (by simpa using keyed), Result.ok_bind]
      rfl

theorem validateEach_ok (reference : Bytes) (alone : Bool) (shards : List ShardInfo)
    (seen after : List UInt32) :
    validateEach hmacSha256 validation authKey reference alone shards seen = .ok after ↔
      (∀ s ∈ shards, ShardChecks hmacSha256 validation authKey reference alone s) ∧
        (shards.map ShardInfo.shardIndex).Nodup ∧
        (∀ s ∈ shards, s.shardIndex ∉ seen) ∧
        after = (shards.map ShardInfo.shardIndex).reverse ++ seen := by
  induction shards generalizing seen with
  | nil =>
    rw [validateEach, Except.ok.injEq]
    simp [eq_comm]
  | cons shard shards ih =>
    rw [validateEach]
    by_cases again : shard.shardIndex ∈ seen
    · rw [if_pos again]
      simp [again]
    rw [if_neg again, Result.bind_eq_ok, List.forall_mem_cons, List.forall_mem_cons]
    simp only [ih, validateShard_ok, List.map_cons, List.nodup_cons, List.reverse_cons,
      List.append_assoc, List.singleton_append, List.mem_cons, not_or, List.mem_map, not_exists,
      not_and]
    constructor
    · rintro ⟨_, checks, all, nodup, fresh, same⟩
      exact ⟨⟨checks, all⟩, ⟨fun s member => (fresh s member).1, nodup⟩,
        ⟨again, fun s member => (fresh s member).2⟩, same⟩
    · rintro ⟨⟨checks, all⟩, ⟨differ, nodup⟩, ⟨-, fresh⟩, same⟩
      exact ⟨(), checks, all, nodup, fun s member => ⟨differ s member, fresh s member⟩, same⟩

theorem requireIndices_ok (seen : List UInt32) (shardCount : UInt32) (u : Unit) :
    requireIndices seen shardCount = .ok u ↔
      ∀ i < shardCount.toNat, UInt32.ofNat i ∈ seen := by
  unfold requireIndices
  split
  · rename_i i found
    have missing := List.find?_some found
    have below := List.mem_range.mp (List.mem_of_find?_eq_some found)
    simp only [reduceCtorEq, false_iff]
    intro all
    exact of_decide_eq_true missing (all i below)
  · rename_i found
    rw [List.find?_eq_none] at found
    simp only [true_iff]
    intro i below
    by_contra missing
    exact found i (List.mem_range.mpr below) (decide_eq_true missing)

/-- The chunk ranges stand one after another from `first` to `stop`, over the naturals. -/
def Covers : List ShardInfo → Nat → Nat → Prop
  | [], first, stop => first = stop
  | shard :: shards, first, stop => shard.firstChunkIndex.toNat = first ∧
      Covers shards (first + shard.chunkCount.toNat) stop

theorem Covers.le {shards : List ShardInfo} {first stop : Nat} (covers : Covers shards first stop) :
    first ≤ stop := by
  induction shards generalizing first with
  | nil => exact Nat.le_of_eq covers
  | cons shard shards ih =>
    have := ih covers.2
    omega

theorem checkedRangeEnd_ok (first count stop : UInt64) :
    checkedRangeEnd first count = .ok stop ↔ stop.toNat = first.toNat + count.toNat := by
  have hf := first.toNat_lt
  have hc := count.toNat_lt
  have hs := stop.toNat_lt
  have room : (u64Max - count).toNat = 2 ^ 64 - 1 - count.toNat := by
    rw [UInt64.toNat_sub_of_le _ _ (UInt64.le_iff_toNat_le.mpr (by rw [u64Max_toNat]; omega)),
      u64Max_toNat]
  unfold checkedRangeEnd
  split
  · rename_i exceeds
    rw [gt_iff_lt, UInt64.lt_iff_toNat_lt, room] at exceeds
    simp only [reduceCtorEq, false_iff]
    omega
  · rename_i fits
    rw [gt_iff_lt, UInt64.lt_iff_toNat_lt, room] at fits
    rw [Except.ok.injEq, ← UInt64.toNat_inj, UInt64.toNat_add, Nat.mod_eq_of_lt (by omega)]
    exact eq_comm

theorem coverChunks_ok (shards : List ShardInfo) (first stop : UInt64) :
    coverChunks shards first = .ok stop ↔ Covers shards first.toNat stop.toNat := by
  induction shards generalizing first with
  | nil =>
    rw [coverChunks, Except.ok.injEq, Covers, UInt64.toNat_inj]
  | cons shard shards ih =>
    rw [coverChunks, Result.bind_eq_ok, Covers]
    constructor
    · rintro ⟨next, range, rest⟩
      rw [checkedRangeEnd_ok] at range
      split at rest
      · cases rest
      · rename_i same
        rw [not_not] at same
        rw [ih, range, same] at rest
        exact ⟨congrArg UInt64.toNat same, rest⟩
    · rintro ⟨same, rest⟩
      have fits : first.toNat + shard.chunkCount.toNat < 2 ^ 64 :=
        Nat.lt_of_le_of_lt rest.le stop.toNat_lt
      have next : (first + shard.chunkCount).toNat = first.toNat + shard.chunkCount.toNat := by
        rw [UInt64.toNat_add, Nat.mod_eq_of_lt fits]
      rw [UInt64.toNat_inj] at same
      refine ⟨first + shard.chunkCount, (checkedRangeEnd_ok ..).mpr (by rw [next, same]), ?_⟩
      rw [if_neg (not_not_intro same), ih, next]
      exact rest

structure ShardInfo.Accepted (shard : ShardInfo) : Prop where
  globalHeader : ∃ bytes, parseGlobalPublicHeader bytes = .ok shard.globalHeader
  shardHeader : ∃ bytes, parseShardPublicHeader bytes = .ok shard.shardHeader

/-- An ordered shard set that is one archive of `total` chunks. -/
structure ShardSet (shards : List ShardInfo) (total : UInt64) : Prop where
  nonempty : shards ≠ []
  indices : shards.map (fun s => s.shardIndex.toNat) = List.range shards.length
  checks : ∀ s ∈ shards, ∀ front ∈ shards, ShardChecks hmacSha256 validation authKey
    (serializeGlobalPublicHeader front.globalHeader) (shards.length == 1) s
  shardCount : ∀ s ∈ shards, s.globalHeader.shardCount.toNat = shards.length
  globalChunkCount : ∀ s ∈ shards, s.globalHeader.globalChunkCount = total
  covers : Covers shards 0 total.toNat

theorem eq_of_perm_of_map_eq {α β : Type} (key : α → β) {l l' : List α} (perm : l.Perm l')
    (same : l.map key = l'.map key) (nodup : (l.map key).Nodup) : l = l' := by
  refine List.ext_getElem perm.length_eq fun i left right => ?_
  have keys : key l[i] = key l'[i] := by
    have := List.getElem_of_eq same (by simpa using left)
    simpa using this
  exact List.inj_on_of_nodup_map nodup (List.getElem_mem left)
    (perm.mem_iff.mpr (List.getElem_mem right)) keys

/-- Distinct indices that reach every number below their count are those numbers; sorting the
shards puts them in order. -/
theorem sorted_indices {shards : List ShardInfo}
    (nodup : (shards.map ShardInfo.shardIndex).Nodup)
    (full : ∀ i < shards.length, UInt32.ofNat i ∈ shards.map ShardInfo.shardIndex)
    (small : shards.length < 2 ^ 32) :
    (shards.insertionSort ShardInfo.Before).map (fun s => s.shardIndex.toNat) =
      List.range shards.length := by
  have key : ∀ l : List ShardInfo, l.map (fun s => s.shardIndex.toNat) =
      (l.map ShardInfo.shardIndex).map UInt32.toNat := fun l => by rw [List.map_map]; rfl
  have distinct : (shards.map fun s => s.shardIndex.toNat).Nodup := by
    rw [key]
    exact nodup.map (fun a b same => UInt32.toNat_inj.mp same)
  have within : List.range shards.length ⊆ shards.map fun s => s.shardIndex.toNat := by
    intro i member
    have below := List.mem_range.mp member
    rw [key]
    have image : (UInt32.ofNat i).toNat ∈ (shards.map ShardInfo.shardIndex).map UInt32.toNat :=
      List.mem_map_of_mem (full i below)
    rwa [UInt32.toNat_ofNat_of_lt' (by simp only [UInt32.size]; omega)] at image
  have perm : (List.range shards.length).Perm (shards.map fun s => s.shardIndex.toNat) :=
    (List.subperm_of_subset List.nodup_range within).perm_of_length_le (by simp)
  have sorted := List.pairwise_insertionSort ShardInfo.Before shards
  refine @List.Perm.eq_of_pairwise _ (· ≤ ·) _ _ (fun _ _ _ _ => Nat.le_antisymm) ?_ ?_
    (((List.perm_insertionSort ..).map _).trans perm.symm)
  · rw [List.pairwise_map]
    exact sorted.imp fun before => UInt32.le_iff_toNat_le.mp before
  · exact List.pairwise_le_range

theorem ShardSet.nodup {shards : List ShardInfo} {total : UInt64}
    (set : ShardSet hmacSha256 validation authKey shards total) :
    (shards.map ShardInfo.shardIndex).Nodup := by
  have nodup : ((shards.map ShardInfo.shardIndex).map UInt32.toNat).Nodup := by
    rw [List.map_map,
      show UInt32.toNat ∘ ShardInfo.shardIndex = fun s => s.shardIndex.toNat from rfl,
      set.indices]
    exact List.nodup_range
  exact nodup.of_map _

theorem ShardInfoRules.accepted {blake3 : Bytes → Bytes32} {path content : Bytes}
    {shard : ShardInfo} (rules : ShardInfoRules blake3 path content shard) : shard.Accepted :=
  ⟨⟨_, parseGlobalPublicHeader_serialize _ [] rules.globalMagic rules.globalRules⟩,
    ⟨_, (parseShardPublicHeader_ok _ _).mpr
      ⟨⟨rules.shardMagic, rules.shardRules⟩, [], List.append_nil _⟩⟩⟩

theorem ShardInfo.Accepted.globalHeader_eq {a b : ShardInfo} (left : a.Accepted)
    (right : b.Accepted)
    (same : serializeGlobalPublicHeader a.globalHeader =
      serializeGlobalPublicHeader b.globalHeader) : a.globalHeader = b.globalHeader := by
  obtain ⟨_, parsedA⟩ := left.globalHeader
  obtain ⟨_, parsedB⟩ := right.globalHeader
  obtain ⟨magicA, rulesA, -⟩ := (parseGlobalPublicHeader_ok _ _).mp parsedA
  obtain ⟨magicB, rulesB, -⟩ := (parseGlobalPublicHeader_ok _ _).mp parsedB
  have first := parseGlobalPublicHeader_serialize a.globalHeader [] magicA rulesA
  have second := parseGlobalPublicHeader_serialize b.globalHeader [] magicB rulesB
  rw [same, second] at first
  exact (Except.ok.inj first).symm

/-- A shard set is accepted exactly when some order of it is one archive; that order is stored. -/
theorem validateShards_ok (shards sorted : List ShardInfo) (total : UInt64)
    (accepted : ∀ s ∈ shards, s.Accepted) :
    validateShards hmacSha256 validation authKey shards = .ok (sorted, total) ↔
      sorted.Perm shards ∧ ShardSet hmacSha256 validation authKey sorted total := by
  cases shards with
  | nil =>
    rw [validateShards]
    constructor
    · intro failed
      cases failed
    · rintro ⟨perm, set⟩
      exact absurd (List.perm_nil.mp perm) set.nonempty
  | cons front rest =>
    have alone : rest.isEmpty = ((front :: rest).length == 1) := by
      cases rest <;> simp
    have atFront : front ∈ front :: rest := List.mem_cons_self
    rw [validateShards, Result.bind_eq_ok]
    simp only [validateEach_ok]
    constructor
    · rintro ⟨seen, ⟨checks, nodup, -, rfl⟩, counted⟩
      split at counted
      · cases counted
      rename_i count
      rw [not_not] at count
      obtain ⟨_, present, counted⟩ := (Result.bind_eq_ok ..).mp counted
      obtain ⟨covered, covers, counted⟩ := (Result.bind_eq_ok ..).mp counted
      split at counted
      · cases counted
      rename_i complete
      rw [not_not] at complete
      cases counted
      rw [requireIndices_ok, ← count] at present
      rw [coverChunks_ok, complete] at covers
      have perm := List.perm_insertionSort ShardInfo.Before (front :: rest)
      have header : ∀ s ∈ front :: rest, s.globalHeader = front.globalHeader := fun s member =>
        (accepted s member).globalHeader_eq (accepted front atFront) (checks s member).globalHeader
      have small : (front :: rest).length < 2 ^ 32 := by
        rw [count]
        exact front.globalHeader.shardCount.toNat_lt
      refine ⟨perm, List.ne_nil_of_mem (perm.mem_iff.mpr atFront), ?_, ?_, ?_, ?_, covers⟩
      · rw [perm.length_eq]
        exact sorted_indices nodup (fun i below => by simpa [or_comm] using present i below) small
      · intro s member other second
        rw [perm.length_eq, header other (perm.mem_iff.mp second), ← alone]
        exact checks s (perm.mem_iff.mp member)
      · intro s member
        rw [perm.length_eq, header s (perm.mem_iff.mp member), count]
      · intro s member
        rw [header s (perm.mem_iff.mp member)]
    · rintro ⟨perm, set⟩
      have atFront' : front ∈ sorted := perm.mem_iff.mpr atFront
      have nodup : ((front :: rest).map ShardInfo.shardIndex).Nodup :=
        (perm.map _).nodup_iff.mp (set.nodup ..)
      have count : (front :: rest).length = front.globalHeader.shardCount.toNat := by
        rw [set.shardCount front atFront', perm.length_eq]
      have full : ∀ i < (front :: rest).length,
          UInt32.ofNat i ∈ (front :: rest).map ShardInfo.shardIndex := by
        intro i below
        have listed : i ∈ sorted.map fun s => s.shardIndex.toNat := by
          rw [set.indices, List.mem_range, perm.length_eq]
          exact below
        obtain ⟨s, member, rfl⟩ := List.mem_map.mp listed
        rw [UInt32.ofNat_toNat]
        exact List.mem_map_of_mem (perm.mem_iff.mp member)
      have small : (front :: rest).length < 2 ^ 32 := by
        rw [count]
        exact front.globalHeader.shardCount.toNat_lt
      have stored : (front :: rest).insertionSort ShardInfo.Before = sorted := by
        have indices := sorted_indices nodup full small
        refine eq_of_perm_of_map_eq (fun s => s.shardIndex.toNat)
          ((List.perm_insertionSort ..).trans perm.symm) ?_ ?_
        · rw [indices, set.indices, perm.length_eq]
        · rw [indices]
          exact List.nodup_range
      have present : requireIndices ((front :: rest).map ShardInfo.shardIndex).reverse
          front.globalHeader.shardCount = .ok () := by
        rw [requireIndices_ok, ← count]
        exact fun i below => List.mem_reverse.mpr (full i below)
      have covered : coverChunks sorted 0 = .ok total := (coverChunks_ok ..).mpr set.covers
      refine ⟨_, ⟨fun s member => ?_, nodup, fun s _ => List.not_mem_nil, rfl⟩, ?_⟩
      · rw [alone, ← perm.length_eq]
        exact set.checks s (perm.mem_iff.mpr member) front atFront'
      · rw [if_neg (not_not_intro count), List.append_nil, present, Result.ok_bind, stored, covered,
          Result.ok_bind, set.globalChunkCount front atFront', if_neg (not_not_intro rfl)]
        rfl

/-- The chunk ranges, over the naturals, part `[0, total)` in the order of the list. -/
structure ChunkPartition (shards : List ShardInfo) (total : Nat) : Prop where
  nonempty : ∀ s ∈ shards, 0 < s.chunkCount.toNat
  ordered : shards.Pairwise fun a b =>
    a.firstChunkIndex.toNat + a.chunkCount.toNat ≤ b.firstChunkIndex.toNat
  covered : ∀ i, i < total ↔ ∃ s ∈ shards, s.firstChunkIndex.toNat ≤ i ∧
    i < s.firstChunkIndex.toNat + s.chunkCount.toNat

theorem Covers.first_le {shards : List ShardInfo} {first stop : Nat}
    (covers : Covers shards first stop) : ∀ s ∈ shards, first ≤ s.firstChunkIndex.toNat := by
  induction shards generalizing first with
  | nil => exact fun s member => absurd member List.not_mem_nil
  | cons shard shards ih =>
    intro s member
    rcases List.mem_cons.mp member with rfl | later
    · exact covers.1.ge
    · have := ih covers.2 s later
      omega

theorem Covers.ordered {shards : List ShardInfo} {first stop : Nat}
    (covers : Covers shards first stop) : shards.Pairwise fun a b =>
      a.firstChunkIndex.toNat + a.chunkCount.toNat ≤ b.firstChunkIndex.toNat := by
  induction shards generalizing first with
  | nil => exact List.Pairwise.nil
  | cons shard shards ih =>
    refine List.pairwise_cons.mpr ⟨fun s member => ?_, ih covers.2⟩
    rw [covers.1]
    exact covers.2.first_le s member

theorem Covers.covered {shards : List ShardInfo} {first stop : Nat}
    (covers : Covers shards first stop) (i : Nat) : (first ≤ i ∧ i < stop) ↔
      ∃ s ∈ shards, s.firstChunkIndex.toNat ≤ i ∧
        i < s.firstChunkIndex.toNat + s.chunkCount.toNat := by
  induction shards generalizing first with
  | nil =>
    simp only [Covers] at covers
    simp only [List.not_mem_nil, false_and, exists_false, iff_false]
    omega
  | cons shard shards ih =>
    have tail := covers.2.le
    rw [List.exists_mem_cons_iff, ← ih covers.2, covers.1]
    omega

theorem ShardSet.partition {shards : List ShardInfo} {total : UInt64}
    (set : ShardSet hmacSha256 validation authKey shards total)
    (accepted : ∀ s ∈ shards, s.Accepted) : ChunkPartition shards total.toNat := by
  refine ⟨fun s member => ?_, set.covers.ordered, fun i => ?_⟩
  · obtain ⟨_, parsed⟩ := (accepted s member).shardHeader
    exact u64_pos ((parseShardPublicHeader_ok _ _).mp parsed).1.2.shardChunkCount
  · rw [← set.covers.covered i]
    omega

/-- An accepted shard set is one archive in index order, whatever order it came in. -/
theorem validateShards_partition (shards : List ShardInfo) (accepted : ∀ s ∈ shards, s.Accepted) :
    (∀ sorted total,
      validateShards hmacSha256 validation authKey shards = .ok (sorted, total) →
        sorted.Perm shards ∧ sorted ≠ [] ∧
        (∀ s ∈ sorted, sorted.map (fun s => s.shardIndex.toNat) =
          List.range s.globalHeader.shardCount.toNat) ∧
        (∀ s ∈ sorted, ∀ t ∈ sorted, serializeGlobalPublicHeader s.globalHeader =
          serializeGlobalPublicHeader t.globalHeader) ∧
        (∀ s ∈ sorted, s.globalHeader.globalChunkCount = total) ∧
        ChunkPartition sorted total.toNat) ∧
      ∀ other : List ShardInfo, other.Perm shards → ∀ outcome,
        validateShards hmacSha256 validation authKey other = .ok outcome ↔
          validateShards hmacSha256 validation authKey shards = .ok outcome := by
  constructor
  · intro sorted total passed
    obtain ⟨perm, set⟩ := (validateShards_ok _ _ _ _ _ _ accepted).mp passed
    have accepted' : ∀ s ∈ sorted, s.Accepted := fun s member => accepted s (perm.mem_iff.mp member)
    refine ⟨perm, set.nonempty, fun s member => ?_, fun s left t right => ?_,
      set.globalChunkCount, set.partition _ _ _ accepted'⟩
    · rw [set.shardCount s member, set.indices]
    · exact (set.checks s left t right).globalHeader
  · rintro other perm ⟨sorted, total⟩
    rw [validateShards_ok _ _ _ _ _ _ accepted,
      validateShards_ok _ _ _ _ _ _ fun s member => accepted s (perm.mem_iff.mp member)]
    constructor
    · rintro ⟨sorting, set⟩
      exact ⟨sorting.trans perm, set⟩
    · rintro ⟨sorting, set⟩
      exact ⟨sorting.trans perm.symm, set⟩

end Validate

def twoChunkHeader : GlobalPublicHeaderV1 :=
  { fiveByteHeader 2 with shardCount := 2, paddedPlaintextSize := 65541 }

def oneChunkShard (index : UInt32) (payload : UInt64) : ShardInfo where
  path := [97 + index.toUInt8]
  globalHeader := twoChunkHeader
  shardHeader := ⟨kShardHeaderV1Magic, 80, index, index.toUInt64, 1, payload, zeroMac, 0⟩
  publicHeaderHash := zeroMac
  fileSize := kPayloadOffset + payload

def twoChunkShards : List ShardInfo := [oneChunkShard 1 61, oneChunkShard 0 65592]

theorem twoChunkShards_accepted : ∀ s ∈ twoChunkShards, s.Accepted := by
  have header : parseGlobalPublicHeader (serializeGlobalPublicHeader twoChunkHeader) =
      .ok twoChunkHeader := by decide +kernel
  have one : (1 : UInt64) ≠ 0 := by decide
  have accepted : ∀ index payload, payload ≠ 0 → (oneChunkShard index payload).Accepted :=
    fun index payload nonzero => ⟨⟨_, header⟩,
      ⟨_, (parseShardPublicHeader_ok _ _).mpr ⟨⟨rfl, rfl, one, nonzero, rfl⟩, [], rfl⟩⟩⟩
  simp only [twoChunkShards, List.forall_mem_cons]
  exact ⟨accepted _ _ (by decide), accepted _ _ (by decide),
    fun _ none => absurd none List.not_mem_nil⟩

/-- The later shard first: the set is accepted and stored in index order. -/
theorem validateShards_partition_twoChunks :
    (∃ sorted, validateShards (fun _ _ => zeroMac) ⟨none, none, none, none⟩ [] twoChunkShards =
        .ok (sorted, 2) ∧ sorted.map ShardInfo.shardIndex = [0, 1] ∧ ChunkPartition sorted 2) ∧
      ∀ outcome, validateShards (fun _ _ => zeroMac) ⟨none, none, none, none⟩ []
          twoChunkShards.reverse = .ok outcome ↔
        validateShards (fun _ _ => zeroMac) ⟨none, none, none, none⟩ [] twoChunkShards =
          .ok outcome := by
  obtain ⟨one, any⟩ := validateShards_partition (fun _ _ => zeroMac) ⟨none, none, none, none⟩ []
    twoChunkShards twoChunkShards_accepted
  have passed : (validateShards (fun _ _ => zeroMac) ⟨none, none, none, none⟩ []
      twoChunkShards).map (fun set => (set.1.map ShardInfo.shardIndex, set.2)) =
        .ok ([0, 1], 2) := by decide +kernel
  refine ⟨?_, fun outcome => any _ (List.reverse_perm _) outcome⟩
  cases validated : validateShards (fun _ _ => zeroMac) ⟨none, none, none, none⟩ []
      twoChunkShards with
  | error e =>
    rw [validated] at passed
    cases passed
  | ok set =>
    rw [validated] at passed
    obtain ⟨indices, total⟩ := Prod.mk.inj (Except.ok.inj passed)
    have found := one set.1 set.2 validated
    rw [total] at found
    exact ⟨set.1, by rw [← total], indices, found.2.2.2.2.2⟩

end Bseal.Io
