import Bseal.Archive.FileStream

/-! The size planned for the stream, and what the stream comes to. -/
namespace Bseal.Archive
open Effect FileTree

def recordsSize (records : List ArchiveRecord) : Nat :=
  ((records.map serializeRecord).map List.length).sum

theorem recordsSize_cons (r : ArchiveRecord) (records : List ArchiveRecord) :
    recordsSize (r :: records) = kRecordPrefixSize + r.payload.length + recordsSize records := by
  unfold recordsSize
  rw [List.map_cons, List.map_cons, List.sum_cons, serializeRecord_length]

theorem recordsSize_append (front back : List ArchiveRecord) :
    recordsSize (front ++ back) = recordsSize front + recordsSize back := by
  unfold recordsSize
  rw [List.map_append, List.map_append, List.sum_append]

theorem recordsSize_fileBytes (body : List Bytes) :
    recordsSize (body.map (⟨.fileBytes, ·⟩)) =
      body.length * kRecordPrefixSize + (body.map List.length).sum := by
  induction body with
  | nil => rfl
  | cons p body ih =>
    rw [List.map_cons, recordsSize_cons, ih, List.length_cons, List.map_cons, List.sum_cons]
    ring

theorem Blocks.length_eq {size : Nat} (pos : 0 < size) {s : StreamState} {body : List Bytes}
    (blocks : Blocks size s body) :
    body.length = ((body.map List.length).sum + size - 1) / size := by
  induction blocks with
  | done => exact (Nat.div_eq_of_lt (by rw [List.map_nil, List.sum_nil]; omega)).symm
  | @full p rest len _ ih =>
    rw [List.length_cons, List.map_cons, List.sum_cons, len, ih]
    have split : size + (rest.map List.length).sum + size - 1 =
        (rest.map List.length).sum + size - 1 + size := by omega
    rw [split, Nat.add_div_right _ pos]
  | @last p some short =>
    have len := List.length_pos_iff.mpr some
    rw [List.map_singleton, List.sum_singleton, List.length_singleton]
    refine (Nat.div_eq_of_lt_le ?_ ?_).symm
    · omega
    · omega

theorem metadataFor_size {w : ArchiveWriter} {t : SourceTree} {e : DirectoryEntry}
    {m : EntryMetadata} (found : w.metadataFor t e = .ok m) : m.originalSize.toNat < 2 ^ 63 := by
  obtain ⟨names, x, -, -, -, made⟩ := (w.metadataFor_ok t e m).mp found
  rcases x with stat | ⟨stat, content | _⟩ | target
  · cases made
    exact Nat.two_pow_pos 63
  · cases made
    have small := content.2
    rw [UInt64.toNat_ofNat', Nat.mod_eq_of_lt (by omega)]
    exact small
  · cases made
  · cases made
    exact Nat.two_pow_pos 63

def entrySize (w : ArchiveWriter) (t : SourceTree) (e : DirectoryEntry) : Nat :=
  if w.Skips e then 0
  else
    match w.metadataFor t e with
    | .error _ => 0
    | .ok m =>
      let size := m.originalSize.toNat
      let head := kRecordPrefixSize +
        (encodeEntryMetadata { m with relativePath := genericString m.relativePath }).length
      if e.type = .regular then
        let blocks := (size + w.fileBytesPayloadSize - 1) / w.fileBytesPayloadSize
        head + (blocks * kRecordPrefixSize + size) + kRecordPrefixSize
      else head

/-- What the whole stream comes to, by the metadata of the entries in `t`. -/
def streamSize (w : ArchiveWriter) (t : SourceTree) : Nat :=
  kRecordPrefixSize + 4 + (w.entries.map (entrySize w t)).sum + kRecordPrefixSize

section Plan
variable {P : Moment → Prop} {w : ArchiveWriter} {t : SourceTree}

def Unchanged (w : ArchiveWriter) (t : SourceTree) (now : Moment) : Prop :=
  ∀ e ∈ w.entries, w.metadataFor now.tree e = w.metadataFor t e

theorem blockSize_toNat (w : ArchiveWriter) (size : w.fileBytesPayloadSize ≤ 1024 * 1024) :
    w.blockSize.toNat = w.fileBytesPayloadSize := by
  rw [ArchiveWriter.blockSize, UInt64.toNat_ofNat', Nat.mod_eq_of_lt (by omega)]

theorem records_of_file (w : ArchiveWriter) (pos : 0 < w.fileBytesPayloadSize)
    (size : w.fileBytesPayloadSize ≤ 1024 * 1024) (fileSize : UInt64)
    (small : fileSize.toNat < 2 ^ 63) {body : List Bytes}
    (blocks : Blocks w.fileBytesPayloadSize .good body)
    (total : (body.map List.length).sum = fileSize.toNat) :
    (fileSize + w.blockSize - 1) / w.blockSize = .ofNat body.length := by
  have block := blockSize_toNat w size
  have few : body.length < 2 ^ 64 := by
    rw [blocks.length_eq pos, total]
    exact Nat.lt_of_le_of_lt (Nat.div_le_self _ _) (by omega)
  refine UInt64.toNat.inj ?_
  rw [UInt64.toNat_div, UInt64.toNat_sub_of_le, UInt64.toNat_add, block,
    Nat.mod_eq_of_lt (by omega), UInt64.toNat_ofNat', Nat.mod_eq_of_lt few, blocks.length_eq pos,
    total]
  · rfl
  · rw [UInt64.le_iff_toNat_le, UInt64.toNat_add, block, Nat.mod_eq_of_lt (by omega)]
    change 1 ≤ _
    omega

theorem recordsSize_of_emits (pos : 0 < w.fileBytesPayloadSize) {e : DirectoryEntry}
    (same : ∀ now, P now → w.metadataFor now.tree e = w.metadataFor t e)
    {records : List ArchiveRecord} (emits : Emits P w e records) :
    recordsSize records = entrySize w t e := by
  unfold entrySize
  cases emits with
  | skipped skips => rw [if_pos skips]; rfl
  | single gives leaf at_ found coded =>
    rw [same _ at_] at found
    obtain ⟨-, -, rfl⟩ := (serializeEntryMetadata_ok _ _).mp coded
    rw [if_neg gives, found]
    simp only
    rw [if_neg leaf, recordsSize_cons]
    rfl
  | file isFile at_ found coded blocks total content =>
    have gives : ¬w.Skips e := by
      rintro (special | ⟨link, -⟩)
      · rw [isFile] at special
        cases special
      · rw [isFile] at link
        cases link
    rw [same _ at_] at found
    obtain ⟨-, -, rfl⟩ := (serializeEntryMetadata_ok _ _).mp coded
    rw [if_neg gives, found]
    simp only
    rw [if_pos isFile, fileRecords, recordsSize_cons, recordsSize_append, recordsSize_fileBytes,
      blocks.length_eq pos, total, recordsSize_cons]
    exact (Nat.add_assoc _ _ _).symm

theorem recordsSize_of_all (pos : 0 < w.fileBytesPayloadSize) {entries : List DirectoryEntry}
    {contents : List (List ArchiveRecord)} (all : List.Forall₂ (Emits P w) entries contents)
    (same : ∀ now, P now → ∀ e ∈ entries, w.metadataFor now.tree e = w.metadataFor t e) :
    recordsSize contents.flatten = (entries.map (entrySize w t)).sum := by
  induction all with
  | nil => rfl
  | @cons e records entries contents emits _ ih =>
    rw [List.flatten_cons, recordsSize_append, List.map_cons, List.sum_cons,
      recordsSize_of_emits pos (fun now at_ => same now at_ e List.mem_cons_self) emits,
      ih fun now at_ e' member => same now at_ e' (List.mem_cons_of_mem e member)]

theorem recordsSize_of_wholeStream (pos : 0 < w.fileBytesPayloadSize)
    (same : ∀ now, P now → Unchanged w t now) {records : List ArchiveRecord}
    (whole : WholeStream P w records) : recordsSize records = streamSize w t := by
  obtain ⟨contents, all, rfl⟩ := whole
  rw [recordsSize_cons, recordsSize_append, recordsSize_of_all pos all same, recordsSize_cons,
    ByteCodec.toLE_length, streamSize, ← Nat.add_assoc]
  rfl

theorem planEntry_of_emits (pos : 0 < w.fileBytesPayloadSize)
    (size : w.fileBytesPayloadSize ≤ 1024 * 1024) {e : DirectoryEntry}
    (same : ∀ now, P now → w.metadataFor now.tree e = w.metadataFor t e)
    {records : List ArchiveRecord} (emits : Emits P w e records) (total : UInt64) :
    w.planEntry t total e = .ok (total + .ofNat (recordsSize records)) := by
  have none : total + UInt64.ofNat (recordsSize []) = total := UInt64.add_zero total
  have one : ∀ (type : RecordType) (payload : Bytes), total + UInt64.ofNat
      (recordsSize [⟨type, payload⟩]) =
        total + (UInt64.ofNat kRecordPrefixSize + UInt64.ofNat payload.length) := by
    intro type payload
    rw [recordsSize_cons, show recordsSize [] = 0 from rfl, Nat.add_zero, UInt64.ofNat_add]
  cases emits with
  | skipped skips =>
    rw [none]
    rcases skips with special | ⟨link, leftOut⟩
    · rw [ArchiveWriter.planEntry, special]
    · rw [ArchiveWriter.planEntry, link]
      exact if_pos leftOut
  | @single now m payload gives leaf at_ found coded =>
    rw [same now at_] at found
    rw [one]
    rcases kind : e.type with _ | _ | _ | _
    · simp only [ArchiveWriter.planEntry, kind, found, coded, Result.ok_bind]
      rfl
    · exact absurd kind leaf
    · have included : ¬w.options.includeSymlinks = false :=
        fun leftOut => gives (.inr ⟨kind, leftOut⟩)
      simp only [ArchiveWriter.planEntry, kind, found, coded, if_neg included, Result.ok_bind]
      rfl
    · exact absurd (.inl kind) gives
  | @file now m payload body isFile at_ found coded blocks bytes content =>
    rw [same now at_] at found
    have small := metadataFor_size found
    have count := records_of_file w pos size m.originalSize small blocks bytes
    have whole : UInt64.ofNat (recordsSize (fileRecords payload body)) =
        UInt64.ofNat kRecordPrefixSize + UInt64.ofNat payload.length +
          (UInt64.ofNat body.length * UInt64.ofNat kRecordPrefixSize + m.originalSize) +
          UInt64.ofNat kRecordPrefixSize := by
      rw [fileRecords, recordsSize_cons, recordsSize_append, recordsSize_fileBytes, bytes,
        recordsSize_cons, show recordsSize [] = 0 from rfl]
      simp only [List.length_nil, Nat.add_zero, UInt64.ofNat_add, UInt64.ofNat_mul,
        UInt64.ofNat_toNat, UInt64.add_assoc]
    simp only [ArchiveWriter.planEntry, isFile, found, coded, Result.ok_bind]
    rw [whole, count]
    by_cases empty : m.originalSize > 0
    · rw [if_pos empty]
      simp only [UInt64.add_assoc]
      rfl
    · have zero : m.originalSize = 0 := by
        refine UInt64.toNat.inj ?_
        have : ¬0 < m.originalSize.toNat := empty
        change m.originalSize.toNat = 0
        omega
      have nothing : body.length = 0 := by
        rw [blocks.length_eq pos, bytes, zero]
        exact Nat.div_eq_of_lt (by change 0 + _ - 1 < _; omega)
      rw [if_neg empty, nothing, zero, show UInt64.ofNat 0 = 0 from rfl, UInt64.zero_mul,
        UInt64.add_zero, UInt64.add_zero]
      simp only [UInt64.add_assoc]
      rfl

theorem planEntries_of_emits (pos : 0 < w.fileBytesPayloadSize)
    (size : w.fileBytesPayloadSize ≤ 1024 * 1024) {entries : List DirectoryEntry}
    {contents : List (List ArchiveRecord)} (all : List.Forall₂ (Emits P w) entries contents)
    (same : ∀ now, P now → ∀ e ∈ entries, w.metadataFor now.tree e = w.metadataFor t e)
    (total : UInt64) :
    w.planEntries t total entries = .ok (total + .ofNat (recordsSize contents.flatten)) := by
  induction all generalizing total with
  | nil =>
    rw [ArchiveWriter.planEntries]
    exact congrArg Except.ok (UInt64.add_zero total).symm
  | @cons e records entries contents emits _ ih =>
    rw [ArchiveWriter.planEntries, planEntry_of_emits pos size
      (fun now at_ => same now at_ e List.mem_cons_self) emits, Result.ok_bind,
      ih fun now at_ e' member => same now at_ e' (List.mem_cons_of_mem e member),
      List.flatten_cons, recordsSize_append, UInt64.ofNat_add, UInt64.add_assoc]

theorem planned_of_wholeStream (pos : 0 < w.fileBytesPayloadSize)
    (size : w.fileBytesPayloadSize ≤ 1024 * 1024) (same : ∀ now, P now → Unchanged w t now)
    {records : List ArchiveRecord} (whole : WholeStream P w records) :
    w.planPlaintextSize t = .ok (.ofNat (recordsSize records)) := by
  obtain ⟨contents, all, rfl⟩ := whole
  rw [ArchiveWriter.planPlaintextSize, planEntries_of_emits pos size all same, Result.ok_bind,
    recordsSize_cons, recordsSize_append, recordsSize_cons, show recordsSize [] = 0 from rfl]
  simp only [List.length_nil, Nat.add_zero, UInt64.ofNat_add, UInt64.add_assoc]
  rfl

end Plan

def Planned (w : ArchiveWriter) (t : SourceTree) (out : List Bytes) (w' : ArchiveWriter) : Prop :=
  ∃ size, w.planPlaintextSize t = .ok size ∧ size.toNat = (out.map List.length).sum ∧
    w'.bytesProduced.toNat = (out.map List.length).sum

/-- The open file is read to an exception, or to a `FileEnd` after as many bytes as its `FileEntry`
declares; of a content that stays the same from the `FileEntry` on these are all. -/
def EndsAsDeclared (moments : Nat → Moment) (out : List Bytes) (w : ArchiveWriter) : Prop :=
  ∃ (front : List Bytes) (m : EntryMetadata) (payload : Bytes) (sent body : List Bytes)
    (w₁ : ArchiveWriter),
    out = front ++ makeRecord .fileEntry payload :: sent.map (makeRecord .fileBytes) ∧
    serializeEntryMetadata m = .ok payload ∧
    Follows moments out.length w (body.map (makeRecord .fileBytes)) w₁ ∧
    (Throws (moments (out.length + body.length)) w₁ ∨
      (∃ w₂, exec (nextRecordBytes (moments (out.length + body.length))) w₁ =
        (.ok (some (makeRecord .fileEnd [])), w₂)) ∧
      ((sent ++ body).map List.length).sum = m.originalSize.toNat ∧
      ∀ content, (∀ i, front.length < i → (moments i).content w.currentFilePath = content) →
        content.length = m.originalSize.toNat)

theorem endsAsDeclared_of_follows {w w' : ArchiveWriter} (new : w.IsNew) {moments : Nat → Moment}
    {out : List Bytes} (follows : Follows moments 0 w out w') (opened : w'.currentFileOpen = true) :
    EndsAsDeclared moments out w' := by
  obtain ⟨⟨front, m, payload, sent, same, coded, declared, counted, reading⟩, begun⟩ :=
    openFile_of_follows new follows opened
  have late : front.length < out.length := by
    rw [same, List.length_append, List.length_cons]
    omega
  have size := (follows.continues ⟨rfl, rfl, rfl, rfl⟩).size
  obtain ⟨body, w₁, now, more, -, -, rfl, ends⟩ := file_streams (i := out.length)
    (fun j above => ⟨j, Nat.lt_of_lt_of_le late above, rfl⟩) (size ▸ new.size_pos) begun opened
    reading
  refine ⟨front, m, payload, sent, body, w₁, same, coded, more, ends.imp_right ?_⟩
  rintro ⟨closes, total, steady⟩
  rw [declared] at total steady
  refine ⟨⟨_, closes⟩, ?_, fun content stays => steady content ?_⟩
  · rw [List.map_append, List.sum_append, ← counted, total]
  · rintro moment ⟨i, after, rfl⟩
    exact stays i after

/-- The plan and the count are right as long as the entries come to less than 2⁶⁴ bytes: nothing
checks the additions. A file ends as it was declared, or with an exception. -/
theorem planned_size_iff_word {w : ArchiveWriter} (new : w.IsNew) (t : SourceTree)
    (moments : Nat → Moment) (out : List Bytes) (w' : ArchiveWriter)
    (follows : Follows moments 0 w out w') :
    (w'.emittedEnd = true → w'.trailingPaddingEmitted = false →
      (∃ records, out = records.map serializeRecord ∧ WholeStream (fun _ => True) w records) ∧
      ((∀ i, Unchanged w t (moments i)) →
        (Planned w t out w' ↔ streamSize w t < 2 ^ 64))) ∧
    (w'.currentFileOpen = true → EndsAsDeclared moments out w') := by
  refine ⟨fun ended unpadded => ⟨?_, fun unchanged => ?_⟩,
    endsAsDeclared_of_follows new follows⟩
  · exact wholeStream_of_follows (fun _ => trivial) new follows ended unpadded
  · obtain ⟨records, rfl, whole⟩ :=
      wholeStream_of_follows (P := Unchanged w t) unchanged new follows ended unpadded
    have plan := planned_of_wholeStream new.size_pos new.size_le (fun _ same => same) whole
    have produced := follows.bytesProduced
    rw [new.none, UInt64.zero_add] at produced
    change w'.bytesProduced = UInt64.ofNat (recordsSize records) at produced
    rw [← recordsSize_of_wholeStream new.size_pos (fun _ same => same) whole]
    constructor
    · rintro ⟨size, -, same, -⟩
      rw [show recordsSize records = size.toNat from same.symm]
      exact UInt64.toNat_lt size
    · intro small
      have word : (UInt64.ofNat (recordsSize records)).toNat = recordsSize records := by
        rw [UInt64.toNat_ofNat', Nat.mod_eq_of_lt small]
      exact ⟨_, plan, word, produced ▸ word⟩

def aFile : FileName := ⟨ascii "a", by decide⟩
def bFile : FileName := ⟨ascii "b", by decide⟩

theorem nodup_aFile_bFile : [aFile, bFile].Nodup := by decide

def smallOptions : ArchiveWriterOptions := ⟨[], 65536, true, true, false⟩

def twoFiles (content : FileContent) : SourceTree :=
  .flat ⟨0o755, none⟩ [(aFile, .file ⟨0o644, none⟩ (.regular content)),
    (bFile, .file ⟨0o644, none⟩ (.regular content))] nodup_aFile_bFile

def fileEntry (n : FileName) : DirectoryEntry := ⟨[n], .regular⟩

def twoFilesWriter : ArchiveWriter :=
  .initial smallOptions [] [fileEntry aFile, fileEntry bFile]

theorem construct_twoFiles (content : FileContent) :
    ArchiveWriter.construct (twoFiles content) smallOptions = .ok twoFilesWriter := rfl

theorem metadataFor_twoFiles (content : FileContent) (n : FileName) (one : n = aFile ∨ n = bFile) :
    twoFilesWriter.metadataFor (twoFiles content) (fileEntry n) =
      .ok ⟨.regularFile, n.1, .ofNat content.1.length, 0o644, ⟨0, none, none⟩, []⟩ := by
  rcases one with rfl | rfl <;> rfl

theorem streamable_twoFiles (content : FileContent) (n : FileName) (one : n = aFile ∨ n = bFile) :
    Streamable twoFilesWriter (atRest (twoFiles content)) (fileEntry n) := by
  have small := content.2
  refine .inr ⟨_, _, metadataFor_twoFiles content n one, 
    (serializeEntryMetadata_ok _ _).mpr ⟨?_, Nat.two_pow_pos 32, rfl⟩, fun _ => ?_⟩
  · change (genericString n.1).length < 2 ^ 32
    rcases one with rfl | rfl <;> decide
  · change _ = (UInt64.ofNat content.1.length).toNat
    rw [UInt64.toNat_ofNat', Nat.mod_eq_of_lt (by omega)]
    rcases one with rfl | rfl <;> rfl

def threeBytes : FileContent := ⟨[1, 2, 3], by decide⟩

theorem planned_size_iff_word_three :
    let run := emitted (atRest (twoFiles threeBytes)) 9 twoFilesWriter
    Planned twoFilesWriter (twoFiles threeBytes) run.1 run.2 := by
  have checked : (emitted (atRest (twoFiles threeBytes)) 9 twoFilesWriter).2.emittedEnd = true ∧
      (emitted (atRest (twoFiles threeBytes)) 9 twoFilesWriter).2.trailingPaddingEmitted = false ∧
      streamSize twoFilesWriter (twoFiles threeBytes) < 2 ^ 64 := by
    decide +kernel
  obtain ⟨ended, unpadded, small⟩ := checked
  have follows := follows_emitted (atRest (twoFiles threeBytes)) 9 0 twoFilesWriter
  exact (((planned_size_iff_word (initial_isNew _ _ _) (twoFiles threeBytes) _ _ _ follows).1 ended
    unpadded).2 fun _ _ _ => rfl).mpr small

theorem not_planned_of_large (content : FileContent) (large : 2 ^ 63 ≤ content.1.length + 1) :
    ∃ out w', Follows (fun _ => atRest (twoFiles content)) 0 twoFilesWriter out w' ∧
      w'.emittedEnd = true ∧ w'.trailingPaddingEmitted = false ∧
      ¬Planned twoFilesWriter (twoFiles content) out w' := by
  have new : twoFilesWriter.IsNew := initial_isNew _ _ _
  have all : ∀ e ∈ twoFilesWriter.entries,
      Streamable twoFilesWriter (atRest (twoFiles content)) e := by
    intro e member
    simp only [twoFilesWriter, ArchiveWriter.initial, List.mem_cons, List.not_mem_nil,
      or_false] at member
    rcases member with rfl | rfl
    · exact streamable_twoFiles content aFile (.inl rfl)
    · exact streamable_twoFiles content bFile (.inr rfl)
  obtain ⟨out, w', follows, ended, unpadded⟩ := new.completes (by rfl) (by rfl) all
  refine ⟨out, w', follows, ended, unpadded, fun planned => ?_⟩
  have small := (((planned_size_iff_word new (twoFiles content) _ _ _ follows).1 ended unpadded).2
    fun _ _ _ => rfl).mp planned
  have size : ∀ n, n = aFile ∨ n = bFile →
      content.1.length + 1 ≤ entrySize twoFilesWriter (twoFiles content) (fileEntry n) := by
    intro n one
    have gives : ¬twoFilesWriter.Skips (fileEntry n) := by
      rintro (special | ⟨link, -⟩)
      · cases special
      · cases link
    have bound := content.2
    rw [entrySize, if_neg gives, metadataFor_twoFiles content n one]
    simp only
    rw [if_pos (show (fileEntry n).type = .regular from rfl), UInt64.toNat_ofNat',
      Nat.mod_eq_of_lt (by omega)]
    have : 0 < kRecordPrefixSize := by decide
    omega
  have a := size aFile (.inl rfl)
  have b := size bFile (.inr rfl)
  have entries : twoFilesWriter.entries = [fileEntry aFile, fileEntry bFile] := rfl
  rw [streamSize, entries, List.map_cons, List.map_singleton, List.sum_cons,
    List.sum_singleton] at small
  omega

def zeros (n : Nat) : Bytes := List.replicate n 0

theorem zeros_length (n : Nat) : (zeros n).length = n := List.length_replicate

def longest : FileContent := ⟨zeros (2 ^ 63 - 1), by rw [zeros_length]; omega⟩

theorem longest_length : longest.1.length = 2 ^ 63 - 1 := zeros_length _

/-- Two such files come to more than a word. -/
theorem planned_size_wraps :
    ArchiveWriter.construct (twoFiles longest) smallOptions = .ok twoFilesWriter ∧
    ∃ out w', Follows (fun _ => atRest (twoFiles longest)) 0 twoFilesWriter out w' ∧
      w'.emittedEnd = true ∧ w'.trailingPaddingEmitted = false ∧
      ¬Planned twoFilesWriter (twoFiles longest) out w' := by
  have large : 2 ^ 63 ≤ longest.1.length + 1 := by
    rw [longest_length]
    omega
  exact ⟨construct_twoFiles longest, not_planned_of_large longest large⟩

end Bseal.Archive
