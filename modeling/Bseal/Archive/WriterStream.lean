import Bseal.Archive.ArchiveWriter

/-! What a whole stream of the writer consists of: for each entry the records it gives, a file's
bytes in blocks that are full but for the last one, with as many bytes as its entry declares. -/
namespace Bseal.Archive
open Effect FileTree

def ArchiveWriter.Skips (w : ArchiveWriter) (e : DirectoryEntry) : Prop :=
  e.type = .special ∨ e.type = .symlink ∧ w.options.includeSymlinks = false

instance (w : ArchiveWriter) (e : DirectoryEntry) : Decidable (w.Skips e) :=
  inferInstanceAs (Decidable (_ ∨ _ ∧ _))

def EntryType.recordType : EntryType → RecordType
  | .directory => .directoryEntry
  | .regular => .fileEntry
  | .symlink => .symlinkEntry
  | .special => .randomPadding

namespace ArchiveWriter

def produced (w : ArchiveWriter) (bytes : Bytes) : ArchiveWriter :=
  { w with bytesProduced := w.bytesProduced + .ofNat bytes.length }

def opened (w : ArchiveWriter) (e : DirectoryEntry) (m : EntryMetadata) : ArchiveWriter :=
  { w with
    currentFileOpen := true
    position := 0
    stream := .good
    currentFilePath := e.path
    currentFileExpectedBytes := m.originalSize
    currentFileBytesRead := 0 }

def headed (w : ArchiveWriter) (e : DirectoryEntry) (m : EntryMetadata) : ArchiveWriter :=
  if e.type = .regular then w.opened e m else w

def advanced (w : ArchiveWriter) (count : Nat) : ArchiveWriter :=
  { w with entryIndex := w.entryIndex + count }

def block (w : ArchiveWriter) (now : Moment) : Bytes :=
  if w.stream ≠ .good ∨ now.readFails then []
  else ((now.content w.currentFilePath).drop w.position).take w.fileBytesPayloadSize

def afterRead (w : ArchiveWriter) (now : Moment) : StreamState :=
  if w.stream ≠ .good then w.stream
  else if now.readFails then .bad
  else if (w.block now).length < w.fileBytesPayloadSize then .eof
  else .good

def moved (w : ArchiveWriter) (now : Moment) : ArchiveWriter :=
  { w with
    position := w.position + (w.block now).length
    stream := w.afterRead now }

def readBlock (w : ArchiveWriter) (now : Moment) : ArchiveWriter :=
  { w.moved now with
    currentFileBytesRead := w.currentFileBytesRead + .ofNat (w.block now).length }

def closed (w : ArchiveWriter) (now : Moment) : ArchiveWriter :=
  { w.moved now with currentFileOpen := false }

end ArchiveWriter

section Calls
variable (now : Moment) (w w' : ArchiveWriter)

theorem exec_produce (bytes : Bytes) :
    exec (produce bytes) w = (.ok (some bytes), w.produced bytes) := rfl

theorem produce_ok (bytes : Bytes) (r : Option Bytes) :
    exec (produce bytes) w = (.ok r, w') ↔ r = some bytes ∧ w' = w.produced bytes := by
  rw [exec_produce]
  constructor
  · rintro ⟨⟩
    exact ⟨rfl, rfl⟩
  · rintro ⟨rfl, rfl⟩
    rfl

theorem entryRecord_ok (e : DirectoryEntry) (r : Option Bytes) :
    exec (entryRecord now e) w = (.ok r, w') ↔
      (w.Skips e ∧ r = none ∧ w' = w) ∨
      (¬w.Skips e ∧ (e.type = .regular → now.openFails = false) ∧
        ∃ m payload, w.metadataFor now.tree e = .ok m ∧ serializeEntryMetadata m = .ok payload ∧
        r = some (makeRecord e.type.recordType payload) ∧
        w' = (w.headed e m).produced (makeRecord e.type.recordType payload)) := by
  unfold entryRecord ArchiveWriter.Skips ArchiveWriter.headed
  rw [exec_get_bind]
  rcases kind : e.type with _ | _ | _ | _
  · simp [exec_lift_bind_ok, produce_ok, EntryType.recordType]
  · simp only [exec_lift_bind_ok, exec_throwIf_bind_ok, exec_bind_of_ok (exec_modify _ _),
      produce_ok, EntryType.recordType, reduceCtorEq, false_and, or_self, false_or,
      not_false_eq_true, true_and, forall_const, if_true, Bool.not_eq_true]
    constructor
    · rintro ⟨m, found, opens, payload, rest⟩
      exact ⟨opens, m, payload, found, rest⟩
    · rintro ⟨opens, m, payload, found, rest⟩
      exact ⟨m, found, opens, payload, rest⟩
  · by_cases links : w.options.includeSymlinks = false
    · simp only [links, exec_pure_ok, reduceCtorEq, false_or, and_self, true_and, if_true,
        not_true_eq_false, false_and, or_false]
      exact and_congr eq_comm eq_comm
    · simp [links, exec_lift_bind_ok, produce_ok, EntryType.recordType]
  · simp only [exec_pure_ok, true_or, true_and, not_true_eq_false, false_and, or_false]
    exact and_congr eq_comm eq_comm

theorem nextEntry_some (entries : List DirectoryEntry) (bytes : Bytes)
    (ran : exec (nextEntry now entries) w = (.ok (some bytes), w')) :
    ∃ skipped e rest, entries = skipped ++ e :: rest ∧ (∀ s ∈ skipped, w.Skips s) ∧
      exec (entryRecord now e) (w.advanced (skipped.length + 1)) = (.ok (some bytes), w') := by
  induction entries generalizing w with
  | nil => cases ran
  | cons e entries ih =>
    rw [nextEntry, exec_bind_of_ok (exec_modify _ w), exec_bind_ok] at ran
    obtain ⟨record, w₁, first, ran⟩ := ran
    cases record with
    | some found =>
      cases ran
      exact ⟨[], e, entries, rfl, fun s member => absurd member List.not_mem_nil, first⟩
    | none =>
      rcases (entryRecord_ok now _ w₁ e none).mp first with ⟨skips, -, rfl⟩ | ⟨-, -, m, p, h⟩
      · obtain ⟨skipped, e', rest, rfl, all, last⟩ := ih _ ran
        refine ⟨e :: skipped, e', rest, rfl, ?_, ?_⟩
        · intro s member
          rcases List.mem_cons.mp member with rfl | member
          · exact skips
          · exact all s member
        · rw [← last]
          congr 1
          simp only [ArchiveWriter.advanced, List.length_cons]
          congr 1
          omega
      · cases h.2.2.1

theorem nextEntry_none (entries : List DirectoryEntry)
    (ran : exec (nextEntry now entries) w = (.ok none, w')) :
    (∀ s ∈ entries, w.Skips s) ∧ w' = w.advanced entries.length := by
  induction entries generalizing w with
  | nil =>
    cases ran
    exact ⟨fun s member => absurd member List.not_mem_nil, rfl⟩
  | cons e entries ih =>
    rw [nextEntry, exec_bind_of_ok (exec_modify _ w), exec_bind_ok] at ran
    obtain ⟨record, w₁, first, ran⟩ := ran
    cases record with
    | some found => cases ran
    | none =>
      rcases (entryRecord_ok now _ w₁ e none).mp first with ⟨skips, -, rfl⟩ | ⟨-, -, m, p, h⟩
      · obtain ⟨all, rfl⟩ := ih _ ran
        constructor
        · intro s member
          rcases List.mem_cons.mp member with rfl | member
          · exact skips
          · exact all s member
        · simp only [ArchiveWriter.advanced, List.length_cons]
          congr 1
          omega
      · cases h.2.2.1

theorem nextFileBytesOrEnd_ok (r : Option Bytes) :
    exec (nextFileBytesOrEnd now) w = (.ok r, w') ↔
      (w.block now ≠ [] ∧ r = some (makeRecord .fileBytes (w.block now)) ∧
        w' = (w.readBlock now).produced (makeRecord .fileBytes (w.block now))) ∨
      (w.block now = [] ∧ w.afterRead now = .eof ∧
        w.currentFileBytesRead = w.currentFileExpectedBytes ∧
        r = some (makeRecord .fileEnd []) ∧
        w' = (w.closed now).produced (makeRecord .fileEnd [])) := by
  unfold nextFileBytesOrEnd
  rw [exec_get_bind]
  change exec (set (w.moved now) >>= fun _ => if (w.block now).length > 0 then _ else _) w = _ ↔ _
  rw [exec_bind_of_ok (exec_set _ _)]
  by_cases some : w.block now = []
  · rw [if_neg (by rw [some]; decide)]
    simp only [exec_throwIf_bind_ok, exec_bind_of_ok (exec_modify _ _), produce_ok, not_not, ne_eq,
      some, not_true_eq_false, false_and, false_or, true_and]
    rfl
  · rw [if_pos (List.length_pos_iff.mpr some), exec_bind_of_ok (exec_modify _ _), produce_ok]
    simp only [some, ne_eq, not_false_eq_true, true_and, false_and, or_false]
    rfl

theorem endOrPadding_some (bytes : Bytes)
    (ran : exec endOrPadding w = (.ok (some bytes), w')) :
    (w.emittedEnd = false ∧ bytes = makeRecord .archiveEnd [] ∧
      w' = ArchiveWriter.produced { w with emittedEnd := true } bytes) ∨
    (w.emittedEnd = true ∧ w.trailingPaddingRecord = some bytes ∧
      w.trailingPaddingEmitted = false ∧
      w' = ArchiveWriter.produced { w with trailingPaddingEmitted := true } bytes) := by
  rw [endOrPadding, exec_get_bind] at ran
  by_cases running : w.emittedEnd = false
  · rw [if_pos running] at ran
    cases ran
    exact .inl ⟨running, rfl, rfl⟩
  · rw [if_neg running] at ran
    have ended : w.emittedEnd = true := Bool.not_eq_false _ ▸ running
    rcases here : w.trailingPaddingRecord with _ | padding
    · rw [here] at ran
      cases ran
    · rw [here] at ran
      simp only at ran
      by_cases waits : w.trailingPaddingEmitted = false
      · rw [if_pos waits] at ran
        cases ran
        exact .inr ⟨ended, rfl, waits, rfl⟩
      · rw [if_neg waits] at ran
        cases ran

end Calls

def beginBytes : Bytes :=
  makeRecord .archiveBegin (ByteCodec.toLE 4 kArchiveFormatVersion.toNat)

/-- What a call that returns a record does, and when. -/
inductive Call (now : Moment) (w : ArchiveWriter) : Bytes → ArchiveWriter → Prop where
  | begin (fresh : w.emittedBegin = false) :
    Call now w beginBytes (ArchiveWriter.produced { w with emittedBegin := true } beginBytes)
  | block (begun : w.emittedBegin = true) (opened : w.currentFileOpen = true)
    (some : w.block now ≠ []) : Call now w (makeRecord .fileBytes (w.block now))
      ((w.readBlock now).produced (makeRecord .fileBytes (w.block now)))
  | fileEnd (begun : w.emittedBegin = true) (opened : w.currentFileOpen = true)
    (none : w.block now = []) (eof : w.afterRead now = .eof)
    (whole : w.currentFileBytesRead = w.currentFileExpectedBytes) :
    Call now w (makeRecord .fileEnd []) ((w.closed now).produced (makeRecord .fileEnd []))
  | entry (begun : w.emittedBegin = true) (closed : w.currentFileOpen = false)
    {skipped rest : List DirectoryEntry} {e : DirectoryEntry} {m : EntryMetadata} {payload : Bytes}
    (left : w.entries.drop w.entryIndex = skipped ++ e :: rest) (skips : ∀ s ∈ skipped, w.Skips s)
    (gives : ¬w.Skips e) (found : w.metadataFor now.tree e = .ok m)
    (coded : serializeEntryMetadata m = .ok payload) :
    Call now w (makeRecord e.type.recordType payload)
      (((w.advanced (skipped.length + 1)).headed e m).produced
        (makeRecord e.type.recordType payload))
  | archiveEnd (begun : w.emittedBegin = true) (closed : w.currentFileOpen = false)
    (skips : ∀ s ∈ w.entries.drop w.entryIndex, w.Skips s) (running : w.emittedEnd = false) :
    Call now w (makeRecord .archiveEnd []) (ArchiveWriter.produced
      { w.advanced (w.entries.drop w.entryIndex).length with emittedEnd := true }
      (makeRecord .archiveEnd []))
  | padding (begun : w.emittedBegin = true) (closed : w.currentFileOpen = false)
    (skips : ∀ s ∈ w.entries.drop w.entryIndex, w.Skips s) (ended : w.emittedEnd = true)
    {bytes : Bytes} (here : w.trailingPaddingRecord = some bytes)
    (waits : w.trailingPaddingEmitted = false) :
    Call now w bytes (ArchiveWriter.produced
      { w.advanced (w.entries.drop w.entryIndex).length with trailingPaddingEmitted := true } bytes)

theorem call_of_ok {now : Moment} {w w' : ArchiveWriter} {bytes : Bytes}
    (ran : exec (nextRecordBytes now) w = (.ok (some bytes), w')) : Call now w bytes w' := by
  rw [nextRecordBytes, exec_get_bind] at ran
  by_cases fresh : w.emittedBegin = false
  · rw [if_pos fresh] at ran
    cases ran
    exact .begin fresh
  · rw [if_neg fresh] at ran
    have begun : w.emittedBegin = true := Bool.not_eq_false _ ▸ fresh
    by_cases opened : w.currentFileOpen = true
    · rw [if_pos opened] at ran
      rcases (nextFileBytesOrEnd_ok now w w' _).mp ran with
        ⟨some, same, rfl⟩ | ⟨none, eof, whole, same, rfl⟩
      · cases same
        exact .block begun opened some
      · cases same
        exact .fileEnd begun opened none eof whole
    · rw [if_neg opened, exec_bind_ok] at ran
      have closed : w.currentFileOpen = false := Bool.not_eq_true _ ▸ opened
      obtain ⟨record, w₁, first, ran⟩ := ran
      cases record with
      | some found =>
        cases ran
        obtain ⟨skipped, e, rest, left, skips, head⟩ := nextEntry_some now w w' _ _ first
        rcases (entryRecord_ok now _ w' e _).mp head with ⟨-, same, -⟩ | ⟨gives, -, m, p, h⟩
        · cases same
        · obtain ⟨found, coded, same, rfl⟩ := h
          cases same
          exact .entry begun closed left skips gives found coded
      | none =>
        obtain ⟨skips, rfl⟩ := nextEntry_none now w w₁ _ first
        rcases endOrPadding_some _ w' bytes ran with
          ⟨running, rfl, rfl⟩ | ⟨ended, here, waits, rfl⟩
        · exact .archiveEnd begun closed skips running
        · exact .padding begun closed skips ended here waits

/-- Calls that return records, each at its moment. -/
def Follows (moments : Nat → Moment) : Nat → ArchiveWriter → List Bytes → ArchiveWriter → Prop
  | _, w, [], w' => w = w'
  | i, w, bytes :: out, w' => ∃ w₁, exec (nextRecordBytes (moments i)) w = (.ok (some bytes), w₁) ∧
      Follows moments (i + 1) w₁ out w'

inductive Blocks (size : Nat) : StreamState → List Bytes → Prop where
  | done (s : StreamState) : Blocks size s []
  | full {p : Bytes} {rest : List Bytes} (len : p.length = size) (more : Blocks size .good rest) :
    Blocks size .good (p :: rest)
  | last {p : Bytes} (some : p ≠ []) (short : p.length < size) : Blocks size .good [p]

def fileRecords (payload : Bytes) (body : List Bytes) : List ArchiveRecord :=
  ⟨.fileEntry, payload⟩ :: (body.map (⟨.fileBytes, ·⟩) ++ [⟨.fileEnd, []⟩])

section Stream
variable (P : Moment → Prop) (w₀ : ArchiveWriter)

/-- A content that a file keeps through all the moments. -/
def Steady (path : List FileName) (content : Bytes) : Prop :=
  ∀ now, P now → now.content path = content

inductive Emits (e : DirectoryEntry) : List ArchiveRecord → Prop where
  | skipped (skips : w₀.Skips e) : Emits e []
  | single {now : Moment} {m : EntryMetadata} {payload : Bytes} (gives : ¬w₀.Skips e)
    (leaf : e.type ≠ .regular) (at_ : P now) (found : w₀.metadataFor now.tree e = .ok m)
    (coded : serializeEntryMetadata m = .ok payload) : Emits e [⟨e.type.recordType, payload⟩]
  | file {now : Moment} {m : EntryMetadata} {payload : Bytes} {body : List Bytes}
    (isFile : e.type = .regular) (at_ : P now) (found : w₀.metadataFor now.tree e = .ok m)
    (coded : serializeEntryMetadata m = .ok payload)
    (blocks : Blocks w₀.fileBytesPayloadSize .good body)
    (total : (body.map List.length).sum = m.originalSize.toNat)
    (content : ∀ c, Steady P e.path c → body.flatten = c) : Emits e (fileRecords payload body)

structure Continues (w : ArchiveWriter) : Prop where
  options : w.options = w₀.options
  root : w.root = w₀.root
  entries : w.entries = w₀.entries
  size : w.fileBytesPayloadSize = w₀.fileBytesPayloadSize

structure Reading (w : ArchiveWriter) : Prop where
  counted : w.position = w.currentFileBytesRead.toNat
  bound : w.position < 2 ^ 63
  within : ∀ c, Steady P w.currentFilePath c → w.position ≤ c.length
  atEnd : w.stream = .eof → ∀ c, Steady P w.currentFilePath c → c.drop w.position = []
  sound : (∀ now, P now → now.readFails = false) → w.stream ≠ .bad

def RestEntries (w : ArchiveWriter) (records : List ArchiveRecord) : Prop :=
  ∃ contents, List.Forall₂ (Emits P w₀) (w.entries.drop w.entryIndex) contents ∧
    records = contents.flatten ++ [⟨.archiveEnd, []⟩]

def RestFile (w : ArchiveWriter) (records : List ArchiveRecord) : Prop :=
  ∃ body rest, records = body.map (⟨.fileBytes, ·⟩) ++ ⟨.fileEnd, []⟩ :: rest ∧
    Blocks w₀.fileBytesPayloadSize w.stream body ∧
    w.currentFileBytesRead.toNat + (body.map List.length).sum = w.currentFileExpectedBytes.toNat ∧
    (∀ c, Steady P w.currentFilePath c → body.flatten = c.drop w.position) ∧
    RestEntries P w₀ w rest

def Rest (w : ArchiveWriter) (records : List ArchiveRecord) : Prop :=
  if w.currentFileOpen = true then RestFile P w₀ w records else RestEntries P w₀ w records

variable {P w₀} {w w' : ArchiveWriter} {now : Moment} {bytes : Bytes}

theorem metadataFor_continues (c : Continues w₀ w) (t : SourceTree) (e : DirectoryEntry) :
    w.metadataFor t e = w₀.metadataFor t e := by
  unfold ArchiveWriter.metadataFor
  rw [c.options, c.root]

theorem skips_continues (c : Continues w₀ w) (e : DirectoryEntry) : w.Skips e ↔ w₀.Skips e := by
  unfold ArchiveWriter.Skips
  rw [c.options]

theorem headed_eq (w : ArchiveWriter) (e : DirectoryEntry) (m : EntryMetadata) :
    w.headed e m = w ∨ w.headed e m = w.opened e m := by
  unfold ArchiveWriter.headed
  split
  · exact .inr rfl
  · exact .inl rfl

theorem Call.continues (c : Continues w₀ w) (call : Call now w bytes w') : Continues w₀ w' := by
  cases call with
  | entry begun closed left skips gives found coded =>
    rename_i skipped rest e m payload
    rcases headed_eq (w.advanced (skipped.length + 1)) e m with same | same <;> rw [same] <;>
      exact ⟨c.options, c.root, c.entries, c.size⟩
  | _ => exact ⟨c.options, c.root, c.entries, c.size⟩

theorem Call.bytesProduced (call : Call now w bytes w') :
    w'.bytesProduced = w.bytesProduced + .ofNat bytes.length := by
  cases call with
  | entry begun closed left skips gives found coded =>
    rename_i skipped rest e m payload
    rcases headed_eq (w.advanced (skipped.length + 1)) e m with same | same <;> rw [same] <;> rfl
  | _ => rfl

theorem block_length_le (w : ArchiveWriter) (now : Moment) :
    (w.block now).length ≤ w.fileBytesPayloadSize := by
  unfold ArchiveWriter.block
  split
  · exact Nat.zero_le _
  · exact List.length_take_le _ _

theorem content_length_lt (now : Moment) (path : List FileName) :
    (now.content path).length < 2 ^ 63 := by
  unfold Moment.content
  split
  · next content _ => exact content.2
  · decide

theorem block_some (some : w.block now ≠ []) :
    w.stream = .good ∧ now.readFails = false ∧
      w.block now = ((now.content w.currentFilePath).drop w.position).take
        w.fileBytesPayloadSize := by
  unfold ArchiveWriter.block at some ⊢
  by_cases quiet : w.stream ≠ .good ∨ now.readFails = true
  · rw [if_pos quiet] at some
    exact absurd rfl some
  · rw [if_neg quiet]
    rw [not_or, not_not, Bool.not_eq_true] at quiet
    exact ⟨quiet.1, quiet.2, rfl⟩

theorem afterRead_some (some : w.block now ≠ []) :
    w.afterRead now =
      if (w.block now).length < w.fileBytesPayloadSize then .eof else .good := by
  obtain ⟨good, reads, -⟩ := block_some some
  unfold ArchiveWriter.afterRead
  rw [if_neg (by rw [not_not]; exact good), if_neg (by rw [reads]; exact Bool.false_ne_true)]

theorem block_bound (some : w.block now ≠ []) :
    w.position + (w.block now).length ≤ (now.content w.currentFilePath).length := by
  have len := congrArg List.length (block_some some).2.2
  have pos := List.length_pos_iff.mpr some
  rw [List.length_take, List.length_drop] at len
  omega

theorem Reading.toNat_read (r : Reading P w) (some : w.block now ≠ []) :
    (w.currentFileBytesRead + UInt64.ofNat (w.block now).length).toNat =
      w.currentFileBytesRead.toNat + (w.block now).length := by
  have bound := block_bound some
  have small := content_length_lt now w.currentFilePath
  have counted := r.counted
  rw [UInt64.toNat_add, UInt64.toNat_ofNat',
    Nat.mod_eq_of_lt (a := (w.block now).length) (by omega), Nat.mod_eq_of_lt (by omega)]

theorem Reading.read (r : Reading P w) (met : P now) (some : w.block now ≠ []) (bytes : Bytes) :
    Reading P ((w.readBlock now).produced bytes) := by
  have bound := block_bound some
  have small := content_length_lt now w.currentFilePath
  constructor
  · change w.position + (w.block now).length =
      (w.currentFileBytesRead + UInt64.ofNat (w.block now).length).toNat
    rw [r.toNat_read some, r.counted]
  · change w.position + (w.block now).length < 2 ^ 63
    omega
  · intro c steady
    exact steady now met ▸ bound
  · intro eof c steady
    change w.afterRead now = .eof at eof
    change Steady P w.currentFilePath c at steady
    change c.drop (w.position + (w.block now).length) = []
    rw [afterRead_some some] at eof
    have short : (w.block now).length < w.fileBytesPayloadSize := by
      by_contra long
      rw [if_neg long] at eof
      cases eof
    have len := congrArg List.length (block_some some).2.2
    rw [steady now met, List.length_take, List.length_drop] at len
    rw [List.drop_eq_nil_iff]
    omega
  · intro _ bad
    change w.afterRead now = .bad at bad
    rw [afterRead_some some] at bad
    split at bad <;> cases bad

theorem reading_opened (w : ArchiveWriter) (e : DirectoryEntry) (m : EntryMetadata)
    (bytes : Bytes) : Reading P ((w.opened e m).produced bytes) :=
  ⟨rfl, Nat.two_pow_pos 63, fun _ _ => Nat.zero_le _, fun eof => absurd eof StreamState.noConfusion,
    fun _ bad => absurd bad StreamState.noConfusion⟩

theorem Reading.end_ (r : Reading P w) (met : P now) (size : 0 < w.fileBytesPayloadSize)
    (none : w.block now = []) (eof : w.afterRead now = .eof) {c : Bytes}
    (steady : Steady P w.currentFilePath c) : c.drop w.position = [] := by
  by_cases good : w.stream = .good
  · by_cases reads : now.readFails = true
    · rw [ArchiveWriter.afterRead, if_neg (not_not.mpr good), if_pos reads] at eof
      cases eof
    · rw [ArchiveWriter.block, if_neg (not_or.mpr ⟨not_not.mpr good, reads⟩), steady now met,
        List.take_eq_nil_iff] at none
      exact none.resolve_left (by omega)
  · rw [ArchiveWriter.afterRead, if_pos good] at eof
    exact r.atEnd eof c steady

theorem Blocks.none_of_eof {size : Nat} {body : List Bytes} (blocks : Blocks size .eof body) :
    body = [] := by
  cases blocks
  rfl

theorem RestFile.read (same : Continues w₀ w) (r : Reading P w) (met : P now)
    (some : w.block now ≠ []) {records : List ArchiveRecord} (bytes : Bytes)
    (rest : RestFile P w₀ ((w.readBlock now).produced bytes) records) :
    RestFile P w₀ w (⟨.fileBytes, w.block now⟩ :: records) := by
  obtain ⟨body, tail, rfl, blocks, total, content, left⟩ := rest
  have full := block_length_le w now
  obtain ⟨good, -, block⟩ := block_some some
  refine ⟨w.block now :: body, tail, rfl, ?_, ?_, ?_, left⟩
  · change Blocks _ (w.afterRead now) body at blocks
    rw [afterRead_some some, ← same.size] at blocks
    rw [good, ← same.size]
    by_cases short : (w.block now).length < w.fileBytesPayloadSize
    · rw [if_pos short] at blocks
      rw [blocks.none_of_eof]
      exact .last some short
    · rw [if_neg short] at blocks
      exact .full (by omega) blocks
  · change (w.currentFileBytesRead + UInt64.ofNat (w.block now).length).toNat +
      (body.map List.length).sum = w.currentFileExpectedBytes.toNat at total
    rw [r.toNat_read some] at total
    rw [List.map_cons, List.sum_cons]
    omega
  · intro c steady
    have rest : body.flatten = c.drop (w.position + (w.block now).length) := content c steady
    have front : w.block now <+: c.drop w.position := by
      rw [block, steady now met]
      exact List.take_prefix _ _
    rw [List.flatten_cons, rest, ← List.drop_drop]
    exact List.prefix_iff_eq_append.mp front

theorem RestFile.end_ (r : Reading P w) (met : P now) (size : 0 < w.fileBytesPayloadSize)
    (none : w.block now = []) (eof : w.afterRead now = .eof)
    (whole : w.currentFileBytesRead = w.currentFileExpectedBytes) {records : List ArchiveRecord}
    (rest : RestEntries P w₀ w records) : RestFile P w₀ w (⟨.fileEnd, []⟩ :: records) := by
  refine ⟨[], records, rfl, .done _, ?_, fun c steady => ?_, rest⟩
  · rw [whole]
    rfl
  · exact (r.end_ met size none eof steady).symm

theorem forall₂_skipped {skipped : List DirectoryEntry} (skips : ∀ s ∈ skipped, w₀.Skips s)
    {rest : List DirectoryEntry} {contents : List (List ArchiveRecord)}
    (all : List.Forall₂ (Emits P w₀) rest contents) :
    ∃ more, List.Forall₂ (Emits P w₀) (skipped ++ rest) more ∧ more.flatten = contents.flatten := by
  induction skipped with
  | nil => exact ⟨contents, all, rfl⟩
  | cons s skipped ih =>
    obtain ⟨more, emits, same⟩ := ih fun s' member => skips s' (List.mem_cons_of_mem s member)
    exact ⟨[] :: more, .cons (.skipped (skips s List.mem_cons_self)) emits, same⟩

theorem drop_after {entries skipped rest : List DirectoryEntry} {e : DirectoryEntry} {i : Nat}
    (left : entries.drop i = skipped ++ e :: rest) :
    entries.drop (i + (skipped.length + 1)) = rest := by
  have split : skipped ++ e :: rest = skipped ++ [e] ++ rest := by
    rw [List.append_assoc]
    rfl
  rw [← List.drop_drop, left, split]
  exact List.drop_left' (by rw [List.length_append]; rfl)

structure Ended (w : ArchiveWriter) : Prop where
  begun : w.emittedBegin = true
  closed : w.currentFileOpen = false
  ended : w.emittedEnd = true
  none : w.entries.drop w.entryIndex = []

theorem Ended.call (h : Ended w) (call : Call now w bytes w') :
    w.trailingPaddingEmitted = false ∧ w'.trailingPaddingEmitted = true ∧ Ended w' := by
  cases call with
  | begin fresh => rw [h.begun] at fresh; cases fresh
  | block begun opened => rw [h.closed] at opened; cases opened
  | fileEnd begun opened => rw [h.closed] at opened; cases opened
  | entry begun closed left =>
    rw [h.none] at left
    exact absurd left.symm (List.append_ne_nil_of_right_ne_nil _ (List.cons_ne_nil _ _))
  | archiveEnd begun closed skips running => rw [h.ended] at running; cases running
  | padding begun closed skips ended here waits =>
    refine ⟨waits, rfl, begun, closed, ended, ?_⟩
    change w.entries.drop (w.entryIndex + _) = []
    rw [← List.drop_drop, h.none, List.drop_nil]

theorem Ended.follows {moments : Nat → Moment} {i : Nat} {out : List Bytes} (h : Ended w)
    (follows : Follows moments i w out w') (unpadded : w'.trailingPaddingEmitted = false) :
    out = [] ∧ w = w' := by
  cases out with
  | nil => exact ⟨rfl, follows⟩
  | cons bytes out =>
    obtain ⟨w₁, ran, more⟩ := follows
    obtain ⟨-, padded, h₁⟩ := h.call (call_of_ok ran)
    cases out with
    | nil =>
      cases more
      rw [padded] at unpadded
      cases unpadded
    | cons bytes' out =>
      obtain ⟨w₂, ran', -⟩ := more
      have waits := (h₁.call (call_of_ok ran')).1
      rw [padded] at waits
      cases waits

theorem rest_open {records : List ArchiveRecord} (opened : w.currentFileOpen = true) :
    Rest P w₀ w records ↔ RestFile P w₀ w records := by
  rw [Rest, if_pos opened]

theorem rest_closed {records : List ArchiveRecord} (closed : w.currentFileOpen = false) :
    Rest P w₀ w records ↔ RestEntries P w₀ w records := by
  rw [Rest, if_neg (by rw [closed]; exact Bool.false_ne_true)]

theorem rest_of_follows {moments : Nat → Moment} (all : ∀ i, P (moments i))
    (size : 0 < w₀.fileBytesPayloadSize) {out : List Bytes} {i : Nat} (same : Continues w₀ w)
    (begun : w.emittedBegin = true) (running : w.emittedEnd = false)
    (reading : w.currentFileOpen = true → Reading P w) (follows : Follows moments i w out w')
    (ended : w'.emittedEnd = true) (unpadded : w'.trailingPaddingEmitted = false) :
    ∃ records, out = records.map serializeRecord ∧ Rest P w₀ w records := by
  induction out generalizing i w with
  | nil =>
    cases follows
    rw [running] at ended
    cases ended
  | cons bytes out ih =>
    obtain ⟨w₁, ran, more⟩ := follows
    have call := call_of_ok ran
    have same₁ := call.continues same
    cases call with
    | begin fresh => rw [begun] at fresh; cases fresh
    | block _ opened some =>
      have r := reading opened
      obtain ⟨records, rfl, rest⟩ := ih same₁ begun running (fun _ => r.read (all i) some _) more
      refine ⟨⟨.fileBytes, w.block (moments i)⟩ :: records, rfl, ?_⟩
      have inner := (rest_open (w := (w.readBlock (moments i)).produced _) opened).mp rest
      exact (rest_open opened).mpr (inner.read same r (all i) some _)
    | fileEnd _ opened none eof whole =>
      obtain ⟨records, rfl, rest⟩ := ih same₁ begun running (fun again => by cases again) more
      refine ⟨⟨.fileEnd, []⟩ :: records, rfl, ?_⟩
      have inner := (rest_closed (w := (w.closed (moments i)).produced _) rfl).mp rest
      exact (rest_open opened).mpr (RestFile.end_ (reading opened) (all i) (same.size ▸ size) none
        eof whole inner)
    | @entry _ closed skipped rest e m payload left skips gives found coded =>
      have skips₀ : ∀ s ∈ skipped, w₀.Skips s :=
        fun s member => (skips_continues same s).mp (skips s member)
      have gives₀ : ¬w₀.Skips e := fun skip => gives ((skips_continues same e).mpr skip)
      have found₀ := (metadataFor_continues same (moments i).tree e).symm.trans found
      simp only [rest_closed closed]
      by_cases isFile : e.type = .regular
      · have headed : (w.advanced (skipped.length + 1)).headed e m =
            (w.advanced (skipped.length + 1)).opened e m := if_pos isFile
        rw [headed] at more same₁
        obtain ⟨records, rfl, tail⟩ := ih same₁ begun running
          (fun _ => reading_opened _ e m _) more
        obtain ⟨body, last, rfl, blocks, total, content, contents, emits, rfl⟩ :=
          (rest_open rfl).mp tail
        change List.Forall₂ _ (w.entries.drop (w.entryIndex + (skipped.length + 1)))
          contents at emits
        rw [drop_after left] at emits
        have file : Emits P w₀ e (fileRecords payload body) :=
          .file isFile (all i) found₀ coded blocks ((Nat.zero_add _).symm.trans total) content
        obtain ⟨whole, emits', flat⟩ := forall₂_skipped skips₀ (emits.cons file)
        rw [← left] at emits'
        refine ⟨⟨.fileEntry, payload⟩ :: (body.map (⟨.fileBytes, ·⟩) ++
          ⟨.fileEnd, []⟩ :: (contents.flatten ++ [⟨.archiveEnd, []⟩])), ?_, whole, emits', ?_⟩
        · rw [isFile]
          rfl
        · simp only [flat, List.flatten_cons, fileRecords, List.cons_append, List.append_assoc,
            List.nil_append]
      · have headed : (w.advanced (skipped.length + 1)).headed e m =
            w.advanced (skipped.length + 1) := if_neg isFile
        rw [headed] at more same₁
        obtain ⟨records, rfl, tail⟩ := ih same₁ begun running
          (fun opened => absurd (closed.symm.trans opened) Bool.false_ne_true) more
        obtain ⟨contents, emits, rfl⟩ :=
          (rest_closed (w := (w.advanced (skipped.length + 1)).produced _) closed).mp tail
        change List.Forall₂ _ (w.entries.drop (w.entryIndex + (skipped.length + 1)))
          contents at emits
        rw [drop_after left] at emits
        have single : Emits P w₀ e [⟨e.type.recordType, payload⟩] :=
          .single gives₀ isFile (all i) found₀ coded
        obtain ⟨whole, emits', flat⟩ := forall₂_skipped skips₀ (emits.cons single)
        rw [← left] at emits'
        refine ⟨⟨e.type.recordType, payload⟩ :: (contents.flatten ++ [⟨.archiveEnd, []⟩]), rfl,
          whole, emits', ?_⟩
        rw [flat]
        rfl
    | archiveEnd _ closed skips =>
      have done : Ended (ArchiveWriter.produced { w.advanced (w.entries.drop w.entryIndex).length
          with emittedEnd := true } (makeRecord .archiveEnd [])) := by
        refine ⟨begun, closed, rfl, ?_⟩
        change w.entries.drop (w.entryIndex + (w.entries.drop w.entryIndex).length) = []
        rw [← List.drop_drop, List.drop_length]
      obtain ⟨rfl, -⟩ := done.follows more unpadded
      simp only [rest_closed closed]
      obtain ⟨whole, emits, flat⟩ := forall₂_skipped (P := P)
        (fun s member => (skips_continues same s).mp (skips s member)) .nil
      rw [List.append_nil] at emits
      refine ⟨[⟨.archiveEnd, []⟩], rfl, whole, emits, ?_⟩
      rw [flat]
      rfl
    | padding _ _ _ now_ => rw [running] at now_; cases now_

/-- A whole stream: the beginning, what each entry gives, and the end. -/
def WholeStream (P : Moment → Prop) (w₀ : ArchiveWriter) (records : List ArchiveRecord) : Prop :=
  ∃ contents, List.Forall₂ (Emits P w₀) w₀.entries contents ∧
    records = ⟨.archiveBegin, ByteCodec.toLE 4 kArchiveFormatVersion.toNat⟩ ::
      (contents.flatten ++ [⟨.archiveEnd, []⟩])

structure ArchiveWriter.IsNew (w : ArchiveWriter) : Prop where
  fresh : w.emittedBegin = false
  running : w.emittedEnd = false
  closed : w.currentFileOpen = false
  first : w.entryIndex = 0
  unpadded : w.trailingPaddingEmitted = false
  none : w.bytesProduced = 0
  size : w.fileBytesPayloadSize = clampPayloadSize w.options.chunkPlainSize

theorem initial_isNew (options : ArchiveWriterOptions) (root : List FileName)
    (entries : List DirectoryEntry) : (ArchiveWriter.initial options root entries).IsNew :=
  ⟨rfl, rfl, rfl, rfl, rfl, rfl, rfl⟩

theorem ArchiveWriter.IsNew.padded (new : w.IsNew) (record : Bytes) :
    (w.setTrailingPaddingRecord record).IsNew :=
  ⟨new.fresh, new.running, new.closed, new.first, rfl, new.none, new.size⟩

theorem ArchiveWriter.IsNew.size_pos (new : w.IsNew) : 0 < w.fileBytesPayloadSize := by
  rw [new.size, clampPayloadSize]
  omega

theorem ArchiveWriter.IsNew.size_le (new : w.IsNew) :
    w.fileBytesPayloadSize ≤ 1024 * 1024 := by
  rw [new.size, clampPayloadSize]
  omega

/-- Calls on a new writer up to the end of the archive. -/
theorem wholeStream_of_follows {moments : Nat → Moment} (all : ∀ i, P (moments i)) (new : w₀.IsNew)
    {out : List Bytes} (follows : Follows moments 0 w₀ out w') (ended : w'.emittedEnd = true)
    (unpadded : w'.trailingPaddingEmitted = false) :
    ∃ records, out = records.map serializeRecord ∧ WholeStream P w₀ records := by
  cases out with
  | nil =>
    cases follows
    rw [new.running] at ended
    cases ended
  | cons bytes out =>
    obtain ⟨w₁, ran, more⟩ := follows
    have call := call_of_ok ran
    cases call with
    | begin fresh =>
      obtain ⟨records, rfl, rest⟩ := rest_of_follows
        (w := ArchiveWriter.produced { w₀ with emittedBegin := true } beginBytes) all
        new.size_pos (show Continues w₀ _ from ⟨rfl, rfl, rfl, rfl⟩) rfl new.running
        (fun opened => absurd (new.closed.symm.trans opened) Bool.false_ne_true) more ended unpadded
      obtain ⟨contents, emits, rfl⟩ := (rest_closed
        (w := ArchiveWriter.produced { w₀ with emittedBegin := true } beginBytes) new.closed).mp
          rest
      change List.Forall₂ _ (w₀.entries.drop w₀.entryIndex) contents at emits
      rw [new.first, List.drop_zero] at emits
      exact ⟨⟨.archiveBegin, ByteCodec.toLE 4 kArchiveFormatVersion.toNat⟩ ::
        (contents.flatten ++ [⟨.archiveEnd, []⟩]), rfl, contents, emits, rfl⟩
    | block begun => rw [new.fresh] at begun; cases begun
    | fileEnd begun => rw [new.fresh] at begun; cases begun
    | entry begun => rw [new.fresh] at begun; cases begun
    | archiveEnd begun => rw [new.fresh] at begun; cases begun
    | padding begun => rw [new.fresh] at begun; cases begun

theorem Follows.bytesProduced {moments : Nat → Moment} {i : Nat} {out : List Bytes}
    (follows : Follows moments i w out w') :
    w'.bytesProduced = w.bytesProduced + .ofNat (out.map List.length).sum := by
  induction out generalizing i w with
  | nil =>
    cases follows
    exact (UInt64.add_zero _).symm
  | cons bytes out ih =>
    obtain ⟨w₁, ran, more⟩ := follows
    rw [ih more, (call_of_ok ran).bytesProduced, List.map_cons, List.sum_cons, UInt64.ofNat_add,
      UInt64.add_assoc]

theorem Follows.continues {moments : Nat → Moment} {i : Nat} {out : List Bytes}
    (follows : Follows moments i w out w') (c : Continues w₀ w) : Continues w₀ w' := by
  induction out generalizing i w with
  | nil =>
    cases follows
    exact c
  | cons bytes out ih =>
    obtain ⟨w₁, ran, more⟩ := follows
    exact ih more ((call_of_ok ran).continues c)

theorem follows_append {moments : Nat → Moment} {i : Nat} {front back : List Bytes} :
    Follows moments i w (front ++ back) w' ↔
      ∃ w₁, Follows moments i w front w₁ ∧ Follows moments (i + front.length) w₁ back w' := by
  induction front generalizing i w with
  | nil => exact ⟨fun rest => ⟨w, rfl, rest⟩, fun ⟨_, same, rest⟩ => same ▸ rest⟩
  | cons bytes front ih =>
    have shift : i + (bytes :: front).length = i + 1 + front.length := by
      rw [List.length_cons]
      omega
    rw [shift]
    constructor
    · rintro ⟨w₁, ran, more⟩
      obtain ⟨w₂, first, rest⟩ := ih.mp more
      exact ⟨w₂, ⟨w₁, ran, first⟩, rest⟩
    · rintro ⟨w₂, ⟨w₁, ran, first⟩, rest⟩
      exact ⟨w₁, ran, ih.mpr ⟨w₂, first, rest⟩⟩

end Stream
end Bseal.Archive
