import Bseal.Archive.WriterStream

/-! The file that the writer is in the middle of: it is read to an exception, or to an end at the
size that its entry declares. Where nothing fails or changes, the stream reaches its end. -/
namespace Bseal.Archive
open Effect FileTree

def After (moments : Nat → Moment) (n : Nat) (now : Moment) : Prop :=
  ∃ i, n < i ∧ moments i = now

def OpenFile (moments : Nat → Moment) (w : ArchiveWriter) (out : List Bytes) : Prop :=
  ∃ (front : List Bytes) (m : EntryMetadata) (payload : Bytes) (sent : List Bytes),
    out = front ++ makeRecord .fileEntry payload :: sent.map (makeRecord .fileBytes) ∧
    serializeEntryMetadata m = .ok payload ∧ w.currentFileExpectedBytes = m.originalSize ∧
    w.currentFileBytesRead.toNat = (sent.map List.length).sum ∧
    Reading (After moments front.length) w

def Throws (now : Moment) (w : ArchiveWriter) : Prop :=
  ∃ failure w', exec (nextRecordBytes now) w = (.error failure, w')

namespace ArchiveWriter

def atOffset (w : ArchiveWriter) (position : Nat) (stream : StreamState)
    (read produced : UInt64) : ArchiveWriter :=
  { w with
    position := position
    stream := stream
    currentFileBytesRead := read
    bytesProduced := produced }

end ArchiveWriter

section Stream
variable {P : Moment → Prop} {w₀ w : ArchiveWriter}

theorem openFile_of_follows {moments : Nat → Moment} (new : w₀.IsNew) {out : List Bytes}
    (follows : Follows moments 0 w₀ out w) (opened : w.currentFileOpen = true) :
    OpenFile moments w out ∧ w.emittedBegin = true := by
  induction out using List.reverseRecOn generalizing w with
  | nil =>
    cases follows
    rw [new.closed] at opened
    cases opened
  | append_singleton out bytes ih =>
    obtain ⟨w₁, first, w₂, ran, same⟩ := follows_append.mp follows
    cases same
    rw [Nat.zero_add] at ran
    have call := call_of_ok ran
    generalize here : moments out.length = now at ran call
    cases call with
    | begin fresh =>
      obtain ⟨-, begun⟩ := ih first opened
      rw [begun] at fresh
      cases fresh
    | block begun opened₁ some =>
      obtain ⟨⟨front, m, payload, sent, rfl, coded, declared, counted, reading⟩, -⟩ :=
        ih first opened₁
      refine ⟨⟨front, m, payload, sent ++ [w₁.block now], ?_, coded, declared, ?_,
        reading.read ⟨_, ?_, here⟩ some _⟩, begun⟩
      · rw [List.map_append, List.append_assoc]
        rfl
      · change (w₁.currentFileBytesRead + UInt64.ofNat (w₁.block now).length).toNat = _
        rw [reading.toNat_read some, counted, List.map_append, List.sum_append, List.map_singleton,
          List.sum_singleton]
      · rw [List.length_append, List.length_cons]
        omega
    | fileEnd => cases opened
    | @entry begun closed skipped rest e m payload left skips gives found coded =>
      have isFile : e.type = .regular := by
        by_contra leaf
        rw [ArchiveWriter.headed, if_neg leaf] at opened
        exact absurd (closed.symm.trans opened) Bool.false_ne_true
      rw [ArchiveWriter.headed, if_pos isFile, isFile]
      exact ⟨⟨out, m, payload, [], rfl, coded, rfl, rfl, reading_opened _ e m _⟩, begun⟩
    | archiveEnd begun closed => exact absurd (closed.symm.trans opened) Bool.false_ne_true
    | padding begun closed => exact absurd (closed.symm.trans opened) Bool.false_ne_true

theorem nextRecordBytes_opened (now : Moment) (begun : w.emittedBegin = true)
    (opened : w.currentFileOpen = true) :
    exec (nextRecordBytes now) w = exec (nextFileBytesOrEnd now) w := by
  rw [nextRecordBytes, exec_get_bind, if_neg (by rw [begun]; decide), if_pos opened]

/-- An open file is read to an exception, or to its end with the size that was declared. -/
theorem file_streams {moments : Nat → Moment} {i : Nat} (all : ∀ j, i ≤ j → P (moments j))
    (size : 0 < w.fileBytesPayloadSize) (begun : w.emittedBegin = true)
    (opened : w.currentFileOpen = true) (reading : Reading P w) :
    ∃ (body : List Bytes) (w₁ : ArchiveWriter) (now : Moment),
      Follows moments i w (body.map (makeRecord .fileBytes)) w₁ ∧
      (∃ position stream read produced, w₁ = w.atOffset position stream read produced) ∧
      Reading P w₁ ∧ moments (i + body.length) = now ∧
      (Throws now w₁ ∨
        exec (nextRecordBytes now) w₁ = (.ok (some (makeRecord .fileEnd [])),
          (w₁.closed now).produced (makeRecord .fileEnd [])) ∧
        w.currentFileBytesRead.toNat + (body.map List.length).sum =
          w.currentFileExpectedBytes.toNat ∧
        ∀ c, Steady P w.currentFilePath c → c.length = w.currentFileExpectedBytes.toNat) := by
  induction left : 2 ^ 63 - w.position using Nat.strongRecOn generalizing i w with
  | ind left ih =>
    have call := nextRecordBytes_opened (moments i) begun opened
    have met := all i (Nat.le_refl i)
    rcases ran : exec (nextFileBytesOrEnd (moments i)) w with ⟨failure | r, w'⟩
    · exact ⟨[], w, _, rfl, ⟨_, _, _, _, rfl⟩, reading, rfl, .inl ⟨failure, w', call.trans ran⟩⟩
    · rcases (nextFileBytesOrEnd_ok (moments i) w w' r).mp ran with
        ⟨some, rfl, rfl⟩ | ⟨none, eof, whole, rfl, rfl⟩
      · have bound := block_bound some
        have small := content_length_lt (moments i) w.currentFilePath
        have pos := List.length_pos_iff.mpr some
        obtain ⟨body, w₁, now, follows, ⟨p, s, r, b, rfl⟩, reading₁, here, ends⟩ :=
          ih (2 ^ 63 - (w.position + (w.block (moments i)).length)) (by omega)
            (w := (w.readBlock (moments i)).produced _) (i := i + 1)
            (fun j above => all j (Nat.le_of_succ_le above)) size begun opened
            (reading.read met some _) rfl
        have shift : i + (w.block (moments i) :: body).length = i + 1 + body.length := by
          rw [List.length_cons]
          omega
        refine ⟨w.block (moments i) :: body, _, now, ⟨_, call.trans ran, follows⟩,
          ⟨p, s, r, b, rfl⟩, reading₁, ?_, ?_⟩
        · rw [shift, here]
        · refine ends.imp_right fun ⟨closes, total, steady⟩ => ⟨closes, ?_, steady⟩
          change (w.currentFileBytesRead + UInt64.ofNat (w.block (moments i)).length).toNat + _ = _
            at total
          rw [reading.toNat_read some] at total
          rw [List.map_cons, List.sum_cons, ← Nat.add_assoc]
          exact total
      · refine ⟨[], w, _, rfl, ⟨_, _, _, _, rfl⟩, reading, rfl,
          .inr ⟨call.trans ran, ?_, fun c steady => ?_⟩⟩
        · rw [whole]
          rfl
        · have done := reading.end_ met size none eof steady
          rw [List.drop_eq_nil_iff] at done
          rw [← whole, ← reading.counted]
          exact Nat.le_antisymm done (reading.within c steady)

theorem Reading.not_throws {now : Moment} {c : Bytes} (r : Reading P w) (met : P now)
    (reads : ∀ now, P now → now.readFails = false) (steady : Steady P w.currentFilePath c)
    (declared : c.length = w.currentFileExpectedBytes.toNat) (size : 0 < w.fileBytesPayloadSize)
    (begun : w.emittedBegin = true) (opened : w.currentFileOpen = true) : ¬Throws now w := by
  rintro ⟨failure, w', ran⟩
  rw [nextRecordBytes_opened now begun opened] at ran
  by_cases none : w.block now = []
  · have eof : w.afterRead now = .eof := by
      unfold ArchiveWriter.afterRead
      split
      · next spoilt =>
        rcases state : w.stream with _ | _ | _
        · exact absurd state spoilt
        · rfl
        · exact absurd state (r.sound reads)
      · rw [if_neg (by rw [reads now met]; exact Bool.false_ne_true), if_pos ?_]
        rw [none]
        exact size
    have done := r.end_ met size none eof steady
    rw [List.drop_eq_nil_iff] at done
    have whole : w.currentFileBytesRead = w.currentFileExpectedBytes := by
      refine UInt64.toNat.inj ?_
      rw [← r.counted, ← declared]
      exact Nat.le_antisymm (r.within c steady) done
    have ends := (nextFileBytesOrEnd_ok now w _ _).mpr (.inr ⟨none, eof, whole, rfl, rfl⟩)
    rw [ends] at ran
    cases ran
  · have done := (nextFileBytesOrEnd_ok now w _ _).mpr (.inl ⟨none, rfl, rfl⟩)
    rw [done] at ran
    cases ran

def Streamable (w : ArchiveWriter) (now : Moment) (e : DirectoryEntry) : Prop :=
  w.Skips e ∨ ∃ m payload, w.metadataFor now.tree e = .ok m ∧
    serializeEntryMetadata m = .ok payload ∧
    (e.type = .regular → (now.content e.path).length = m.originalSize.toNat)

def atRest (t : SourceTree) : Moment := ⟨t, false, false⟩

def Completes (now : Moment) (w : ArchiveWriter) : Prop :=
  ∃ out w', Follows (fun _ => now) 0 w out w' ∧ w'.emittedEnd = true ∧
    w'.trailingPaddingEmitted = false

theorem follows_const {now : Moment} {w' : ArchiveWriter} {i j : Nat} {out : List Bytes} :
    Follows (fun _ => now) i w out w' ↔ Follows (fun _ => now) j w out w' := by
  induction out generalizing i j w with
  | nil => exact Iff.rfl
  | cons bytes out ih => exact exists_congr fun w₁ => and_congr_right fun _ => ih

theorem Completes.of_follows {now : Moment} {w₁ : ArchiveWriter} {out : List Bytes}
    (follows : Follows (fun _ => now) 0 w out w₁) (more : Completes now w₁) : Completes now w := by
  obtain ⟨rest, w', follows', ended, unpadded⟩ := more
  exact ⟨out ++ rest, w', follows_append.mpr ⟨w₁, follows, follows_const.mp follows'⟩, ended,
    unpadded⟩

theorem Completes.of_call {now : Moment} {w₁ : ArchiveWriter} {bytes : Bytes}
    (ran : exec (nextRecordBytes now) w = (.ok (some bytes), w₁)) (more : Completes now w₁) :
    Completes now w :=
  .of_follows (show Follows (fun _ => now) 0 w [bytes] w₁ from ⟨w₁, ran, rfl⟩) more

end Stream

section Quiet
variable {now : Moment} {w : ArchiveWriter}

theorem nextRecordBytes_closed (begun : w.emittedBegin = true)
    (closed : w.currentFileOpen = false) {left : List DirectoryEntry}
    (drop : w.entries.drop w.entryIndex = left) :
    exec (nextRecordBytes now) w = exec (nextEntry now left >>= fun record =>
      match record with
      | some bytes => pure (some bytes)
      | none => endOrPadding) w := by
  subst drop
  rw [nextRecordBytes, exec_get_bind, if_neg (by rw [begun]; decide)]
  exact congrFun (congrArg exec (if_neg (by rw [closed]; exact Bool.false_ne_true))) w

theorem drop_succ {e : DirectoryEntry} {left : List DirectoryEntry}
    (drop : w.entries.drop w.entryIndex = e :: left) :
    w.entries.drop (w.entryIndex + 1) = left := by
  rw [← List.drop_drop, drop]
  rfl

theorem nextRecordBytes_skip (begun : w.emittedBegin = true) (closed : w.currentFileOpen = false)
    {e : DirectoryEntry} {left : List DirectoryEntry}
    (drop : w.entries.drop w.entryIndex = e :: left) (skips : w.Skips e) :
    exec (nextRecordBytes now) w = exec (nextRecordBytes now) (w.advanced 1) := by
  have first := (entryRecord_ok now (w.advanced 1) _ e none).mpr (.inl ⟨skips, rfl, rfl⟩)
  have loop : exec (nextEntry now (e :: left)) w = exec (nextEntry now left) (w.advanced 1) := by
    rw [nextEntry, exec_bind_of_ok (exec_modify _ w)]
    exact exec_bind_of_ok first
  rw [nextRecordBytes_closed begun closed drop,
    nextRecordBytes_closed (w := w.advanced 1) begun closed (drop_succ drop), exec_bind, exec_bind,
    loop]

theorem nextRecordBytes_entry (begun : w.emittedBegin = true) (closed : w.currentFileOpen = false)
    {e : DirectoryEntry} {left : List DirectoryEntry}
    (drop : w.entries.drop w.entryIndex = e :: left) (gives : ¬w.Skips e)
    (opens : now.openFails = false) {m : EntryMetadata} {payload : Bytes}
    (found : w.metadataFor now.tree e = .ok m) (coded : serializeEntryMetadata m = .ok payload) :
    exec (nextRecordBytes now) w = (.ok (some (makeRecord e.type.recordType payload)),
      ((w.advanced 1).headed e m).produced (makeRecord e.type.recordType payload)) := by
  have first := (entryRecord_ok now (w.advanced 1) _ e _).mpr
    (.inr ⟨gives, fun _ => opens, m, payload, found, coded, rfl, rfl⟩)
  have loop : exec (nextEntry now (e :: left)) w =
      (.ok (some (makeRecord e.type.recordType payload)),
        ((w.advanced 1).headed e m).produced (makeRecord e.type.recordType payload)) := by
    rw [nextEntry, exec_bind_of_ok (exec_modify _ w)]
    exact exec_bind_of_ok first
  rw [nextRecordBytes_closed begun closed drop]
  exact exec_bind_of_ok loop

theorem Completes.of_same_call {w₁ : ArchiveWriter}
    (same : exec (nextRecordBytes now) w = exec (nextRecordBytes now) w₁)
    (running : w₁.emittedEnd = false) (more : Completes now w₁) : Completes now w := by
  obtain ⟨out, w', follows, ended, unpadded⟩ := more
  cases out with
  | nil =>
    cases follows
    rw [running] at ended
    cases ended
  | cons bytes out =>
    obtain ⟨w₂, ran, rest⟩ := follows
    exact ⟨bytes :: out, w', ⟨w₂, same.trans ran, rest⟩, ended, unpadded⟩

theorem Completes.of_file (quiet : now.readFails = false) (size : 0 < w.fileBytesPayloadSize)
    (begun : w.emittedBegin = true) (e : DirectoryEntry) (m : EntryMetadata) (bytes : Bytes)
    (declared : (now.content e.path).length = m.originalSize.toNat)
    (more : ∀ position stream read produced,
      Completes now { (w.opened e m).atOffset position stream read produced with
        currentFileOpen := false }) :
    Completes now ((w.opened e m).produced bytes) := by
  obtain ⟨body, w₁, now', follows, ⟨p, s, r, b, rfl⟩, reading, rfl, ends⟩ :=
    @file_streams (fun moment => moment = now) ((w.opened e m).produced bytes) (fun _ => now) 0
      (fun _ _ => rfl) size begun rfl (reading_opened w e m bytes)
  have steady : Steady (fun moment => moment = now) e.path (now.content e.path) :=
    fun moment same => by rw [same]
  have runs := reading.not_throws rfl (fun moment same => by rw [same, quiet]) steady declared size
    begun rfl
  obtain ⟨closes, -⟩ := ends.resolve_left runs
  exact .of_follows follows (.of_call closes (more _ _ _ _))

/-- Where nothing fails or changes, the stream reaches its end. -/
theorem completes_of_streamable (opens : now.openFails = false) (quiet : now.readFails = false)
    (size : 0 < w.fileBytesPayloadSize) (begun : w.emittedBegin = true)
    (running : w.emittedEnd = false) (closed : w.currentFileOpen = false)
    (unpadded : w.trailingPaddingEmitted = false) {left : List DirectoryEntry}
    (drop : w.entries.drop w.entryIndex = left) (all : ∀ e ∈ left, Streamable w now e) :
    Completes now w := by
  induction left generalizing w with
  | nil =>
    have ends : exec (nextRecordBytes now) w = (.ok (some (makeRecord .archiveEnd [])),
        ArchiveWriter.produced { w with emittedEnd := true } (makeRecord .archiveEnd [])) := by
      rw [nextRecordBytes_closed begun closed drop, nextEntry, exec_bind_of_ok (exec_pure _ w),
        endOrPadding, exec_get_bind, if_pos running]
      rfl
    exact ⟨[makeRecord .archiveEnd []], _, ⟨_, ends, rfl⟩, rfl, unpadded⟩
  | cons e left ih =>
    have rest : ∀ e' ∈ left, Streamable w now e' := fun e' member =>
      all e' (List.mem_cons_of_mem e member)
    by_cases skips : w.Skips e
    · exact .of_same_call (nextRecordBytes_skip begun closed drop skips) running
        (ih size begun running closed unpadded (drop_succ drop) rest)
    · obtain ⟨m, payload, found, coded, declared⟩ := (all e List.mem_cons_self).resolve_left skips
      refine .of_call (nextRecordBytes_entry begun closed drop skips opens found coded) ?_
      by_cases isFile : e.type = .regular
      · rw [ArchiveWriter.headed, if_pos isFile]
        exact .of_file (w := w.advanced 1) quiet size begun e m _ (declared isFile) fun p s r b =>
          ih size begun running rfl unpadded (drop_succ drop) rest
      · rw [ArchiveWriter.headed, if_neg isFile]
        exact ih size begun running closed unpadded (drop_succ drop) rest

theorem ArchiveWriter.IsNew.completes (new : w.IsNew) (opens : now.openFails = false)
    (quiet : now.readFails = false) (all : ∀ e ∈ w.entries, Streamable w now e) :
    Completes now w := by
  have first : exec (nextRecordBytes now) w = (.ok (some beginBytes),
      ArchiveWriter.produced { w with emittedBegin := true } beginBytes) := by
    rw [nextRecordBytes, exec_get_bind, if_pos new.fresh]
    rfl
  refine .of_call first (completes_of_streamable opens quiet new.size_pos rfl new.running new.closed
    new.unpadded rfl ?_)
  change ∀ e ∈ w.entries.drop w.entryIndex, Streamable w now e
  rw [new.first, List.drop_zero]
  exact all

end Quiet

def emitted (now : Moment) : Nat → ArchiveWriter → List Bytes × ArchiveWriter
  | 0, w => ([], w)
  | calls + 1, w =>
    match exec (nextRecordBytes now) w with
    | (.ok (some bytes), w₁) => (bytes :: (emitted now calls w₁).1, (emitted now calls w₁).2)
    | _ => ([], w)

theorem follows_emitted (now : Moment) (calls i : Nat) (w : ArchiveWriter) :
    Follows (fun _ => now) i w (emitted now calls w).1 (emitted now calls w).2 := by
  induction calls generalizing i w with
  | zero => rfl
  | succ calls ih =>
    rw [emitted]
    rcases ran : exec (nextRecordBytes now) w with ⟨failure | ⟨_ | bytes⟩, w₁⟩
    · rfl
    · rfl
    · exact ⟨w₁, ran, ih (i + 1) w₁⟩

end Bseal.Archive
