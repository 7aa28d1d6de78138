import Bseal.Archive.TreeCommit

/-! From an input tree to an output tree: the records of the writer, in any pieces, through a reader
whose calls do not fail, and its `finish`. -/
namespace Bseal.Archive
open Effect FileTree

section Writer
variable {P : Moment → Prop} {w₀ w w' : ArchiveWriter} {now : Moment} {bytes : Bytes}

theorem Call.paddingRecord (call : Call now w bytes w') :
    w'.trailingPaddingRecord = w.trailingPaddingRecord := by
  cases call with
  | @entry _ _ _ _ e m =>
    change (ArchiveWriter.headed _ e m).trailingPaddingRecord = _
    unfold ArchiveWriter.headed
    split <;> rfl
  | _ => rfl

theorem Follows.paddingRecord {moments : Nat → Moment} {i : Nat} {out : List Bytes}
    (follows : Follows moments i w out w') :
    w'.trailingPaddingRecord = w.trailingPaddingRecord := by
  induction out generalizing i w with
  | nil =>
    cases follows
    rfl
  | cons bytes out ih =>
    obtain ⟨w₁, ran, more⟩ := follows
    exact (ih more).trans (call_of_ok ran).paddingRecord

theorem Call.padded (call : Call now w bytes w') (waits : w.trailingPaddingEmitted = false)
    (padded : w'.trailingPaddingEmitted = true) :
    w.emittedEnd = true ∧ w.trailingPaddingRecord = some bytes ∧ Ended w' := by
  have kept (same : w'.trailingPaddingEmitted = w.trailingPaddingEmitted) : False := by
    rw [same, waits] at padded
    cases padded
  cases call with
  | begin => exact (kept rfl).elim
  | block => exact (kept rfl).elim
  | fileEnd => exact (kept rfl).elim
  | @entry _ _ _ _ e m =>
    refine (kept ?_).elim
    change (ArchiveWriter.headed _ e m).trailingPaddingEmitted = _
    unfold ArchiveWriter.headed
    split <;> rfl
  | archiveEnd => exact (kept rfl).elim
  | padding begun closed skips ended here =>
    refine ⟨ended, here, begun, closed, ended, ?_⟩
    change w.entries.drop (w.entryIndex + _) = []
    rw [← List.drop_drop, List.drop_length]

theorem ended_of_padded {moments : Nat → Moment} (new : w₀.IsNew) {out : List Bytes}
    (follows : Follows moments 0 w₀ out w') (padded : w'.trailingPaddingEmitted = true) :
    Ended w' := by
  induction out using List.reverseRecOn generalizing w' with
  | nil =>
    cases follows
    rw [new.unpadded] at padded
    cases padded
  | append_singleton out bytes ih =>
    obtain ⟨w₁, first, w₂, ran, same⟩ := follows_append.mp follows
    cases same
    by_cases before : w₁.trailingPaddingEmitted = true
    · exact ((ih first before).call (call_of_ok ran)).2.2
    · exact ((call_of_ok ran).padded (Bool.not_eq_true _ ▸ before) padded).2.2

theorem padding_last {moments : Nat → Moment} (new : w₀.IsNew) {out : List Bytes}
    (follows : Follows moments 0 w₀ out w') (padded : w'.trailingPaddingEmitted = true) :
    ∃ front w₁ bytes, out = front ++ [bytes] ∧ Follows moments 0 w₀ front w₁ ∧
      w₁.emittedEnd = true ∧ w₁.trailingPaddingEmitted = false ∧
      w₀.trailingPaddingRecord = some bytes := by
  rcases List.eq_nil_or_concat' out with rfl | ⟨front, bytes, rfl⟩
  · cases follows
    rw [new.unpadded] at padded
    cases padded
  · obtain ⟨w₁, first, w₂, ran, same⟩ := follows_append.mp follows
    cases same
    have call := call_of_ok ran
    have waits : w₁.trailingPaddingEmitted = false := by
      by_cases before : w₁.trailingPaddingEmitted = true
      · exact ((ended_of_padded new first before).call call).1
      · exact Bool.not_eq_true _ ▸ before
    obtain ⟨ended, here, -⟩ := call.padded waits padded
    exact ⟨front, w₁, bytes, rfl, first, ended, waits, first.paddingRecord ▸ here⟩

theorem endOrPadding_none (ran : exec endOrPadding w = (.ok none, w')) :
    w.emittedEnd = true ∧ (w.trailingPaddingRecord = none ∨ w.trailingPaddingEmitted = true) := by
  rw [endOrPadding, exec_get_bind] at ran
  by_cases running : w.emittedEnd = false
  · rw [if_pos running] at ran
    cases ran
  · refine ⟨Bool.not_eq_false _ ▸ running, ?_⟩
    rw [if_neg running] at ran
    rcases here : w.trailingPaddingRecord with _ | padding
    · exact .inl rfl
    · rw [here] at ran
      simp only at ran
      by_cases waits : w.trailingPaddingEmitted = false
      · rw [if_pos waits] at ran
        cases ran
      · exact .inr (Bool.not_eq_false _ ▸ waits)

theorem ended_of_none (ran : exec (nextRecordBytes now) w = (.ok none, w')) :
    w.emittedEnd = true ∧ (w.trailingPaddingRecord = none ∨ w.trailingPaddingEmitted = true) := by
  rw [nextRecordBytes, exec_get_bind] at ran
  by_cases fresh : w.emittedBegin = false
  · rw [if_pos fresh] at ran
    cases ran
  · rw [if_neg fresh] at ran
    by_cases opened : w.currentFileOpen = true
    · rw [if_pos opened] at ran
      rcases (nextFileBytesOrEnd_ok now w w' _).mp ran with ⟨-, same, -⟩ | ⟨-, -, -, same, -⟩ <;>
        cases same
    · rw [if_neg opened, exec_bind_ok] at ran
      obtain ⟨record, w₁, first, ran⟩ := ran
      cases record with
      | some found => cases ran
      | none =>
        obtain ⟨-, rfl⟩ := nextEntry_none now w w₁ _ first
        change exec endOrPadding (w.advanced _) = _ at ran
        have past := endOrPadding_none ran
        exact past

/-- What a new writer returns up to its last record. -/
theorem records_of_follows {moments : Nat → Moment} (all : ∀ i, P (moments i)) (new : w₀.IsNew)
    {out : List Bytes} (follows : Follows moments 0 w₀ out w')
    (ends : ∃ now w'', exec (nextRecordBytes now) w' = (.ok none, w'')) :
    ∃ records, out = records.map serializeRecord ++ w₀.trailingPaddingRecord.toList ∧
      WholeStream P w₀ records := by
  obtain ⟨now, w'', ran⟩ := ends
  obtain ⟨ended, last⟩ := ended_of_none ran
  rw [follows.paddingRecord] at last
  by_cases padded : w'.trailingPaddingEmitted = true
  · obtain ⟨front, w₁, bytes, rfl, before, ended₁, waits, here⟩ := padding_last new follows padded
    obtain ⟨records, rfl, whole⟩ := wholeStream_of_follows all new before ended₁ waits
    exact ⟨records, by rw [here]; rfl, whole⟩
  · obtain ⟨records, rfl, whole⟩ :=
      wholeStream_of_follows all new follows ended (Bool.not_eq_true _ ▸ padded)
    refine ⟨records, ?_, whole⟩
    rw [last.resolve_right padded]
    exact (List.append_nil _).symm

end Writer

section Reader
variable {σ : Type} (ops : ExtractOps σ) (options : ArchiveReaderOptions) (tempRoot : OutPath)

theorem decodeStream_encode {records : List ArchiveRecord} (fit : RecordsFit records) :
    decodeStream (encodeRecords records) = (records, .ok []) := by
  induction records with
  | nil => exact decodeStream_incomplete rfl
  | cons record records ih =>
    rw [encodeRecords_cons, decodeStream_record record _ (fit record List.mem_cons_self),
      ih fit.tail]

theorem replay_returns {records : List ArchiveRecord} {e e' : Extraction σ} (rest : Bytes)
    (ran : exec (processRecords ops options tempRoot records) e = (.ok (), e')) :
    replay ops options tempRoot records (.ok rest) e = ⟨.ok (), e', records⟩ := by
  induction records generalizing e with
  | nil =>
    cases ran
    rfl
  | cons record records ih =>
    rw [processRecords, exec_bind_ok] at ran
    obtain ⟨u, middle, step, ran⟩ := ran
    rw [replay, step]
    simp only
    rw [ih ran]

theorem consumeAll_records {records : List ArchiveRecord} (fit : RecordsFit records) (world : σ)
    {e : Extraction σ}
    (ran : exec (processRecords ops options tempRoot records) (.initial world) = (.ok (), e))
    {pieces : List Bytes} (same : pieces.flatten = encodeRecords records) :
    exec (consumeAll ops options tempRoot pieces) (.initial world) = (.ok (), ⟨[], false, e⟩) := by
  have agrees := consumeAllLogged_agrees ops options tempRoot pieces (.initial world) [] rfl rfl
  rw [show (ArchiveReader.initial world).pending ++ pieces.flatten =
    encodeRecords records from same, decodeStream_encode fit] at agrees
  rw [consumeAllLogged_reader ops options tempRoot pieces _ []]
  have outcome := agrees.outcome
  have extraction := agrees.extraction
  have whole := replay_returns ops options tempRoot [] ran
  have start : (ArchiveReader.initial world).extraction = .initial world := rfl
  simp only [start, whole] at outcome extraction
  refine Prod.ext outcome (ArchiveReader.ext ?_ agrees.finished extraction)
  exact (Except.ok.inj (agrees.pending outcome)).symm

end Reader

theorem below_injective {p q : List FileName} (same : below p [] = below q []) : p = q := by
  rw [below, below, List.append_nil, List.append_nil] at same
  exact List.map_injective_iff.mpr Subtype.val_injective same

section RoundTrip
variable {source : SourceTree} {writerOptions : ArchiveWriterOptions} {w w' : ArchiveWriter}
  {moments : Nat → Moment} {out : List Bytes}

/-- What the calls of a writer on an unchanged source return. -/
structure AllRecords (source : SourceTree) (w : ArchiveWriter) (moments : Nat → Moment)
    (out : List Bytes) (w' : ArchiveWriter) : Prop where
  still : ∀ i, (moments i).tree = source
  follows : Follows moments 0 w out w'
  ends : ∃ now w'', exec (nextRecordBytes now) w' = (.ok none, w'')

def MetadataFits (source : SourceTree) (w : ArchiveWriter) : Prop :=
  ∀ e ∈ w.entries, ∀ m payload, w.metadataFor source e = .ok m →
    serializeEntryMetadata m = .ok payload → payload.length ≤ kMaxRecordPayloadBytes

theorem Blocks.length_le {size : Nat} {state : StreamState} {body : List Bytes}
    (blocks : Blocks size state body) : ∀ p ∈ body, p.length ≤ size := by
  induction blocks with
  | done => exact fun p member => absurd member List.not_mem_nil
  | full len more ih =>
    intro p member
    rcases List.mem_cons.mp member with rfl | member
    · exact len.le
    · exact ih p member
  | last some short =>
    intro p member
    rw [List.mem_singleton.mp member]
    exact short.le

theorem Emits.fit {P : Moment → Prop} (at_ : ∀ now, P now → now.tree = source)
    (fits : MetadataFits source w) (size : w.fileBytesPayloadSize ≤ 1024 * 1024)
    {e : DirectoryEntry} (listed : e ∈ w.entries) {records : List ArchiveRecord}
    (emits : Emits P w e records) : RecordsFit records := by
  have cap : 1024 * 1024 ≤ kMaxRecordPayloadBytes := by decide
  intro record member
  cases emits with
  | skipped => cases member
  | single _ _ now found coded =>
    obtain rfl := List.mem_singleton.mp member
    exact fits e listed _ _ (at_ _ now ▸ found) coded
  | file _ now found coded blocks =>
    rw [fileRecords, List.mem_cons, List.mem_append, List.mem_map, List.mem_singleton] at member
    rcases member with rfl | ⟨p, inside, rfl⟩ | rfl
    · exact fits e listed _ _ (at_ _ now ▸ found) coded
    · exact ((blocks.length_le p inside).trans size).trans cap
    · exact Nat.zero_le _

theorem wholeStream_fit {P : Moment → Prop} (at_ : ∀ now, P now → now.tree = source)
    (fits : MetadataFits source w) (size : w.fileBytesPayloadSize ≤ 1024 * 1024)
    {records : List ArchiveRecord} (whole : WholeStream P w records) : RecordsFit records := by
  obtain ⟨contents, all, rfl⟩ := whole
  intro record member
  rw [List.mem_cons, List.mem_append, List.mem_flatten, List.mem_singleton] at member
  rcases member with rfl | ⟨content, inside, member⟩ | rfl
  · exact (by decide : 4 ≤ kMaxRecordPayloadBytes)
  · obtain ⟨i, rfl⟩ := List.mem_iff_get.mp inside
    have here : i.1 < w.entries.length := i.2.trans_eq all.length_eq.symm
    exact (all.get here i.2).fit at_ fits size (List.get_mem _ _) record member
  · exact Nat.zero_le _

theorem AllRecords.records (output : AllRecords source w moments out w') (new : w.IsNew)
    (fits : MetadataFits source w) {padding : Option ArchiveRecord}
    (padded : w.trailingPaddingRecord = padding.map serializeRecord)
    (pads : ∀ r ∈ padding, r.payload.length ≤ kMaxRecordPayloadBytes) :
    ∃ records, WholeStream (fun now => now.tree = source) w records ∧
      RecordsFit (records ++ padding.toList) ∧
      out.flatten = encodeRecords (records ++ padding.toList) := by
  obtain ⟨records, rfl, whole⟩ := records_of_follows (P := fun now => now.tree = source)
    output.still new output.follows output.ends
  refine ⟨records, whole, fun record member => ?_, ?_⟩
  · rcases List.mem_append.mp member with inside | pad
    · exact wholeStream_fit (fun _ => id) fits new.size_le whole record inside
    · exact pads record (Option.mem_toList.mp pad)
  · rw [padded, encodeRecords, List.map_append]
    cases padding <;> rfl

theorem construct_unpadded (constructed : ArchiveWriter.construct source writerOptions = .ok w) :
    w.trailingPaddingRecord = none := by
  unfold ArchiveWriter.construct at constructed
  split at constructed
  · split at constructed
    · obtain ⟨entries, -, made⟩ := (Result.bind_eq_ok _ _ _).mp constructed
      cases made
      rfl
    · cases constructed
  · cases constructed
  · cases constructed
  · cases constructed

/-- A reader that has just been constructed in an output directory with room for the entries, and
what the system gives its `finish`. -/
structure ReadyReader (source : SourceTree) (writerOptions : ArchiveWriterOptions)
    (src : List FileName) where
  options : ArchiveReaderOptions
  suffix : TempSuffix
  before : FileSystem
  disk : FileSystem
  object : ReaderObject
  root : List FileName
  hooks : DurabilityHooks
  listing : DiskTree → List (List FileName)
  opened : exec (construct quietHost options suffix) before = (.ok object, disk)
  rooted : object.options.outputRoot = below root []
  fits : Fits source writerOptions src (disk.tree.erase (root ++ [tempName suffix])) root
    (tempName suffix)
  succeed : hooks.Succeed
  lists : ∀ u paths, Listing u (root ++ [tempName suffix]) paths →
    Listing u (root ++ [tempName suffix]) (listing u)

namespace ReadyReader
variable {src : List FileName} (d : ReadyReader source writerOptions src)

def base : DiskTree := d.disk.tree.erase (d.root ++ [tempName d.suffix])

def consume : Bytes → Effect Failure (ArchiveReader FileSystem) Unit :=
  Archive.consume (diskOps quietHost) d.object.options d.object.tempRoot

def finish : Effect Failure (ArchiveReader FileSystem) Unit :=
  Archive.finish quietHost d.hooks d.object.options d.object.tempRoot d.listing

def start : ArchiveReader FileSystem := d.object.load d.disk

/-- The same reader; what is acted on counts from here. -/
def fresh : ArchiveReader FileSystem := d.object.load { d.disk with touched := [] }

end ReadyReader

/-- Before it has consumed anything, a ready reader has only made its temporary directory. -/
theorem ReadyReader.guarded {src : List FileName} (d : ReadyReader source writerOptions src) :
    d.object.tempRoot = below (d.root ++ [tempName d.suffix]) [] ∧ d.fresh.finished = false ∧
      d.object.options.allowSymlinks = d.options.allowSymlinks ∧
      Guarded (d.root ++ [tempName d.suffix]) d.base d.fresh.extraction := by
  obtain ⟨options, suffix, disk, disk', o, root, hooks, listing, opened, rooted, -, -, -⟩ := d
  obtain ⟨root', mid, -, -, -, dir, absent, made, rfl⟩ :=
    (construct_spec quietHost options suffix disk).of_ok opened
  obtain rfl : root' = root := below_injective rooted
  have here : disk'.tree.node (root' ++ [tempName suffix]) = some (.dir .fresh) := by
    rw [made, mid.put_node _ dir absent, Function.update_self]
  refine ⟨rfl, rfl, rfl, ⟨?_, ⟨.fresh, here⟩, ?_, ?_, fun _ opened => by cases opened⟩,
    fun opened => by cases opened⟩
  · intro p out
    change (disk'.tree.erase (root' ++ [tempName suffix])).node p = disk'.tree.node p
    rw [Tree.erase_node _ (by simp), if_neg out]
  · intro p target under link
    change disk'.tree.node p = _ at link
    by_cases same : p = root' ++ [tempName suffix]
    · rw [same, here] at link
      cases link
    · rw [made, mid.put_node_of_ne _ same, mid.none_of_prefix under absent] at link
      cases link
  · exact fun p member => absurd member List.not_mem_nil

theorem AllRecords.reproduced (output : AllRecords source w moments out w')
    (h : WritesTree source writerOptions w) (listed : ListsAll source writerOptions w.root)
    (links : LinksLeftOut source writerOptions w.root) (fits : MetadataFits source w)
    {padding : Option ArchiveRecord}
    (padded : w.trailingPaddingRecord = padding.map serializeRecord)
    (pads : ∀ r ∈ padding, r.type = .randomPadding ∧ r.payload.length ≤ kMaxRecordPayloadBytes)
    (d : ReadyReader source writerOptions w.root) (touched : List (List FileName))
    {pieces : List Bytes} (same : pieces.flatten = out.flatten) :
    ∃ r r', exec (consumeAll (diskOps quietHost) d.object.options d.object.tempRoot pieces)
        (d.object.load { d.disk with touched := touched }) = (.ok (), r) ∧
      exec d.finish r = (.ok (), r') ∧ r'.finished = true ∧
      Reproduced source writerOptions w.root d.object.options d.base d.root
        r'.extraction.world.tree := by
  obtain ⟨options, suffix, disk, disk', o, root, hooks, listing, opened, rooted, room, succeed,
    lists⟩ := d
  obtain ⟨root', mid, -, -, -, dir, absent, made, rfl⟩ :=
    (construct_spec quietHost options suffix disk).of_ok opened
  obtain rfl : root' = root := below_injective rooted
  obtain ⟨records, whole, fit, bytes⟩ := output.records h.new fits padded fun r member =>
    (pads r member).2
  have top : disk'.tree.IsDir (root' ++ [tempName suffix]) :=
    ⟨.fresh, by rw [made, mid.put_node _ dir absent, Function.update_self]⟩
  have empty : ∀ q, q ≠ [] → disk'.tree.node (root' ++ [tempName suffix] ++ q) = none := by
    intro q filled
    rw [made, mid.put_node _ dir absent, Function.update_of_ne (by simpa using filled)]
    exact mid.none_of_prefix (List.prefix_append _ _) absent
  let disk₀ : FileSystem := ⟨disk'.tree, none, true, touched, disk'.attempts⟩
  let readerOptions : ArchiveReaderOptions := { options with outputRoot := below root' [] }
  obtain ⟨_, e, extracted, unpacked⟩ :=
    (@wholeStream_extracted _ _ readerOptions _ _ h listed links _
    (fun _ => id) _ whole disk₀ top empty padding.toList fun r member =>
      (pads r (Option.mem_toList.mp member)).1).exists_ran
  have consumed := consumeAll_records (diskOps quietHost) _ _ fit disk₀ extracted
    (same.trans bytes)
  have running : (ArchiveReader.mk [] false e).finished = false := rfl
  obtain ⟨_, r', finished, done, reproduced⟩ :=
    (finish_reproduces h listed unpacked room rfl succeed lists rfl running).exists_ran
  exact ⟨_, r', consumed, finished, done, reproduced⟩

/-- What a writer makes of a tree that it can list, a reader makes the tree of again where nothing
fails: its pieces may be cut anywhere, and the temporary directory may be listed in any order. -/
theorem tree_round_trip (constructed : ArchiveWriter.construct source writerOptions = .ok w)
    (listed : ListsAll source writerOptions w.root)
    (links : LinksLeftOut source writerOptions w.root) (fits : MetadataFits source w)
    (padding : Option ArchiveRecord)
    (pads : ∀ r ∈ padding, r.type = .randomPadding ∧ r.payload.length ≤ kMaxRecordPayloadBytes)
    (output : AllRecords source (w.padded (padding.map serializeRecord)) moments out w')
    (d : ReadyReader source writerOptions w.root) (pieces : List Bytes)
    (same : pieces.flatten = out.flatten) :
    ∃ r r', exec (consumeAll (diskOps quietHost) d.object.options d.object.tempRoot pieces)
    d.start =
        (.ok (), r) ∧ exec d.finish r = (.ok (), r') ∧ r'.finished = true ∧
      Reproduced source writerOptions w.root d.object.options d.base d.root
        r'.extraction.world.tree := by
  have h := construct_writesTree constructed (padding.map serializeRecord)
  cases padding with
  | none =>
    have unpadded : w.trailingPaddingRecord = (none : Option ArchiveRecord).map serializeRecord :=
      construct_unpadded constructed
    exact output.reproduced h listed links fits unpadded pads d _ same
  | some record => exact output.reproduced h listed links fits rfl pads d _ same

noncomputable def anyListing (T : List FileName) (u : DiskTree) : List (List FileName) :=
  open Classical in if there : ∃ paths, Listing u T paths then there.choose else []

theorem anyListing_lists (T : List FileName) (u : DiskTree) (paths : List (List FileName))
    (some : Listing u T paths) : Listing u T (anyListing T u) := by
  have there : ∃ paths, Listing u T paths := ⟨paths, some⟩
  rw [anyListing, dif_pos there]
  exact there.choose_spec

def twoFilesPadding : ArchiveRecord := ⟨.randomPadding, [0, 0]⟩

def twoFilesPadded : ArchiveWriter := twoFilesWriter.padded (some (serializeRecord twoFilesPadding))

theorem allRecords_of_emitted (calls : Nat) (none : (exec (nextRecordBytes (atRest source))
      (emitted (atRest source) calls w).2).1.toOption = some none) :
    AllRecords source w (fun _ => atRest source) (emitted (atRest source) calls w).1
      (emitted (atRest source) calls w).2 := by
  refine ⟨fun _ => rfl, follows_emitted _ calls 0 _, atRest source, ?_⟩
  rcases ran : exec (nextRecordBytes (atRest source)) (emitted (atRest source) calls w).2 with
    ⟨_ | bytes, w''⟩
  · rw [ran] at none
    cases none
  · rw [ran] at none
    obtain rfl : bytes = .none := Option.some.inj none
    exact ⟨w'', rfl⟩

theorem outOnly_free {q : List FileName} (filled : q ≠ []) :
    outOnly.node ([outName] ++ q) = none := by
  have empty : Tree.IsDir (Tree.empty Attributes.fresh : DiskTree) [] := ⟨.fresh, rfl⟩
  rw [outOnly, Tree.put_node _ _ empty rfl, List.nil_append,
    Function.update_of_ne (by simpa using filled)]
  rfl

theorem twoFiles_fit (name : FileName) (other : name ≠ aFile ∧ name ≠ bFile) :
    Fits (twoFiles threeBytes) smallOptions [] outOnly [outName] name where
  other q x filled here _ head := by
    obtain ⟨q, rfl⟩ := List.head?_eq_some_iff.mp head
    cases q with
    | nil =>
      have leaf : [(aFile, (.file ⟨0o644, none⟩ (.regular threeBytes) : SourceNode)),
        (bFile, .file ⟨0o644, none⟩ (.regular threeBytes))].lookup name = some x := here
      rw [List.lookup_cons, List.lookup_cons, beq_false_of_ne other.1,
        beq_false_of_ne other.2] at leaf
      cases leaf
    | cons => cases here
  free q x filled _ _ := .inl (outOnly_free filled)

theorem construct_outOnly : ∃ disk',
    exec (construct quietHost (plainOptions [ascii "out"]) someSuffix) (.start outOnly) =
      (.ok ⟨plainOptions [ascii "out"], below [outName, tempName someSuffix] [],
        .initial (none, true)⟩, disk') ∧
    disk'.tree.erase ([outName] ++ [tempName someSuffix]) = outOnly := by
  rcases ran : exec (construct quietHost (plainOptions [ascii "out"]) someSuffix)
    (.start outOnly) with ⟨outcome, disk'⟩
  have here : outcome = .ok ⟨plainOptions [ascii "out"],
      below [outName, tempName someSuffix] [], .initial (none, true)⟩ :=
    (congrArg Prod.fst ran).symm
  subst here
  obtain ⟨root, mid, -, -, old, dir, absent, made, same⟩ :=
    (construct_spec quietHost _ someSuffix _).of_ok ran
  obtain rfl : [outName] = root :=
    below_injective (congrArg (fun o => o.options.outputRoot) same)
  obtain rfl : mid = outOnly := old rfl
  refine ⟨disk', rfl, erase_of_sameOutside (by simp) absent fun p out => ?_⟩
  rw [made]
  exact (outOnly.put_node_of_ne _ fun there => out (there ▸ List.prefix_refl _)).symm

theorem twoFiles_metadataFits : MetadataFits (twoFiles threeBytes) twoFilesWriter := by
  intro e member m payload found coded
  have one : e = fileEntry aFile ∨ e = fileEntry bFile := by
    simpa [twoFilesWriter, ArchiveWriter.initial] using member
  obtain ⟨-, -, rfl⟩ := (serializeEntryMetadata_ok _ _).mp coded
  rcases one with rfl | rfl
  · rw [metadataFor_twoFiles threeBytes aFile (.inl rfl)] at found
    cases found
    decide
  · rw [metadataFor_twoFiles threeBytes bFile (.inr rfl)] at found
    cases found
    decide

noncomputable def twoFilesReader :
    ReadyReader (twoFiles threeBytes) smallOptions twoFilesWriter.root where
  options := plainOptions [ascii "out"]
  suffix := someSuffix
  before := .start outOnly
  disk := construct_outOnly.choose
  object := ⟨plainOptions [ascii "out"], below [outName, tempName someSuffix] [],
    .initial (none, true)⟩
  root := [outName]
  hooks := ⟨none, none⟩
  listing := anyListing ([outName] ++ [tempName someSuffix])
  opened := construct_outOnly.choose_spec.1
  rooted := rfl
  fits := construct_outOnly.choose_spec.2.symm ▸ twoFiles_fit (tempName someSuffix) (by decide)
  succeed := by rintro hook (rfl | rfl) flush ⟨⟩
  lists := anyListing_lists _

theorem tree_round_trip_twoFiles : ∃ out w' r r',
    AllRecords (twoFiles threeBytes) twoFilesPadded (fun _ => atRest (twoFiles threeBytes)) out w' ∧
    exec (consumeAll (diskOps quietHost) (plainOptions [ascii "out"])
      (below [outName, tempName someSuffix] []) out) twoFilesReader.start = (.ok (), r) ∧
    exec twoFilesReader.finish r = (.ok (), r') ∧ r'.finished = true ∧
    Reproduced (twoFiles threeBytes) smallOptions [] (plainOptions [ascii "out"]) outOnly [outName]
      r'.extraction.world.tree := by
  have output : AllRecords (twoFiles threeBytes) twoFilesPadded _ _ _ :=
    allRecords_of_emitted 9 (by decide +kernel)
  generalize emitted (atRest (twoFiles threeBytes)) 9 twoFilesPadded = run at output
  obtain ⟨r, r', consumed, finished, done, reproduced⟩ := tree_round_trip
    (construct_twoFiles threeBytes) (listsAll_of_whole (fun _ => rfl) _ _)
    (fun included => by cases included) twoFiles_metadataFits
    (some twoFilesPadding) (by rintro _ ⟨⟩; decide) output twoFilesReader run.1 rfl
  have same : twoFilesReader.base = outOnly := construct_outOnly.choose_spec.2
  rw [same] at reproduced
  exact ⟨run.1, run.2, r, r', output, consumed, finished, done, reproduced⟩

end RoundTrip
end Bseal.Archive
