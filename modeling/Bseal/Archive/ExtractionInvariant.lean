import Bseal.Archive.SymlinkContainment

/-! The flags and the counter of extraction, against the records processed so far. While a file
is open the file behind the stream holds the payloads since its entry, whatever the other
handlers do to the tree. -/
namespace Bseal.Archive
open Effect FileTree Platform

/-- The payload of the last `FileEntry`, and those of the `FileBytes` records since. -/
structure FileHistory where
  entry : Option Bytes
  payloads : List Bytes

def FileHistory.next (h : FileHistory) (record : ArchiveRecord) : FileHistory :=
  match record.type with
  | .fileEntry => ⟨some record.payload, []⟩
  | .fileBytes => { h with payloads := h.payloads ++ [record.payload] }
  | _ => h

def fileHistory (records : List ArchiveRecord) : FileHistory :=
  records.foldl FileHistory.next ⟨none, []⟩

structure HasContent (path : OutPath) (p : List FileName) (content : Bytes) (t : DiskTree) :
    Prop where
  leads : lookup t true path = .found p
  file : ∃ a, t.node p = some (.file a content)

/-- The stream writes to the file that `path` leads to, which has this content. -/
def Streams (path : OutPath) (content : Bytes) (w : FileSystem) : Prop :=
  ∃ p, w.stream = some p ∧ HasContent path p content w.tree

section Calls
variable {path : OutPath} {p : List FileName} {content : Bytes} {w : FileSystem}

theorem lookup_sound (t : DiskTree) (follow : Bool) (path : OutPath) :
    (lookup t follow path).Sound t :=
  (lookup_leads (T := []) t t.root follow path).sound t.root

theorem hasContent_of_grows {t u : DiskTree} (grows : t.Grows u)
    (led : (lookup t true path).place = some p)
    (file : ∃ a, u.node p = some (.file a content)) : HasContent path p content u :=
  ⟨resolve_grows grows (file.imp fun _ here => ⟨content, here⟩) _ _ _ led, file⟩

theorem HasContent.grows {t u : DiskTree} (has : HasContent path p content t) (grows : t.Grows u)
    {changed : Bytes} (file : ∃ a, u.node p = some (.file a changed)) :
    HasContent path p changed u :=
  hasContent_of_grows grows (congrArg Outcome.place has.leads) file

theorem HasContent.put {t : DiskTree} (has : HasContent path p content t) {d : List FileName}
    {n : FileName} (x : DiskNode) (absent : t.node (d ++ [n]) = none) :
    HasContent path p content (t.put d n x) := by
  obtain ⟨a, here⟩ := has.file
  refine has.grows (.put t d n x) ⟨a, ?_⟩
  have other : p ≠ d ++ [n] := by
    rintro rfl
    rw [absent] at here
    cases here
  exact (t.put_node_of_ne x other).trans here

theorem grows_setAttributes (t : DiskTree) (q : List FileName) (f : Attributes → Attributes) :
    t.Grows (t.modify q (setAttributes f) (setAttributes_isDir f)) :=
  .modify t q _ (fun a content => ⟨f a, content, rfl⟩) fun _ => rfl

theorem grows_setContent (t : DiskTree) (q : List FileName) (f : Bytes → Bytes) :
    t.Grows (t.modify q (setContent f) (setContent_isDir f)) :=
  .modify t q _ (fun a content => ⟨a, f content, rfl⟩) fun _ => rfl

theorem HasContent.setAttributes {t : DiskTree} (has : HasContent path p content t)
    (q : List FileName) (f : Attributes → Attributes) :
    HasContent path p content (t.modify q (setAttributes f) (setAttributes_isDir f)) := by
  refine has.grows (grows_setAttributes t q f) ?_
  obtain ⟨a, here⟩ := has.file
  rw [Tree.modify_node]
  by_cases same : p = q
  · subst same
    rw [Function.update_self, here]
    exact ⟨f a, rfl⟩
  · rw [Function.update_of_ne same]
    exact ⟨a, here⟩

structure Leaves (path : OutPath) (p : List FileName) (content : Bytes)
    (stream : Option (List FileName)) (w : FileSystem) : Prop where
  has : HasContent path p content w.tree
  stream : w.stream = stream

variable {stream : Option (List FileName)} (host : Host)

theorem Leaves.tick (l : Leaves path p content stream w) : Leaves path p content stream w.tick :=
  ⟨l.has, l.stream⟩

theorem Leaves.status (l : Leaves path p content stream w) (dest : OutPath) :
    Keeps (Leaves path p content stream) (FileSystem.status host dest) w :=
  (ends_status host dest w).mono (fun _ _ done => done.1 ▸ l.tick) fun _ _ => False.elim

theorem Leaves.mkdir (l : Leaves path p content stream w) (dest : OutPath) :
    Keeps (Leaves path p content stream) (FileSystem.mkdir host dest) w := by
  refine keeps_call host l.tick (.get_bind ?_)
  have sound := lookup_sound w.tick.tree false dest
  split
  · next d n missing =>
    rw [missing] at sound
    exact .set_bind _ (.of_pure _ ⟨l.tick.has.put _ sound.2, l.stream⟩)
  · exact .of_pure _ l.tick
  · exact .of_throw _ l.tick
  · exact .of_throw _ l.tick

theorem Leaves.makeDirectory (l : Leaves path p content stream w) (dest : OutPath) :
    Keeps (Leaves path p content stream) (FileSystem.createDirectory host dest) w := by
  refine (l.mkdir host dest).bind fun created w' l' => ?_
  split
  · exact .of_pure _ l'
  · exact (l'.status host _).bind fun st w'' l'' => .of_throwIf l''

theorem Leaves.createMissing (l : Leaves path p content stream w) (dest : List Bytes) :
    Keeps (Leaves path p content stream) (FileSystem.createMissing host dest) w := by
  induction dest generalizing w with
  | nil => exact .of_pure _ l
  | cons component up ih =>
    rw [FileSystem.createMissing]
    refine (l.status host _).bind fun st w' l' => ?_
    have make : ∀ u, Leaves path p content stream u → Keeps (Leaves path p content stream)
        (if component = dot ∨ component = dotDot then pure ()
          else FileSystem.createDirectory host (component :: up).reverse) u := by
      intro u lu
      split
      · exact .of_pure _ lu
      · exact lu.makeDirectory host _
    cases st with
    | other => exact .of_throw _ l'
    | notFound => exact (ih l').bind fun _ => make
    | directory => exact make w' l'
    | unknown => exact make w' l'

theorem Leaves.createDirectories (l : Leaves path p content stream w) (dest : OutPath) :
    Keeps (Leaves path p content stream) (FileSystem.createDirectories host dest) w := by
  unfold FileSystem.createDirectories
  refine (l.status host dest).bind fun st w' l' => ?_
  split
  · exact .of_pure _ l'
  · exact .of_throw _ l'
  · exact .of_throw _ l'
  · exact keeps_createBehindDots host (fun _ l => l.tick)
      (fun rest _ _ l => l.createMissing host rest) l'

theorem Leaves.symlink (l : Leaves path p content stream w) (target : Bytes) (dest : OutPath) :
    Keeps (Leaves path p content stream) (FileSystem.symlink host target dest) w := by
  refine keeps_call host l.tick (.throwIf_bind l.tick fun _ => .get_bind ?_)
  have sound := lookup_sound w.tick.tree false dest
  split
  · next d n missing =>
    rw [missing] at sound
    exact .of_set _ ⟨l.tick.has.put _ sound.2, l.stream⟩
  · exact .of_throw _ l.tick
  · exact .of_throw _ l.tick
  · exact .of_throw _ l.tick

theorem Leaves.changeAttributes (l : Leaves path p content stream w) (dest : OutPath)
    (f : Attributes → Attributes) :
    Keeps (Leaves path p content stream) (FileSystem.changeAttributes host dest f) w := by
  refine keeps_call host l.tick (.get_bind ?_)
  split
  · next q found => exact .of_set _ ⟨l.tick.has.setAttributes q f, l.stream⟩
  · exact .of_throw _ l.tick
  · exact .of_throw _ l.tick
  · exact .of_throw _ l.tick

theorem openFile_streams (path : OutPath) (w : FileSystem) :
    Ends (FileSystem.openFile host path) w (fun _ w' => Streams path [] w') (fun _ _ => True) := by
  unfold FileSystem.openFile FileSystem.call
  rw [ends_get_bind, ends_set_bind]
  have leads := lookup_leads (T := []) w.tick.tree w.tick.tree.root true path
  have sound := lookup_sound w.tick.tree true path
  split
  · trivial
  · rw [ends_get_bind]
    change Leads readTarget w.tick.tree true [] (osSteps path)
      (lookup w.tick.tree true path) at leads
    split
    · next d n missing =>
      rw [missing] at sound
      have there : (w.tick.tree.put d n (.file .fresh [])).node (d ++ [n]) =
          some (.file .fresh []) :=
        (congrFun (w.tree.put_node _ sound.1 sound.2) _).trans (Function.update_self ..)
      exact ⟨d ++ [n], rfl, hasContent_of_grows (.put w.tick.tree d n _)
        (congrArg Outcome.place missing) ⟨.fresh, there⟩⟩
    · next q found =>
      rw [ends_throwIf_bind]
      split
      · trivial
      · next leaf =>
        rw [found] at sound
        refine ⟨q, rfl, hasContent_of_grows (grows_setContent w.tick.tree q fun _ => [])
          (congrArg Outcome.place found) ?_⟩
        rcases here : w.tree.node q with _ | a | ⟨a, content⟩ | target
        · exact absurd here sound
        · exact absurd ⟨a, here⟩ leaf
        · refine ⟨a, (Function.update_self ..).trans ?_⟩
          change Option.map _ (w.tree.node q) = _
          rw [here]
          rfl
        · exact absurd here (leads.not_link w.tick.tree.root rfl found target)
    · trivial
    · trivial

theorem writeFile_streams (streams : Streams path content w) (bytes : Bytes) :
    Ends (FileSystem.writeFile host bytes) w (fun _ w' => Streams path (content ++ bytes) w')
      (fun _ _ => True) := by
  obtain ⟨p, stream, has⟩ := streams
  obtain ⟨a, here⟩ := has.file
  unfold FileSystem.writeFile
  rw [ends_get_bind, stream]
  split
  · next q opened good =>
    obtain rfl := Option.some.inj opened
    split
    · refine ⟨p, stream, has.grows (grows_setContent w.tree p (· ++ bytes))
        ⟨a, (Function.update_self ..).trans ?_⟩⟩
      rw [here]
      rfl
    · trivial
  · trivial

theorem closeFile_keeps (has : HasContent path p content w.tree) :
    Keeps (fun w => HasContent path p content w.tree) (FileSystem.closeFile host) w :=
  .get_bind (.set_bind _ (.of_throwIf has))

end Calls

/-- An open file against the records since its entry. -/
structure FileOpen (tempRoot : OutPath) (h : FileHistory) (e : Extraction FileSystem) : Prop where
  declared : ∃ entry, h.entry = some entry ∧ parseEntryMetadata entry = .ok e.currentFileMetadata
  counted : e.currentFileWritten.toNat = h.payloads.flatten.length
  within : e.currentFileWritten ≤ e.currentFileMetadata.originalSize
  streams : ∃ path, makeSafeOutputPath tempRoot e.currentFileMetadata.relativePath = .ok path ∧
    Streams path h.payloads.flatten e.world

structure ExtractionInvariant (tempRoot : OutPath) (h : FileHistory)
    (e : Extraction FileSystem) : Prop where
  ended : e.archiveEndSeen = true → e.archiveBeginSeen = true ∧ e.currentFileOpen = false
  opened : e.currentFileOpen = true → FileOpen tempRoot h e

section Records
variable (host : Host) (options : ArchiveReaderOptions) {tempRoot : OutPath}
  {h : FileHistory} {e e' : Extraction FileSystem}

theorem FileOpen.leaves (f : FileOpen tempRoot h e) {op : Effect String FileSystem Unit}
    {w : FileSystem}
    (keeps : ∀ path p content, Leaves path p content (some p) e.world →
      Keeps (Leaves path p content (some p)) op e.world)
    (ran : exec op e.world = (.ok (), w)) : FileOpen tempRoot h { e with world := w } := by
  obtain ⟨path, safe, p, stream, has⟩ := f.streams
  have left := Ends.of_ok (keeps path p _ ⟨has, stream⟩) ran
  exact ⟨f.declared, f.counted, f.within, path, safe, p, left.stream, left.has⟩

theorem FileOpen.createDirectory (f : FileOpen tempRoot h e) (m : EntryMetadata)
    (done : exec (createDirectory (diskOps host) tempRoot m) e = (.ok (), e')) :
    FileOpen tempRoot h e' := by
  obtain ⟨-, -, path, -, w, made, rfl⟩ := (createDirectory_ok _ _ _ _ m).mp done
  have f' := f.leaves (fun _ _ _ l => l.createDirectories host path) made
  exact ⟨f'.declared, f'.counted, f'.within, f'.streams⟩

theorem FileOpen.createSymlink (f : FileOpen tempRoot h e) (m : EntryMetadata)
    (done : exec (createSymlink (diskOps host) options tempRoot m) e = (.ok (), e')) :
    FileOpen tempRoot h e' := by
  obtain ⟨-, -, -, -, path, -, w, made, w', linked, rfl⟩ := (createSymlink_ok _ _ _ _ _ m).mp done
  have parent := f.leaves (fun _ _ _ l => l.createDirectories host path.parent) made
  exact parent.leaves (fun _ _ _ l => l.symlink host m.symlinkTargetUtf8 path) linked

theorem beginFile_opens (payload : Bytes) (m : EntryMetadata)
    (parsed : parseEntryMetadata payload = .ok m)
    (done : exec (beginFile (diskOps host) tempRoot m) e = (.ok (), e')) :
    FileOpen tempRoot ⟨some payload, []⟩ e' := by
  obtain ⟨-, -, -, path, safe, w, -, w', opened, rfl⟩ := (beginFile_ok _ _ _ _ m).mp done
  refine ⟨⟨payload, rfl, parsed⟩, rfl, ?_, path, safe, ?_⟩
  · rw [UInt64.le_iff_toNat_le]
    exact Nat.zero_le _
  · obtain ⟨u, ran, rfl⟩ := (exec_zoom_ok _ _ _ _ _ _ _).mp opened
    have empty := Ends.of_ok (openFile_streams host path w) ran
    exact empty

/-- The remaining size never wraps around, so the guard bounds what is written. -/
theorem FileOpen.writeFileBytes (f : FileOpen tempRoot h e) (bytes : Bytes)
    (done : exec (writeFileBytes (diskOps host) bytes) e = (.ok (), e')) :
    FileOpen tempRoot { h with payloads := h.payloads ++ [bytes] } e' := by
  obtain ⟨-, fits, w, wrote, rfl⟩ := (writeFileBytes_ok _ _ _ bytes).mp done
  have len := payload_toNat fits
  rw [UInt64.toNat_sub_of_le _ _ f.within] at fits
  have bound := e.currentFileMetadata.originalSize.toNat_lt
  have written := UInt64.le_iff_toNat_le.mp f.within
  have total : (e.currentFileWritten + UInt64.ofNat bytes.length).toNat =
      e.currentFileWritten.toNat + bytes.length := by
    rw [UInt64.toNat_add, len, Nat.mod_eq_of_lt (by omega)]
  have flat : (h.payloads ++ [bytes]).flatten = h.payloads.flatten ++ bytes := by simp
  refine ⟨f.declared, ?_, ?_, ?_⟩
  · change (e.currentFileWritten + UInt64.ofNat bytes.length).toNat = _
    rw [total, flat, List.length_append, f.counted]
  · change e.currentFileWritten + UInt64.ofNat bytes.length ≤ e.currentFileMetadata.originalSize
    rw [UInt64.le_iff_toNat_le, total]
    omega
  · obtain ⟨path, safe, streams⟩ := f.streams
    have longer := Ends.of_ok (writeFile_streams host streams bytes) wrote
    rw [flat]
    exact ⟨path, safe, longer⟩

theorem fileOp_content {path : OutPath} {p : List FileName} {content : Bytes}
    (has : HasContent path p content e.world.tree) (context : String) (dest : OutPath)
    (f : Attributes → Attributes) :
    Keeps (fun e => HasContent path p content e.world.tree)
      (fileOp context (FileSystem.changeAttributes host dest f)) e :=
  .of_zoom <| (Leaves.changeAttributes host ⟨has, rfl⟩ dest f).mono fun _ left => left.has

theorem applyMetadataToPath_content {path : OutPath} {p : List FileName} {content : Bytes}
    (has : HasContent path p content e.world.tree) (dest : OutPath) (m : EntryMetadata) :
    Keeps (fun e => HasContent path p content e.world.tree)
      (applyMetadataToPath (diskOps host) options dest m) e := by
  have permissions : Keeps (fun e => HasContent path p content e.world.tree)
      (restorePermissions (diskOps host) options dest m) e := by
    unfold restorePermissions
    split
    · exact fileOp_content host has _ dest _
    · exact .of_pure _ has
  refine permissions.bind fun _ e' has' => ?_
  unfold restoreTimestamps
  split
  · exact fileOp_content host has' _ dest _
  · exact .of_pure _ has'

/-- The entry's path ends with the payloads, of the declared length. -/
theorem FileOpen.endFile (f : FileOpen tempRoot h e)
    (done : exec (endFile (diskOps host) options tempRoot) e = (.ok (), e')) :
    h.payloads.flatten.length = e.currentFileMetadata.originalSize.toNat ∧
      ∃ path p, makeSafeOutputPath tempRoot e.currentFileMetadata.relativePath = .ok path ∧
        e.world.stream = some p ∧ HasContent path p h.payloads.flatten e'.world.tree := by
  obtain ⟨-, whole, w, closed, dest, -, w', restored, rfl⟩ := (endFile_ok _ _ _ _ _).mp done
  obtain ⟨path, safe, p, stream, has⟩ := f.streams
  refine ⟨?_, path, p, safe, stream, ?_⟩
  · rw [← f.counted, whole]
  · have kept := Ends.of_ok (closeFile_keeps host has) closed
    have keeps : Keeps (fun e => HasContent path p h.payloads.flatten e.world.tree)
        (applyMetadataToPath (diskOps host) options dest e.currentFileMetadata)
        { e with world := w } := applyMetadataToPath_content host options kept dest _
    have final := Ends.of_ok keeps restored
    exact final

theorem ExtractionInvariant.processRecord (inv : ExtractionInvariant tempRoot h e)
    (r : ArchiveRecord)
    (done : exec (processRecord (diskOps host) options tempRoot r) e = (.ok (), e')) :
    ExtractionInvariant tempRoot (h.next r) e' := by
  unfold Archive.processRecord handleRecord at done
  rw [exec_get_bind, exec_throwIf_bind_ok] at done
  obtain ⟨running, done⟩ := done
  unfold FileHistory.next
  cases type : r.type <;> rw [type] at done running <;> simp only at done running ⊢
  case archiveBegin =>
    obtain ⟨-, -, rfl⟩ := (beginArchive_ok _ _ _).mp done
    refine ⟨fun ended => ⟨rfl, (inv.ended ended).2⟩, fun opened => ?_⟩
    have f := inv.opened opened
    exact ⟨f.declared, f.counted, f.within, f.streams⟩
  case directoryEntry =>
    obtain ⟨m, -, made⟩ := (exec_lift_bind_ok _ _ _ _ _).mp done
    obtain ⟨-, -, path, -, w, -, rfl⟩ := (createDirectory_ok _ _ _ _ m).mp made
    exact ⟨inv.ended, fun opened => (inv.opened opened).createDirectory host m made⟩
  case fileEntry =>
    obtain ⟨m, parsed, opening⟩ := (exec_lift_bind_ok _ _ _ _ _).mp done
    have opens := beginFile_opens host r.payload m parsed opening
    obtain ⟨-, -, -, path, -, w, -, w', -, rfl⟩ := (beginFile_ok _ _ _ _ m).mp opening
    exact ⟨fun ended => absurd ⟨ended, by decide⟩ running, fun _ => opens⟩
  case fileBytes =>
    have opened := ((writeFileBytes_ok _ _ _ _).mp done).1
    have writes := (inv.opened opened).writeFileBytes host r.payload done
    obtain ⟨-, -, w, -, rfl⟩ := (writeFileBytes_ok _ _ _ _).mp done
    exact ⟨inv.ended, fun _ => writes⟩
  case fileEnd =>
    obtain ⟨opened, -, w, -, path, -, w', -, rfl⟩ := (endFile_ok _ _ _ _ _).mp done
    exact ⟨fun ended => absurd ⟨ended, by decide⟩ running, fun open_ => by cases open_⟩
  case symlinkEntry =>
    obtain ⟨m, -, made⟩ := (exec_lift_bind_ok _ _ _ _ _).mp done
    obtain ⟨-, -, -, -, path, -, w, -, w', -, rfl⟩ := (createSymlink_ok _ _ _ _ _ m).mp made
    exact ⟨inv.ended, fun opened => (inv.opened opened).createSymlink host options m made⟩
  case archiveEnd =>
    obtain ⟨begun, closed, rfl⟩ := (endArchive_ok _ _).mp done
    exact ⟨fun _ => ⟨begun, closed⟩, fun opened => by cases closed.symm.trans opened⟩
  case randomPadding =>
    obtain ⟨-, rfl⟩ := (exec_throwIf_ok _ _ _ _ _).mp done
    exact inv

theorem ExtractionInvariant.processRecords (inv : ExtractionInvariant tempRoot h e)
    (records : List ArchiveRecord)
    (done : exec (processRecords (diskOps host) options tempRoot records) e = (.ok (), e')) :
    ExtractionInvariant tempRoot (records.foldl FileHistory.next h) e' := by
  induction records generalizing h e with
  | nil =>
    obtain ⟨-, rfl⟩ := (exec_pure_ok _ _ _ _).mp done
    exact inv
  | cons r records ih =>
    obtain ⟨_, middle, step, rest⟩ := (exec_bind_ok _ _ _ _ _).mp done
    exact ih (inv.processRecord host options r step) rest

/-- After `ArchiveEnd` a record changes nothing, padding or not. -/
theorem processRecord_ended (ended : e.archiveEndSeen = true) (r : ArchiveRecord) :
    (exec (Archive.processRecord (diskOps host) options tempRoot r) e).2 = e := by
  unfold Archive.processRecord
  rw [exec_get_bind, exec_throwIf_bind]
  split
  · rfl
  · next padding =>
    have type : r.type = .randomPadding := by
      by_contra other
      exact padding ⟨ended, other⟩
    rw [handleRecord, type, ended]
    rfl

theorem processRecords_ended (ended : e.archiveEndSeen = true) (more : List ArchiveRecord) :
    (exec (Archive.processRecords (diskOps host) options tempRoot more) e).2 = e := by
  induction more with
  | nil => rfl
  | cons r more ih =>
    have same : (exec (Archive.processRecord (diskOps host) options tempRoot r) e).2 = e :=
      processRecord_ended host options ended r
    rw [Archive.processRecords, exec_bind]
    rcases ran : exec (Archive.processRecord (diskOps host) options tempRoot r) e with ⟨x | a, e''⟩
    · rw [ran] at same
      exact same
    · rw [ran] at same
      obtain rfl : e'' = e := same
      exact ih

theorem finishChecks_stillOpen {r : ArchiveReader FileSystem}
    (stillOpen : finishChecks r =
      .error (invalid "archive ended while a file was still open")) :
    r.extraction.archiveEndSeen = true ∧ r.extraction.currentFileOpen = true := by
  unfold finishChecks at stillOpen
  split_ifs at stillOpen <;> simp_all [invalid]

/-- What extraction's flags and its counter say in every state that records reach without an
exception: the flags agree, the counter is what was written to the open file, an accepted
`FileEnd` leaves the entry's path with the payloads since the entry, and an ended archive stays
as it is. -/
theorem extraction_invariant (tempRoot : OutPath) (world : FileSystem)
    (records : List ArchiveRecord) (e : Extraction FileSystem)
    (ran : exec (processRecords (diskOps host) options tempRoot records) (.initial world) =
      (.ok (), e)) :
    (e.archiveEndSeen = true → e.archiveBeginSeen = true ∧ e.currentFileOpen = false) ∧
    (e.currentFileOpen = true → FileOpen tempRoot (fileHistory records) e) ∧
    (∀ last e', last.type = .fileEnd →
      exec (processRecord (diskOps host) options tempRoot last) e = (.ok (), e') →
      ∃ entry m path p, (fileHistory records).entry = some entry ∧
        parseEntryMetadata entry = .ok m ∧ makeSafeOutputPath tempRoot m.relativePath = .ok path ∧
        (fileHistory records).payloads.flatten.length = m.originalSize.toNat ∧
        e.world.stream = some p ∧
        HasContent path p (fileHistory records).payloads.flatten e'.world.tree) ∧
    (e.archiveEndSeen = true → ∀ more,
      (exec (processRecords (diskOps host) options tempRoot more) e).2 = e) ∧
    ∀ pending finished, finishChecks ⟨pending, finished, e⟩ ≠
      .error (invalid "archive ended while a file was still open") := by
  have start : ExtractionInvariant tempRoot ⟨none, []⟩ (.initial world) :=
    ⟨(fun ended => by cases ended), fun opened => by cases opened⟩
  have inv : ExtractionInvariant tempRoot (fileHistory records) e :=
    start.processRecords host options records ran
  refine ⟨inv.ended, inv.opened, fun last e' type done => ?_,
    fun ended more => processRecords_ended host options ended more, fun pending finished => ?_⟩
  · have step : exec (endFile (diskOps host) options tempRoot) e = (.ok (), e') := by
      unfold Archive.processRecord handleRecord at done
      rw [exec_get_bind, exec_throwIf_bind_ok, type] at done
      exact done.2
    have f := inv.opened ((endFile_ok _ _ _ _ _).mp step).1
    obtain ⟨entry, here, parsed⟩ := f.declared
    obtain ⟨whole, path, p, safe, stream, has⟩ := f.endFile host options step
    exact ⟨entry, _, path, p, here, parsed, safe, whole, stream, has⟩
  · intro stillOpen
    obtain ⟨ended, opened⟩ := finishChecks_stillOpen stillOpen
    cases (inv.ended ended).2.symm.trans opened

end Records

def twoParts : List ArchiveRecord :=
  [beginRecord,
    ⟨.fileEntry, encodeEntryMetadata { entryNamed .regularFile "a" with originalSize := 2 }⟩,
    ⟨.fileBytes, ascii "x"⟩, ⟨.directoryEntry, encodeEntryMetadata (entryNamed .directory "b")⟩,
    ⟨.fileBytes, ascii "y"⟩, ⟨.fileEnd, []⟩, ⟨.archiveEnd, []⟩]

theorem extraction_invariant_twoParts : ∃ e,
    exec (processRecords (diskOps quietHost) linksOptions (below [outName, tmpName] []) twoParts)
      (.initial (.start outTree)) = (.ok (), e) ∧
    e.archiveBeginSeen = true ∧ e.currentFileOpen = false := by
  have accepted : (exec (processRecords (diskOps quietHost) linksOptions
      (below [outName, tmpName] []) twoParts) (.initial (.start outTree))).1.isOk = true := by
    decide +kernel
  have ended : (exec (processRecords (diskOps quietHost) linksOptions
      (below [outName, tmpName] []) twoParts) (.initial (.start outTree))).2.archiveEndSeen =
        true := by
    decide +kernel
  rcases ran : exec (processRecords (diskOps quietHost) linksOptions
      (below [outName, tmpName] []) twoParts) (.initial (.start outTree)) with ⟨x | u, e⟩
  · rw [ran] at accepted
    cases accepted
  · rw [ran] at ended
    exact ⟨e, rfl, (extraction_invariant quietHost linksOptions _ _ twoParts e ran).1 ended⟩

end Bseal.Archive
