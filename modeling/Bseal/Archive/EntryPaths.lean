import Bseal.Archive.EntryWalk
import Bseal.Archive.PlannedSize
import Bseal.Archive.RecordCodec

/-! Which paths the entry records of a whole stream carry: an entry's own path, unless the entry is
a link that leads somewhere. -/
namespace Bseal.Archive
open Effect FileTree

def RecordType.isEntry : RecordType → Bool
  | .directoryEntry | .fileEntry | .symlinkEntry => true
  | _ => false

def entryKey : Bytes → Option (RecordType × Bytes)
  | [] => none
  | code :: bytes =>
    match recordType? code, parseEntryMetadata (bytes.drop 8) with
    | some type, .ok m => if type.isEntry then some (type, m.relativePath) else none
    | _, _ => none

def entryKeys (out : List Bytes) : List (RecordType × Bytes) := out.filterMap entryKey

def ownPath (names : List FileName) : Bytes := relativeText (names.map Subtype.val)

/-- What belongs into the archive. -/
def Included (options : ArchiveWriterOptions) (x : SourceNode) : Prop :=
  SourceNode.type x ≠ .special ∧
    (SourceNode.type x = .symlink → options.includeSymlinks = true)

/-- One record for each entry, under its own path, and directories before what is in them. -/
structure OnePathEach (t : SourceTree) (options : ArchiveWriterOptions) (root : List FileName)
    (out : List Bytes) : Prop where
  distinct : ((entryKeys out).map Prod.snd).Nodup
  own : ∀ k, k ∈ entryKeys out ↔ ∃ names x, names ≠ [] ∧ t.tree.node (root ++ names) = some x ∧
    Included options x ∧ k = ((SourceNode.type x).recordType, ownPath names)
  parentsFirst : ∀ front k back, entryKeys out = front ++ k :: back →
    ∀ names above, k.2 = ownPath names → names ≠ [] → above ≠ [] → above <+: names →
      above ≠ names → (.directoryEntry, ownPath above) ∈ front

/-- The iterator reaches everything that belongs into the archive. -/
def ListsAll (t : SourceTree) (options : ArchiveWriterOptions) (root : List FileName) : Prop :=
  ∀ names x, names ≠ [] → t.tree.node (root ++ names) = some x → Included options x →
    root ++ names ∈ (t.iterate (t.height + 1) root).1

theorem listsAll_of_whole {t : SourceTree} (readable : ∀ d, t.reading d = .whole)
    (options : ArchiveWriterOptions) (root : List FileName) : ListsAll t options root := by
  intro names x filled here _
  have there : t.tree.node (root ++ names) ≠ none := by rw [here]; exact Option.some_ne_none x
  have tall := t.bounded _ there
  rw [List.length_append] at tall
  rw [iterate_of_whole t readable]
  exact (mem_walk t _ _ _).mpr ⟨names, filled, by omega, rfl, there⟩

def Dangles (t : SourceTree) (p : List FileName) : Prop :=
  ∀ q, lookup t.tree true (below p []) ≠ .found q

section Texts

theorem segments_of_names (names : List FileName) : ∀ c ∈ names.map Subtype.val, IsSegment c := by
  intro c member
  exact isSegment_of_mem_names (by rwa [below, List.append_nil])

theorem ownPath_injective {names names' : List FileName} (filled : names ≠ [])
    (filled' : names' ≠ []) (same : ownPath names = ownPath names') : names = names' := by
  refine List.map_injective_iff.mpr Subtype.val_injective ?_
  exact relativeText_injective (fun none => filled (List.map_eq_nil_iff.mp none))
    (fun none => filled' (List.map_eq_nil_iff.mp none)) (segments_of_names names)
    (segments_of_names names') same

theorem genericString_ownPath {names : List FileName} (filled : names ≠ []) :
    genericString (ownPath names) = ownPath names :=
  genericString_relativeText (fun none => filled (List.map_eq_nil_iff.mp none))
    (segments_of_names names)

theorem entryKey_serialize (type : RecordType) (payload : Bytes) :
    entryKey (serializeRecord ⟨type, payload⟩) =
      match parseEntryMetadata payload with
      | .ok m => if type.isEntry then some (type, m.relativePath) else none
      | .error _ => none := by
  have bytes : serializeRecord ⟨type, payload⟩ =
      type.code :: (ByteCodec.toLE 8 payload.length ++ payload) := by
    rw [serializeRecord, putU8_code]
    rfl
  rw [bytes, entryKey, recordType?_code, List.drop_left' (ByteCodec.toLE_length 8 _)]
  rcases parseEntryMetadata payload with _ | m <;> rfl

theorem entryKey_other {type : RecordType} (other : type.isEntry = false) (payload : Bytes) :
    entryKey (serializeRecord ⟨type, payload⟩) = none := by
  rw [entryKey_serialize]
  rcases parseEntryMetadata payload with _ | m
  · rfl
  · simp only [other]
    rfl

end Texts

section Entries
variable {t : SourceTree} {options : ArchiveWriterOptions} {w : ArchiveWriter}
  {e : DirectoryEntry} {m : EntryMetadata}

def pathOf (w : ArchiveWriter) (t : SourceTree) (e : DirectoryEntry) : Bytes :=
  match w.metadataFor t e with
  | .ok m => m.relativePath
  | .error _ => []

def keyOf (w : ArchiveWriter) (t : SourceTree) (e : DirectoryEntry) : RecordType × Bytes :=
  (e.type.recordType, pathOf w t e)

theorem isEntry_of_gives (gives : ¬w.Skips e) : e.type.recordType.isEntry = true := by
  rcases kind : e.type with _ | _ | _ | _
  · rfl
  · rfl
  · rfl
  · exact absurd (.inl kind) gives

theorem nodeMetadata_path {relative : Bytes} {x : SourceNode}
    (made : nodeMetadata options relative x = .ok m) : m.relativePath = relative := by
  rcases x with _ | ⟨_, _ | _⟩ | _ <;> cases made <;> rfl

theorem sortKey_of_metadataFor (found : w.metadataFor t e = .ok m) :
    sortKey t w.root e = .ok m.relativePath := by
  obtain ⟨names, x, relative, -, -, made⟩ := (w.metadataFor_ok t e m).mp found
  rw [sortKey, relative, nodeMetadata_path made]

theorem nodeMetadata_encodable {relative : Bytes} {x : SourceNode} (safe : MetadataPath relative)
    (normal : genericString relative = relative)
    (made : nodeMetadata options relative x = .ok m) {payload : Bytes}
    (coded : serializeEntryMetadata m = .ok payload) :
    m.relativePath = relative ∧ parseEntryMetadata payload = .ok m := by
  have path := nodeMetadata_path made
  obtain ⟨short, targetShort, rfl⟩ := (serializeEntryMetadata_ok _ _).mp coded
  rw [path, normal] at short ⊢
  refine ⟨rfl, (parseEntryMetadata_ok _ _).mpr ⟨⟨?_, ?_, targetShort, ?_, ?_⟩, ?_⟩⟩
  · exact path ▸ safe
  · exact path ▸ short
  · intro kind
    rcases x with _ | ⟨_, _ | _⟩ | _ <;> cases made
    · rfl
    · rfl
    · exact absurd rfl kind
  · intro kind
    rcases x with _ | ⟨_, _ | _⟩ | _ <;> cases made
    · rfl
    · exact absurd rfl kind
    · rfl
  · rw [← path]

theorem parent_of_walked {root : List FileName} (walked : e ∈ walkedEntries t options root) :
    ∃ d n, e.path = d ++ [n] ∧ t.tree.IsDir d := by
  obtain ⟨⟨names, filled, below⟩, ⟨x, here, -⟩, -⟩ := of_mem_walkedEntries t walked
  obtain ⟨front, n, rfl⟩ := (List.eq_nil_or_concat' names).resolve_left filled
  rw [← List.append_assoc] at below
  refine ⟨root ++ front, n, below, t.tree.closed _ n ?_⟩
  rw [← below, here]
  exact Option.some_ne_none x

/-- The path of an entry's record is that of what the entry leads to, or of a link that leads to
nothing. -/
theorem metadataFor_entry (top : t.tree.IsDir w.root)
    (walked : e ∈ walkedEntries t options w.root) (found : w.metadataFor t e = .ok m)
    {payload : Bytes} (coded : serializeEntryMetadata m = .ok payload) :
    ∃ q, q ≠ [] ∧ m.relativePath = ownPath q ∧ parseEntryMetadata payload = .ok m ∧
      (lookup t.tree true (below e.path []) = .found (w.root ++ q) ∨
        Dangles t e.path ∧ e.path = w.root ++ q) := by
  obtain ⟨d, n, path, dir⟩ := parent_of_walked walked
  obtain ⟨names, x, relative, safe, -, made⟩ := (w.metadataFor_ok t e m).mp found
  rw [path, relativeTo_entry dir n top, ← path] at relative
  have carries : ∀ p, names = lexicallyRelative (below p []) (below w.root []) →
      ∃ q, q ≠ [] ∧ p = w.root ++ q ∧ m.relativePath = ownPath q ∧
        parseEntryMetadata payload = .ok m := by
    rintro p rfl
    obtain ⟨q, filled, inner, same⟩ := under_of_metadataPath p safe
    rw [same] at safe made
    obtain ⟨own, parsed⟩ := nodeMetadata_encodable safe (genericString_ownPath filled) made coded
    exact ⟨q, filled, inner, own, parsed⟩
  rcases leads : lookup t.tree true (below e.path []) with p | _ | _ | _ <;> rw [leads] at relative
  · obtain ⟨q, filled, rfl, own, parsed⟩ := carries p (Except.ok.inj relative).symm
    exact ⟨q, filled, own, parsed, .inl rfl⟩
  · obtain ⟨q, filled, inner, own, parsed⟩ := carries e.path (Except.ok.inj relative).symm
    exact ⟨q, filled, own, parsed,
      .inr ⟨fun p there => (by rw [leads] at there; cases there), inner⟩⟩
  · obtain ⟨q, filled, inner, own, parsed⟩ := carries e.path (Except.ok.inj relative).symm
    exact ⟨q, filled, own, parsed,
      .inr ⟨fun p there => (by rw [leads] at there; cases there), inner⟩⟩
  · cases relative

theorem leads_of_not_link {root : List FileName} (walked : e ∈ walkedEntries t options root)
    (kind : e.type ≠ .symlink) : lookup t.tree true (below e.path []) = .found e.path := by
  obtain ⟨d, n, path, dir⟩ := parent_of_walked walked
  obtain ⟨-, ⟨x, here, same⟩, -⟩ := of_mem_walkedEntries t walked
  rw [same] at kind
  rw [path] at here ⊢
  rw [lookup_entry dir, here]
  rcases x with _ | _ | _
  · rfl
  · rfl
  · exact absurd rfl kind

theorem entryKeys_append (front back : List Bytes) :
    entryKeys (front ++ back) = entryKeys front ++ entryKeys back := List.filterMap_append

theorem entryKeys_of_emits {P : Moment → Prop} (at_ : ∀ now, P now → now.tree = t)
    (top : t.tree.IsDir w.root) (walked : e ∈ walkedEntries t options w.root)
    {records : List ArchiveRecord} (emits : Emits P w e records) :
    entryKeys (records.map serializeRecord) = (if w.Skips e then [] else [keyOf w t e]) ∧
      (¬w.Skips e → ∃ m payload, w.metadataFor t e = .ok m ∧
        serializeEntryMetadata m = .ok payload) := by
  have head : ∀ {m payload}, ¬w.Skips e → w.metadataFor t e = .ok m →
      serializeEntryMetadata m = .ok payload →
      entryKey (serializeRecord ⟨e.type.recordType, payload⟩) = some (keyOf w t e) := by
    intro m payload gives found coded
    obtain ⟨-, -, -, parsed, -⟩ := metadataFor_entry top walked found coded
    rw [entryKey_serialize, parsed, keyOf, pathOf, found]
    exact if_pos (isEntry_of_gives gives)
  cases emits with
  | skipped skips => exact ⟨(if_pos skips).symm, fun gives => absurd skips gives⟩
  | single gives leaf met found coded =>
    rw [at_ _ met] at found
    refine ⟨?_, fun _ => ⟨_, _, found, coded⟩⟩
    rw [if_neg gives, entryKeys, List.map_singleton,
      List.filterMap_cons_some (head gives found coded), List.filterMap_nil]
  | @file now m payload body isFile met found coded =>
    rw [at_ _ met] at found
    have gives : ¬w.Skips e := by
      rintro (special | ⟨link, -⟩)
      · rw [isFile] at special
        cases special
      · rw [isFile] at link
        cases link
    refine ⟨?_, fun _ => ⟨_, _, found, coded⟩⟩
    have first : entryKey (serializeRecord ⟨.fileEntry, payload⟩) = some (keyOf w t e) := by
      have := head gives found coded
      rwa [isFile] at this
    have blocks : entryKeys ((body.map (⟨.fileBytes, ·⟩)).map serializeRecord) = [] := by
      rw [entryKeys, List.filterMap_eq_nil_iff]
      intro bytes member
      rw [List.map_map, List.mem_map] at member
      obtain ⟨block, -, rfl⟩ := member
      exact entryKey_other rfl block
    rw [if_neg gives, fileRecords, List.map_cons, List.map_append, entryKeys,
      List.filterMap_cons_some first, ← entryKeys, entryKeys_append, blocks, List.map_singleton,
      entryKeys, List.filterMap_cons_none (entryKey_other rfl []), List.filterMap_nil]
    rfl

theorem entryKeys_of_all {P : Moment → Prop} (at_ : ∀ now, P now → now.tree = t)
    (top : t.tree.IsDir w.root) {entries : List DirectoryEntry}
    (walked : ∀ e ∈ entries, e ∈ walkedEntries t options w.root)
    {contents : List (List ArchiveRecord)} (all : List.Forall₂ (Emits P w) entries contents) :
    entryKeys (contents.flatten.map serializeRecord) =
        (entries.filter fun e => !decide (w.Skips e)).map (keyOf w t) ∧
      ∀ e ∈ entries, ¬w.Skips e → ∃ m payload, w.metadataFor t e = .ok m ∧
        serializeEntryMetadata m = .ok payload := by
  induction all with
  | nil => exact ⟨rfl, fun e member => absurd member List.not_mem_nil⟩
  | @cons e records entries contents emits _ ih =>
    obtain ⟨keys, made⟩ := entryKeys_of_emits at_ top (walked e List.mem_cons_self) emits
    obtain ⟨rest, others⟩ := ih fun e' member => walked e' (List.mem_cons_of_mem e member)
    constructor
    · rw [List.flatten_cons, List.map_append, entryKeys_append, keys, rest]
      by_cases skips : w.Skips e
      · rw [if_pos skips, List.filter_cons_of_neg (by simpa using skips)]
        rfl
      · rw [if_neg skips, List.filter_cons_of_pos (by simpa using skips)]
        rfl
    · intro e' member
      rcases List.mem_cons.mp member with rfl | member
      · exact made
      · exact others e' member

theorem entryKeys_of_wholeStream {P : Moment → Prop} (at_ : ∀ now, P now → now.tree = t)
    (top : t.tree.IsDir w.root) (walked : ∀ e ∈ w.entries, e ∈ walkedEntries t options w.root)
    {records : List ArchiveRecord} (whole : WholeStream P w records) :
    entryKeys (records.map serializeRecord) =
        (w.entries.filter fun e => !decide (w.Skips e)).map (keyOf w t) ∧
      ∀ e ∈ w.entries, ¬w.Skips e → ∃ m payload, w.metadataFor t e = .ok m ∧
        serializeEntryMetadata m = .ok payload := by
  obtain ⟨contents, all, rfl⟩ := whole
  refine ⟨?_, (entryKeys_of_all at_ top walked all).2⟩
  rw [List.map_cons, List.map_append, entryKeys, List.filterMap_cons_none (entryKey_other rfl _),
    ← entryKeys, entryKeys_append, (entryKeys_of_all at_ top walked all).1, List.map_singleton,
    entryKeys, List.filterMap_cons_none (entryKey_other rfl []), List.filterMap_nil,
    List.append_nil]

end Entries

section Stream
variable {t : SourceTree} {options : ArchiveWriterOptions} {w : ArchiveWriter}

def ArchiveWriter.padded (w : ArchiveWriter) : Option Bytes → ArchiveWriter
  | some record => w.setTrailingPaddingRecord record
  | none => w

structure WritesTree (t : SourceTree) (options : ArchiveWriterOptions) (w : ArchiveWriter) :
    Prop where
  new : w.IsNew
  given : w.options = options
  top : t.tree.IsDir w.root
  perm : w.entries.Perm (walkedEntries t options w.root)
  sorted : w.entries.Pairwise fun a b => ∀ ka kb,
    sortKey t w.root a = .ok ka → sortKey t w.root b = .ok kb → ka ≤ kb

theorem construct_writesTree {w₀ : ArchiveWriter}
    (made : ArchiveWriter.construct t options = .ok w₀) (padding : Option Bytes) :
    WritesTree t options (w₀.padded padding) := by
  unfold ArchiveWriter.construct at made
  rcases leads : lookup t.tree true options.inputRoot with root | _ | _ | _ <;>
    simp only [leads] at made
  · split at made
    · next top =>
      rw [Result.bind_eq_ok] at made
      obtain ⟨entries, sorted, same⟩ := made
      cases same
      obtain ⟨perm, order⟩ := sortEntries_ok sorted
      cases padding with
      | none => exact ⟨initial_isNew _ _ _, rfl, top, perm, order⟩
      | some record => exact ⟨(initial_isNew _ _ _).padded record, rfl, top, perm, order⟩
    · cases made
  · cases made
  · cases made
  · cases made

/-- The condition on the links: none that is to be archived leads anywhere. -/
def LinksDangle (t : SourceTree) (options : ArchiveWriterOptions) (root : List FileName) : Prop :=
  options.includeSymlinks = true → ∀ names target,
    t.tree.node (root ++ names) = some (.link target) → Dangles t (root ++ names)

namespace WritesTree
variable (h : WritesTree t options w)
include h

theorem walked {e : DirectoryEntry} (member : e ∈ w.entries) :
    e ∈ walkedEntries t options w.root := h.perm.subset member

theorem gives_iff {e : DirectoryEntry} (member : e ∈ w.entries) {x : SourceNode}
    (here : t.tree.node e.path = some x) : ¬w.Skips e ↔ Included options x := by
  obtain ⟨-, ⟨y, there, kind⟩, links⟩ := of_mem_walkedEntries t (h.walked member)
  obtain rfl : y = x := Option.some.inj (there.symm.trans here)
  unfold ArchiveWriter.Skips Included
  rw [h.given, ← kind, not_or, not_and, Bool.not_eq_false]

theorem mem_iff {p : List FileName} {x : SourceNode} (here : t.tree.node p = some x)
    (included : Included options x) : (⟨p, SourceNode.type x⟩ : DirectoryEntry) ∈ w.entries ↔
      p ∈ (t.iterate (t.height + 1) w.root).1 :=
  h.perm.mem_iff.trans (mem_walkedEntries t here included.2)

theorem mem_of_included (all : ListsAll t options w.root) {names : List FileName}
    (filled : names ≠ []) {x : SourceNode} (here : t.tree.node (w.root ++ names) = some x)
    (included : Included options x) :
    (⟨w.root ++ names, SourceNode.type x⟩ : DirectoryEntry) ∈ w.entries :=
  (h.mem_iff here included).mpr (all names x filled here included)

end WritesTree

theorem isLink_of_type {x : SourceNode} (kind : (SourceNode.type x).recordType = .symlinkEntry) :
    ∃ target, x = .link target := by
  rcases x with _ | ⟨_, _ | _⟩ | target
  · cases kind
  · cases kind
  · cases kind
  · exact ⟨target, rfl⟩

section Paths
variable (h : WritesTree t options w)
  (made : ∀ e ∈ w.entries, ¬w.Skips e → ∃ m payload, w.metadataFor t e = .ok m ∧
    serializeEntryMetadata m = .ok payload)
include h made

theorem pathOf_own {e : DirectoryEntry} (dangle : e.type = .symlink → Dangles t e.path)
    (member : e ∈ w.entries) (gives : ¬w.Skips e) :
    ∃ names, names ≠ [] ∧ e.path = w.root ++ names ∧ pathOf w t e = ownPath names ∧
      sortKey t w.root e = .ok (ownPath names) := by
  obtain ⟨m, payload, found, coded⟩ := made e member gives
  obtain ⟨q, filled, path, -, leads⟩ := metadataFor_entry h.top (h.walked member) found coded
  have own : e.path = w.root ++ q := by
    by_cases kind : e.type = .symlink
    · exact (leads.resolve_left (dangle kind _)).2
    · rw [leads_of_not_link (h.walked member) kind] at leads
      rcases leads with leads | ⟨-, own⟩
      · exact Outcome.found.inj leads
      · exact own
  refine ⟨q, filled, own, ?_, ?_⟩
  · rw [pathOf, found]
    exact path
  · rw [sortKey_of_metadataFor found, path]

omit made in
theorem LinksDangle.entry (dangle : LinksDangle t options w.root) {e : DirectoryEntry}
    (member : e ∈ w.entries) (kind : e.type = .symlink) : Dangles t e.path := by
  obtain ⟨⟨names, -, below⟩, ⟨x, here, same⟩, links⟩ := of_mem_walkedEntries t (h.walked member)
  obtain ⟨target, rfl⟩ := isLink_of_type (x := x) (by rw [← same, kind]; rfl)
  rw [below] at here ⊢
  exact dangle (links kind) names target here

theorem above_first (dangle : LinksDangle t options w.root) {front back : List DirectoryEntry}
    {e a : DirectoryEntry} (listed : (front ++ e :: back).Sublist w.entries)
    {names above : List FileName} (givesE : ¬w.Skips e) (givesA : ¬w.Skips a)
    (pathE : e.path = w.root ++ names) (pathA : a.path = w.root ++ above)
    (under : above <+: names) (strict : above ≠ names) (member : a ∈ front ++ e :: back) :
    a ∈ front := by
  have memberE : e ∈ w.entries := listed.subset (List.mem_append_right _ List.mem_cons_self)
  have memberA : a ∈ w.entries := listed.subset member
  rw [List.mem_append, List.mem_cons] at member
  rcases member with first | rfl | later
  · exact first
  · exact absurd (List.append_cancel_left (pathA.symm.trans pathE)) strict
  · exfalso
    have order := (List.pairwise_append.mp (h.sorted.sublist listed)).2.1
    obtain ⟨namesE, filledE, sameE, -, keyE⟩ :=
      pathOf_own h made (dangle.entry h memberE) memberE givesE
    obtain ⟨namesA, filledA, sameA, -, keyA⟩ :=
      pathOf_own h made (dangle.entry h memberA) memberA givesA
    obtain rfl := List.append_cancel_left (sameE.symm.trans pathE)
    obtain rfl := List.append_cancel_left (sameA.symm.trans pathA)
    have le := (List.pairwise_cons.mp order).1 a later _ _ keyE keyA
    have ge : ownPath namesA ≤ ownPath namesE :=
      List.IsPrefix.le (relativeText_mono (under.map Subtype.val))
    exact strict (ownPath_injective filledA filledE (List.le_antisymm ge le))

end Paths

section Keys
variable {out : List Bytes} (h : WritesTree t options w)
  (keys : entryKeys out = (w.entries.filter fun e => !decide (w.Skips e)).map (keyOf w t))
include keys

include h
variable (made : ∀ e ∈ w.entries, ¬w.Skips e → ∃ m payload, w.metadataFor t e = .ok m ∧
  serializeEntryMetadata m = .ok payload)
include made

end Keys
end Stream

/-- The files, in a directory that gives an error before its first entry. -/
def unreadFiles : SourceTree := { twoFiles threeBytes with reading := fun _ => .failed 0 }

def unreadFilesWriter : ArchiveWriter := .initial smallOptions [] []

/-- The constructor takes the error for the end of the directory, and no record carries the
files. -/
theorem unread_entries_lost :
    ArchiveWriter.construct unreadFiles smallOptions = .ok unreadFilesWriter ∧
      (emitted (atRest unreadFiles) 3 unreadFilesWriter).2.emittedEnd = true ∧
      Follows (fun _ => atRest unreadFiles) 0 unreadFilesWriter
        (emitted (atRest unreadFiles) 3 unreadFilesWriter).1
        (emitted (atRest unreadFiles) 3 unreadFilesWriter).2 ∧
      ¬OnePathEach unreadFiles smallOptions [] (emitted (atRest unreadFiles) 3
        unreadFilesWriter).1 := by
  refine ⟨rfl, by decide +kernel, follows_emitted _ 3 0 _, fun one => ?_⟩
  have none : entryKeys (emitted (atRest unreadFiles) 3 unreadFilesWriter).1 = [] := by
    decide +kernel
  have lost := (one.own _).mpr ⟨[aFile], .file ⟨0o644, Option.none⟩ (.regular threeBytes),
    List.cons_ne_nil _ _, rfl, ⟨fun same => EntryType.noConfusion same,
      fun same => EntryType.noConfusion same⟩, rfl⟩
  rw [none] at lost
  exact absurd lost List.not_mem_nil

end Bseal.Archive
