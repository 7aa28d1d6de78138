import Bseal.Archive.DescriptorContainment
import Bseal.Archive.PortableContainment

/-! When the two backends of `archive/SafeOutputTree` leave everything outside the output root
alone, for the destinations that the sanitizer accepts. -/
namespace Bseal.Archive
open Effect FileTree

section Safe
variable {rel : Bytes}

theorem components_filled (safe : isSafeRelativePath rel = true) : pathComponents rel ≠ [] := by
  rw [pathComponents_safe safe]
  exact fileNames_ne_nil (splitSlash_ne_nil rel)

theorem components_down (safe : isSafeRelativePath rel = true) : Downward (pathComponents rel) := by
  intro c member
  have level := safe
  unfold isSafeRelativePath at level
  rw [Bool.and_eq_true, List.all_eq_true] at level
  have part := level.2 c member
  simp only [Bool.and_eq_true, decide_eq_true_eq, Bool.not_eq_true',
    List.isEmpty_eq_false_iff] at part
  rw [pathComponents_safe safe] at member
  exact ⟨part.2, part.1, slash_notMem_splitSlash (mem_of_mem_fileNames member)⟩

theorem components_plain (safe : isSafeRelativePath rel = true) (clean : (0 : Byte) ∉ rel) :
    Plain (pathComponents rel) := by
  refine (components_down safe).plain fun c member nul => clean ?_
  rw [pathComponents_safe safe] at member
  exact mem_of_mem_splitSlash (mem_of_mem_fileNames member) nul

end Safe

section Plain
variable {t : DiskTree} {root : List FileName} {path : OutPath}

theorem ensureOpens_plain (plain : Plain path) : EnsureOpens t root path where
  made f c n under _ _ _ := by
    rw [position_plain root (plain.of_prefix ((List.prefix_append f [c]).trans under))]
    exact List.prefix_append root _
  parent := by
    rintro ⟨out, opens⟩
    have front : path.parent <+: path := List.dropLast_prefix path
    refine leadsOutside_position (opens.of_prefix front) out ?_
    rw [position_plain root plain.parent]
    exact List.prefix_append root _

theorem renameOpens_plain (plain : Plain path) (src : List FileName) (overwrite : Bool) :
    RenameOpens t root src path overwrite where
  made f c n under _ _ _ := by
    rw [position_plain root (plain.parent.of_prefix ((List.prefix_append f [c]).trans under))]
    exact List.prefix_append root _
  moved _ outside := by
    rw [position_plain root plain.parent] at outside
    exact absurd (List.prefix_append root _) outside

end Plain

/-- The parent of a destination. Descriptors are opened component by component; for the portable
backend the path ends at its first NUL. -/
def destinationParent (hardened : Bool) (path : OutPath) : OutPath :=
  OutPath.parent (if hardened then path else cutNames path)

/-- Where `ensure_dirs` and `rename_into` leave everything outside the output root alone and
refuse parents outside, for every safe destination. -/
theorem output_containment_iff (t : DiskTree) {root : List FileName} (there : t.IsDir root)
    {rel : Bytes} (safe : isSafeRelativePath rel = true) (hardened overwrite : Bool)
    {source : List FileName} (under : root <+: source) (sourceThere : t.IsDir source)
    (file : FileName) :
    ((∀ host, Contains root t (destinationParent hardened (pathComponents rel))
        (exec (ensureDirs host (outputTree root hardened) (pathComponents rel)) (.start t))) ↔
      if hardened then EnsureOpens t root (pathComponents rel)
      else EnsureStays t root (pathComponents rel)) ∧
    ((∀ host, Contains root t (destinationParent hardened (pathComponents rel))
        (exec (renameInto host (outputTree root hardened) (source ++ [file]) (pathComponents rel)
          overwrite) (.start t))) ↔
      if hardened then RenameOpens t root (source ++ [file]) (pathComponents rel) overwrite
      else PromoteStays t root (pathComponents rel) overwrite) := by
  have inner := child_inside under file
  have physical : ∀ f, f <+: source ++ [file] → f ≠ source ++ [file] → t.IsDir f := by
    intro f front strict
    exact sourceThere.prefix ((List.prefix_concat_iff.mp front).resolve_left strict)
  have filled := components_filled safe
  have down := components_down safe
  cases hardened with
  | true =>
    refine ⟨⟨fun contains => ensureOpens_of_contains there filled down (contains quietHost),
      fun stays host => ensureDirs_hardened host there filled down stays⟩,
      fun contains => renameOpens_of_contains there down under sourceThere (contains quietHost),
      fun stays host => renameInto_hardened host there down inner physical stays⟩
  | false =>
    refine ⟨⟨fun contains => ensureStays_of_contains filled down (contains quietHost),
      fun stays host => ensureDirs_portable host there filled down stays⟩,
      fun contains => promoteStays_of_contains filled down (contains quietHost),
      fun stays host => renameInto_portable host there filled down inner physical stays⟩

theorem output_containment_iff_outTree :
    Contains [outName] outTree [] (exec (renameInto quietHost (outputTree [outName] true)
      [outName, tmpName, aName] (pathComponents (ascii "a")) true) (.start outTree)) ∧
    Contains [outName] outTree [] (exec (renameInto quietHost (outputTree [outName] false)
      [outName, tmpName, aName] (pathComponents (ascii "a" ++ 0 :: ascii "/b")) true)
        (.start outTree)) := by
  have there : outTree.IsDir [outName] := outTree_isDir.prefix ⟨[tmpName], rfl⟩
  have safe : isSafeRelativePath (ascii "a") = true := by decide
  have nul : isSafeRelativePath (ascii "a" ++ 0 :: ascii "/b") = true := by decide
  have plain := components_plain safe (by decide)
  have absent : lookup outTree false (below [outName] [aName.1]) = .missing [outName] aName := by
    decide
  constructor
  · exact (output_containment_iff outTree there safe true true ⟨[tmpName], rfl⟩ outTree_isDir
      aName).2.mpr (renameOpens_plain plain _ _) quietHost
  · refine (output_containment_iff outTree there nul false true ⟨[tmpName], rfl⟩ outTree_isDir
      aName).2.mpr ⟨fun f d n front missing => ?_, fun _ q found => ?_⟩ quietHost
    · have front : f <+: [outName] ++ [aName] := front
      rcases List.prefix_concat_iff.mp front with rfl | front
      · cases (show lookup outTree false (below [outName, aName] []) = _ from absent).symm.trans
          missing
        exact List.prefix_refl _
      · rcases List.prefix_concat_iff.mp (show f <+: [] ++ [outName] from front) with rfl | top
        · cases (lookup_dir there false).symm.trans missing
        · rw [List.prefix_nil.mp top, lookup_dir outTree.root] at missing
          cases missing
    · rw [← lookup_cutNames] at found
      cases found.symm.trans absent

def linkedTree : DiskTree :=
  (((outTree.put [outName, tmpName] aName (.file .fresh [1])).put [outName] aName
    (.link (ascii "/tmp"))).put [] tmpName (.dir .fresh)).put [tmpName] aName (.file .fresh [2])

/-- The portable backend removes the file behind the link before its guard refuses the link, and a
descriptor leaves the root through a `..` that a NUL hides from the sanitizer. -/
theorem outside_file_removed :
    (isSafeRelativePath (ascii "a/a") = true ∧
      linkedTree.node [tmpName, aName] = some (.file .fresh [2]) ∧
      ∃ e w, exec (renameInto quietHost (outputTree [outName] false) [outName, tmpName, aName]
        (pathComponents (ascii "a/a")) true) (.start linkedTree) = (.error e, w) ∧
        w.tree.node [tmpName, aName] = none ∧
        ¬Contains [outName] linkedTree [aName.1] (.error e, w)) ∧
    isSafeRelativePath (ascii ".." ++ 0 :: ascii "/a") = true ∧
      outTree.node [aName] = none ∧
      ∃ w, exec (ensureDirs quietHost (outputTree [outName] true)
        (pathComponents (ascii ".." ++ 0 :: ascii "/a"))) (.start outTree) = (.ok (), w) ∧
        w.tree.IsDir [aName] ∧ ¬Contains [outName] outTree [ascii ".." ++ [0]] (.ok (), w) := by
  constructor
  · have removed : (exec (renameInto quietHost (outputTree [outName] false)
        [outName, tmpName, aName] (pathComponents (ascii "a/a")) true)
          (.start linkedTree)).1.isOk = false ∧
        (exec (renameInto quietHost (outputTree [outName] false)
        [outName, tmpName, aName] (pathComponents (ascii "a/a")) true)
          (.start linkedTree)).2.tree.node [tmpName, aName] = none := by
      decide +kernel
    have there : linkedTree.node [tmpName, aName] = some (.file .fresh [2]) := by decide
    rcases ran : exec (renameInto quietHost (outputTree [outName] false)
        [outName, tmpName, aName] (pathComponents (ascii "a/a")) true)
          (.start linkedTree) with ⟨e | u, w⟩
    · rw [ran] at removed
      refine ⟨by decide, there, e, w, rfl, removed.2, fun contains => ?_⟩
      have same := contains.1.same [tmpName, aName] (by decide)
      rw [there, show w.tree.node [tmpName, aName] = none from removed.2] at same
      cases same
    · rw [ran] at removed
      cases removed.1
  · have made : (exec (ensureDirs quietHost (outputTree [outName] true)
        (pathComponents (ascii ".." ++ 0 :: ascii "/a"))) (.start outTree)).1.isOk = true ∧
        (exec (ensureDirs quietHost (outputTree [outName] true)
        (pathComponents (ascii ".." ++ 0 :: ascii "/a"))) (.start outTree)).2.tree.node [aName] =
          some (.dir .fresh) := by
      decide +kernel
    have absent : outTree.node [aName] = none := by decide
    rcases ran : exec (ensureDirs quietHost (outputTree [outName] true)
        (pathComponents (ascii ".." ++ 0 :: ascii "/a"))) (.start outTree) with ⟨e | u, w⟩
    · rw [ran] at made
      cases made.1
    · rw [ran] at made
      refine ⟨by decide, absent, w, rfl, ⟨.fresh, made.2⟩, fun contains => ?_⟩
      have same := contains.1.same [aName] (by decide)
      rw [absent, show w.tree.node [aName] = some (.dir .fresh) from made.2] at same
      cases same

end Bseal.Archive
