import Mathlib.Data.Set.Function
import Bseal.Common.Errors

/-! The keyfiles of `crypto/Kdf`: the digest of each and the mix of all digests. The hash is
taken as a function of the bytes that the hasher is fed. -/
namespace Bseal.Crypto
open ByteCodec

def kIoBufferSize : Nat := 1024 * 1024

/-- The domain strings end with their NUL byte. -/
def kDigestDomain : Bytes := ascii "BSEAL keyfile digest v1" ++ [0]
def kMixDomain : Bytes := ascii "BSEAL keyfile mix v1" ++ [0]

/-- What the host shows of a keyfile when its turn comes: the size (`none`: an error code),
the bytes behind an opened stream (`none`: the open fails), and the offsets at which a read
ends in an error. -/
structure Keyfile where
  path : Bytes
  fileSize : Option UInt64
  content : Option Bytes
  readFails : Nat → Bool

/-- `while (in)`: a short read sets `eofbit` and ends the loop; an error sets `badbit` and
leaves no `eofbit`, which is `none` here. -/
def feedBlocks (readFails : Nat → Bool) (fed : Bytes) (offset : Nat) (left : Bytes) :
    Option Bytes :=
  if readFails offset then none
  else
    let got := left.take kIoBufferSize
    let fed := if 0 < got.length then fed ++ got else fed
    if got.length < kIoBufferSize then some fed
    else feedBlocks readFails fed (offset + kIoBufferSize) (left.drop kIoBufferSize)
termination_by left.length
decreasing_by
  have size : got.length = min kIoBufferSize left.length := List.length_take
  have : kIoBufferSize = 1048576 := rfl
  rw [List.length_drop]
  omega

/-- The bytes that the hasher of one keyfile is fed. -/
def keyfileTranscript (file : Keyfile) : Result Bytes :=
  match file.fileSize with
  | none => .error (.keyfileAccessError "failed to read keyfile size" file.path)
  | some size =>
    match file.content with
    | none => .error (.keyfileAccessError "failed to open keyfile" file.path)
    | some content =>
      match feedBlocks file.readFails (kDigestDomain ++ putU64 size) 0 content with
      | none => .error (.keyfileAccessError "failed while reading keyfile" file.path)
      | some fed => .ok fed

section Hash
variable (blake3 : Bytes → Bytes32)

def hashKeyfilesBlake3 : List Keyfile → Result (List Bytes32)
  | [] => .ok []
  | file :: keyfiles => do
    let fed ← keyfileTranscript file
    let digests ← hashKeyfilesBlake3 keyfiles
    pure (blake3 fed :: digests)

/-- The bytes that the hasher of the mix is fed; the cast drops the high bits of the count. -/
def mixTranscript (digests : List Bytes32) : Bytes :=
  kMixDomain ++ putU32 (UInt32.ofNat digests.length) ++ digests.flatMap (·.toList)

def mixKeyfileDigests (digests : List Bytes32) : Bytes32 := blake3 (mixTranscript digests)

def keyfileMix (keyfiles : List Keyfile) : Result Bytes32 := do
  let digests ← hashKeyfilesBlake3 blake3 keyfiles
  pure (mixKeyfileDigests blake3 digests)

end Hash

theorem kIoBufferSize_pos : 0 < kIoBufferSize := by decide

theorem feedBlocks_last {readFails : Nat → Bool} {fed : Bytes} {offset : Nat} {left : Bytes}
    (short : left.length < kIoBufferSize) :
    feedBlocks readFails fed offset left =
      if readFails offset then none else some (fed ++ left) := by
  have all : left.take kIoBufferSize = left := List.take_of_length_le short.le
  have fedAll : (if 0 < left.length then fed ++ left else fed) = fed ++ left := by
    cases left with
    | nil => exact (if_neg (Nat.lt_irrefl 0)).trans (List.append_nil fed).symm
    | cons b left => exact if_pos (Nat.succ_pos left.length)
  rw [feedBlocks]
  simp only [all, if_pos short, fedAll]

theorem feedBlocks_next {readFails : Nat → Bool} {fed : Bytes} {offset : Nat} {left : Bytes}
    (full : kIoBufferSize ≤ left.length) :
    feedBlocks readFails fed offset left =
      if readFails offset then none
      else feedBlocks readFails (fed ++ left.take kIoBufferSize) (offset + kIoBufferSize)
        (left.drop kIoBufferSize) := by
  have block : (left.take kIoBufferSize).length = kIoBufferSize := List.length_take_of_le full
  rw [feedBlocks]
  simp only [block, if_pos kIoBufferSize_pos, lt_irrefl, if_false]

/-- The loop feeds every byte once, for every length, unless a read fails. -/
theorem feedBlocks_eq_some {readFails : Nat → Bool} {fed : Bytes} {offset : Nat} {left : Bytes}
    {result : Bytes} :
    feedBlocks readFails fed offset left = some result ↔
      (∀ k, k * kIoBufferSize ≤ left.length → readFails (offset + k * kIoBufferSize) = false) ∧
        result = fed ++ left := by
  have positive := kIoBufferSize_pos
  induction n : left.length using Nat.strong_induction_on generalizing fed offset left with
  | _ n ih =>
    subst n
    rcases Nat.lt_or_ge left.length kIoBufferSize with short | full
    · have only : ∀ k, k * kIoBufferSize ≤ left.length ↔ k = 0 := by
        intro k
        rcases k with _ | k
        · simp
        · rw [Nat.succ_mul]
          omega
      rw [feedBlocks_last short]
      simp only [only, forall_eq, Nat.zero_mul, Nat.add_zero]
      cases readFails offset
      · simp [eq_comm]
      · simp
    · rw [feedBlocks_next full]
      cases first : readFails offset with
      | true =>
        rw [if_pos rfl]
        constructor
        · rintro ⟨⟩
        · rintro ⟨reads, -⟩
          have := reads 0 (by omega)
          rw [Nat.zero_mul, Nat.add_zero, first] at this
          cases this
      | false =>
        have shorter : (left.drop kIoBufferSize).length < left.length := by
          rw [List.length_drop]
          omega
        rw [if_neg (by simp)]
        refine (ih _ shorter rfl).trans ?_
        rw [List.append_assoc, List.take_append_drop, List.length_drop]
        refine and_congr_left fun _ => ⟨fun reads k le => ?_, fun reads k le => ?_⟩
        · rcases k with _ | k
          · rw [Nat.zero_mul, Nat.add_zero, first]
          · rw [Nat.succ_mul, Nat.add_comm (k * _), ← Nat.add_assoc]
            rw [Nat.succ_mul] at le
            exact reads k (by omega)
        · rw [Nat.add_assoc, Nat.add_comm kIoBufferSize, ← Nat.succ_mul]
          refine reads (k + 1) ?_
          rw [Nat.succ_mul]
          omega

namespace Keyfile

structure Unchanged (file : Keyfile) (content : Bytes) : Prop where
  fileSize : file.fileSize = some (UInt64.ofNat content.length)
  opens : file.content = some content
  reads : ∀ offset, file.readFails offset = false
  fits : content.length < 2 ^ 64

def transcript (content : Bytes) : Bytes :=
  kDigestDomain ++ putU64 (UInt64.ofNat content.length) ++ content

theorem transcript_injective : Function.Injective transcript := by
  intro content content' same
  unfold transcript at same
  rw [List.append_assoc, List.append_assoc] at same
  exact (List.append_inj (List.append_cancel_left same) (by simp)).2

theorem Unchanged.transcript_eq {file : Keyfile} {content : Bytes}
    (unchanged : file.Unchanged content) : keyfileTranscript file = .ok (transcript content) := by
  have fed : feedBlocks file.readFails
      (kDigestDomain ++ putU64 (UInt64.ofNat content.length)) 0 content =
        some (transcript content) :=
    feedBlocks_eq_some.mpr ⟨fun _ _ => unchanged.reads _, rfl⟩
  unfold keyfileTranscript
  rw [unchanged.fileSize, unchanged.opens]
  simp only [fed]

end Keyfile

section Binding
variable {blake3 : Bytes → Bytes32} {files files' : List Keyfile} {contents contents' : List Bytes}

theorem hashKeyfilesBlake3_eq (unchanged : List.Forall₂ Keyfile.Unchanged files contents) :
    hashKeyfilesBlake3 blake3 files =
      .ok (contents.map fun content => blake3 (Keyfile.transcript content)) := by
  induction unchanged with
  | nil => rfl
  | cons first _ ih =>
    rw [hashKeyfilesBlake3, first.transcript_eq, ih]
    rfl

/-- The digests have one width, so that the transcript of a mix determines them. -/
theorem flatMap_toList_injective :
    Function.Injective fun digests : List Bytes32 => digests.flatMap (·.toList) := by
  intro digests digests' same
  induction digests generalizing digests' with
  | nil =>
    cases digests' with
    | nil => rfl
    | cons d digests' =>
      have width := congrArg List.length same
      simp only [List.flatMap_nil, List.flatMap_cons, List.length_append, List.length_nil,
        d.toList_length] at width
      omega
  | cons d digests ih =>
    cases digests' with
    | nil =>
      have width := congrArg List.length same
      simp only [List.flatMap_nil, List.flatMap_cons, List.length_append, List.length_nil,
        d.toList_length] at width
      omega
    | cons d' digests' =>
      simp only [List.flatMap_cons] at same
      obtain ⟨first, rest⟩ := List.append_inj same
        (d.toList_length.trans d'.toList_length.symm)
      rw [List.Vector.toList_injective first, ih rest]

theorem mixTranscript_injective {digests digests' : List Bytes32}
    (same : mixTranscript digests = mixTranscript digests') : digests = digests' := by
  unfold mixTranscript at same
  rw [List.append_assoc, List.append_assoc] at same
  exact flatMap_toList_injective (List.append_inj (List.append_cancel_left same) (by simp)).2

def hashed (blake3 : Bytes → Bytes32) (files : List Keyfile) : Set Bytes :=
  {fed | ∃ file ∈ files, keyfileTranscript file = .ok fed} ∪
    {fed | ∃ digests, hashKeyfilesBlake3 blake3 files = .ok digests ∧ fed = mixTranscript digests}

theorem transcript_mem_hashed (unchanged : List.Forall₂ Keyfile.Unchanged files contents)
    {content : Bytes} (member : content ∈ contents) :
    Keyfile.transcript content ∈ hashed blake3 files := by
  obtain ⟨i, bound, rfl⟩ := List.getElem_of_mem member
  have paired := unchanged.get (unchanged.length_eq.trans_gt bound) bound
  exact Or.inl ⟨_, List.get_mem files _, paired.transcript_eq⟩

theorem hashed_subset (unchanged : List.Forall₂ Keyfile.Unchanged files contents)
    {fed : Bytes} (member : fed ∈ hashed blake3 files) :
    fed ∈ contents.map Keyfile.transcript ∨
      fed = mixTranscript (contents.map fun content => blake3 (Keyfile.transcript content)) := by
  rcases member with ⟨file, inside, read⟩ | ⟨digests, computed, rfl⟩
  · obtain ⟨i, bound, rfl⟩ := List.getElem_of_mem inside
    have bound' : i < contents.length := unchanged.length_eq ▸ bound
    have whole := (unchanged.get bound bound').transcript_eq
    rw [List.get_eq_getElem, read] at whole
    cases whole
    exact Or.inl (List.mem_map_of_mem (List.get_mem contents _))
  · rw [hashKeyfilesBlake3_eq unchanged] at computed
    cases computed
    exact Or.inr rfl

theorem mixTranscript_mem_hashed (unchanged : List.Forall₂ Keyfile.Unchanged files contents) :
    mixTranscript (contents.map fun content => blake3 (Keyfile.transcript content)) ∈
      hashed blake3 files :=
  Or.inr ⟨_, hashKeyfilesBlake3_eq unchanged, rfl⟩

/-- Digests of contents that do not collide determine the list of contents. -/
theorem contents_of_digests {inputs : Set Bytes} (injective : Set.InjOn blake3 inputs)
    (inside : ∀ content ∈ contents, Keyfile.transcript content ∈ inputs)
    (inside' : ∀ content ∈ contents', Keyfile.transcript content ∈ inputs)
    (same : contents.map (fun content => blake3 (Keyfile.transcript content)) =
      contents'.map (fun content => blake3 (Keyfile.transcript content))) :
    contents = contents' := by
  induction contents generalizing contents' with
  | nil => exact (List.map_eq_nil_iff.mp same.symm).symm
  | cons content contents ih =>
    cases contents' with
    | nil => cases same
    | cons content' contents' =>
      rw [List.map_cons, List.map_cons] at same
      obtain ⟨first, rest⟩ := List.cons.inj same
      have equal := injective (inside content List.mem_cons_self)
        (inside' content' List.mem_cons_self) first
      rw [Keyfile.transcript_injective equal,
        ih (fun c member => inside c (List.mem_cons_of_mem content member))
          (fun c member => inside' c (List.mem_cons_of_mem content' member)) rest]

end Binding

theorem keyfile_binding (blake3 : Bytes → Bytes32) (files files' : List Keyfile)
    (contents contents' : List Bytes)
    (unchanged : List.Forall₂ Keyfile.Unchanged files contents)
    (unchanged' : List.Forall₂ Keyfile.Unchanged files' contents')
    (injective : Set.InjOn blake3 (hashed blake3 files ∪ hashed blake3 files')) :
    List.Forall₂ (fun file content => keyfileTranscript file =
      .ok (ascii "BSEAL keyfile digest v1" ++ [0] ++ putU64 (UInt64.ofNat content.length) ++
        content)) files contents ∧
    ∃ mix mix', keyfileMix blake3 files = .ok mix ∧ keyfileMix blake3 files' = .ok mix' ∧
      (mix = mix' ↔ contents = contents') := by
  refine ⟨unchanged.imp fun file content whole => whole.transcript_eq, ?_⟩
  refine ⟨mixKeyfileDigests blake3 (contents.map fun c => blake3 (Keyfile.transcript c)),
    mixKeyfileDigests blake3 (contents'.map fun c => blake3 (Keyfile.transcript c)), ?_, ?_, ?_⟩
  · rw [keyfileMix, hashKeyfilesBlake3_eq unchanged]
    rfl
  · rw [keyfileMix, hashKeyfilesBlake3_eq unchanged']
    rfl
  · constructor
    · intro same
      have transcripts := injective (Or.inl (mixTranscript_mem_hashed unchanged))
        (Or.inr (mixTranscript_mem_hashed unchanged')) same
      exact contents_of_digests injective
        (fun content member => Or.inl (transcript_mem_hashed unchanged member))
        (fun content member => Or.inr (transcript_mem_hashed unchanged' member))
        (mixTranscript_injective transcripts)
    · rintro rfl
      rfl

def oneByte (path : Bytes) (b : Byte) : Keyfile where
  path := path
  fileSize := some 1
  content := some [b]
  readFails := fun _ => false

def keyA : Keyfile := oneByte (ascii "k1") 0x61
def keyB : Keyfile := oneByte (ascii "k2") 0x62

theorem oneByte_unchanged (path : Bytes) (b : Byte) : (oneByte path b).Unchanged [b] :=
  ⟨rfl, rfl, fun _ => rfl, by rw [List.length_singleton]; decide⟩

def digestA : Bytes32 := ⟨[160, 240, 11, 248, 192, 106, 241, 107, 254, 166, 86, 82, 80, 44, 208,
  216, 155, 170, 228, 28, 117, 184, 25, 4, 251, 191, 249, 10, 146, 223, 60, 230], rfl⟩
def digestB : Bytes32 := ⟨[177, 18, 184, 63, 112, 94, 230, 70, 12, 129, 31, 94, 161, 25, 175,
  213, 155, 241, 98, 69, 120, 108, 139, 1, 196, 104, 251, 248, 43, 145, 173, 155], rfl⟩
def mixAB : Bytes32 := ⟨[14, 162, 26, 10, 134, 18, 47, 225, 69, 26, 249, 170, 71, 31, 92, 167,
  41, 58, 186, 37, 217, 144, 50, 102, 3, 204, 10, 39, 194, 42, 21, 159], rfl⟩
def mixBA : Bytes32 := ⟨[166, 46, 111, 165, 6, 79, 225, 121, 16, 199, 217, 247, 102, 31, 246,
  122, 38, 20, 6, 120, 127, 58, 204, 135, 217, 5, 67, 21, 224, 117, 92, 129], rfl⟩

def blake3Table (input : Bytes) : Bytes32 :=
  if input = Keyfile.transcript (ascii "a") then digestA
  else if input = Keyfile.transcript (ascii "b") then digestB
  else if input = mixTranscript [digestA, digestB] then mixAB
  else if input = mixTranscript [digestB, digestA] then mixBA
  else List.Vector.replicate 32 0

def swappedInputs : List Bytes :=
  [Keyfile.transcript (ascii "a"), Keyfile.transcript (ascii "b"),
    mixTranscript [digestA, digestB], mixTranscript [digestB, digestA]]

theorem blake3Table_injOn : Set.InjOn blake3Table {input | input ∈ swappedInputs} := by
  have distinct : ∀ x ∈ swappedInputs, ∀ y ∈ swappedInputs,
      blake3Table x = blake3Table y → x = y := by decide +kernel
  exact fun x hx y hy => distinct x hx y hy

theorem keyfile_binding_swapped :
    ∃ mix mix', keyfileMix blake3Table [keyA, keyB] = .ok mix ∧
      keyfileMix blake3Table [keyB, keyA] = .ok mix' ∧ mix ≠ mix' := by
  have ab : List.Forall₂ Keyfile.Unchanged [keyA, keyB] [[0x61], [0x62]] :=
    .cons (oneByte_unchanged _ _) (.cons (oneByte_unchanged _ _) .nil)
  have ba : List.Forall₂ Keyfile.Unchanged [keyB, keyA] [[0x62], [0x61]] :=
    .cons (oneByte_unchanged _ _) (.cons (oneByte_unchanged _ _) .nil)
  have known : ∀ fed, (fed ∈ [[0x61], [0x62]].map Keyfile.transcript ∨
      fed = mixTranscript ([[0x61], [0x62]].map fun c => blake3Table (Keyfile.transcript c))) →
      fed ∈ swappedInputs := by
    rintro fed (member | rfl)
    · exact List.mem_append_left _ member
    · decide +kernel
  have known' : ∀ fed, (fed ∈ [[0x62], [0x61]].map Keyfile.transcript ∨
      fed = mixTranscript ([[0x62], [0x61]].map fun c => blake3Table (Keyfile.transcript c))) →
      fed ∈ swappedInputs := by
    rintro fed (member | rfl)
    · exact List.mem_append_left _ ((List.Perm.swap _ _ []).mem_iff.mp member)
    · decide +kernel
  have inside : hashed blake3Table [keyA, keyB] ∪ hashed blake3Table [keyB, keyA] ⊆
      {input | input ∈ swappedInputs} := by
    rintro fed (member | member)
    · exact known fed (hashed_subset ab member)
    · exact known' fed (hashed_subset ba member)
  obtain ⟨-, mix, mix', hashed, hashed', same⟩ := keyfile_binding blake3Table _ _ _ _ ab ba
    (blake3Table_injOn.mono inside)
  exact ⟨mix, mix', hashed, hashed', fun equal => absurd (same.mp equal) (by decide)⟩

end Bseal.Crypto
