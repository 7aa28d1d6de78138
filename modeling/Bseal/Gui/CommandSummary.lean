import Bseal.Cli.Args
import Bseal.Io.ChunkFrame

/-! The options of `gui/GuiOptions` and the command summary of `gui/GuiPreview`, whose pairs are
given back to the parser of the command line. -/
namespace Bseal.Gui
open App (PaddingPolicy PaddingPolicyKind)
open Cli
open Crypto (CipherSuite KdfPreset KdfResourcePolicy KdfPolicyRules)
open Decimal (numeral)
open Platform (DurabilityMode)

structure GuiCommonOptions where
  input : Bytes := []
  output : Bytes := []
  keyfiles : List Bytes := []
  durabilityMode : DurabilityMode := .bestEffort
  parseErrors : List String := []

structure GuiEncryptOptions extends GuiCommonOptions where
  suite : CipherSuite := .xChaCha20Poly1305
  kdfPreset : KdfPreset := .strong
  chunkSize : UInt64 := 16 * 1024 * 1024
  shardSize : UInt64 := 4 * 1024 * 1024 * 1024
  padding : PaddingPolicy := ⟨.power2, 0⟩

structure GuiDecryptOptions extends GuiCommonOptions where
  overwrite : Bool := false
  kdfPolicy : KdfResourcePolicy := {}
  hardenedExtract : HardenedExtractMode := .auto

def pathErrors (o : GuiCommonOptions) : List String :=
  (if o.input.isEmpty then ["Input path is required."] else []) ++
    if o.output.isEmpty then ["Output path is required."] else []

def kChunkMin : UInt64 := 65536
def kChunkMax : UInt64 := 67108864

def chunkError (chunkSize : UInt64) : Option String :=
  if chunkSize < kChunkMin then some "Chunk size must be at least 64 KiB (65536 bytes)."
  else if chunkSize > kChunkMax then some "Chunk size must be at most 64 MiB (67108864 bytes)."
  else if chunkSize &&& (chunkSize - 1) ≠ 0 then some "Chunk size must be a power of two."
  else none

def shardErrors (o : GuiEncryptOptions) (chunkValid : Bool) : Result (List String) :=
  if o.shardSize = 0 then .ok ["Shard size must be greater than zero."]
  else if chunkValid then do
    let minFrame ← Io.chunkFrameV1EncodedSizeFromParams o.chunkSize 16
    pure (if minFrame > o.shardSize then
      ["Shard size is too small for the selected chunk size."] else [])
  else .ok []

def paddingErrors (o : GuiEncryptOptions) (chunkValid : Bool) : List String :=
  if o.padding.kind = .fixedSize then
    if o.padding.fixedSizeBytes = 0 then ["Fixed padding size must be greater than zero."]
    else if chunkValid ∧ o.padding.fixedSizeBytes % o.chunkSize ≠ 0 then
      ["Fixed padding size must be a multiple of the chunk size."]
    else []
  else []

/-- `gui::validate` of the encrypt options: one message for each error. -/
def validateEncrypt (o : GuiEncryptOptions) : Result (List String) := do
  let chunk := chunkError o.chunkSize
  let shard ← shardErrors o chunk.isNone
  pure (o.parseErrors ++ pathErrors o.toGuiCommonOptions ++ chunk.toList ++ shard ++
    paddingErrors o chunk.isNone)

inductive HardenedExtractOutcome where
  | hardenedActive
  | explicitNonHardened
  | autoFallbackNonHardened
  | unsupportedError
  deriving DecidableEq

def resolveHardenedExtract (mode : HardenedExtractMode) (platformSupported : Bool) :
    HardenedExtractOutcome :=
  match mode with
  | .on => if platformSupported then .hardenedActive else .unsupportedError
  | .off => .explicitNonHardened
  | .auto => if platformSupported then .hardenedActive else .autoFallbackNonHardened

def what : Failure → String
  | .error message | .invalidArgument message | .filesystemError message => message
  | .authenticationFailed => "authentication failed or archive is corrupt"
  | .keyfileAccessError description path => description ++ ": " ++ text path

def policyErrors (policy : KdfResourcePolicy) : List String :=
  match Crypto.validateKdfResourcePolicy policy with
  | .ok () => []
  | .error e => [what e]

def validateDecrypt (o : GuiDecryptOptions) (platformSupported : Bool) : List String :=
  o.parseErrors ++ pathErrors o.toGuiCommonOptions ++
    (if resolveHardenedExtract o.hardenedExtract platformSupported = .unsupportedError then
      ["Hardened extraction ('on') is not supported on this platform. " ++
        "Use 'auto' to allow fallback, or 'off' to explicitly use the portable backend."]
    else []) ++ policyErrors o.kdfPolicy

/-! The printers of the flags. -/

def suiteFlag : CipherSuite → Bytes
  | .aes256Gcm => ascii "aes-256-gcm"
  | .xChaCha20Poly1305 => ascii "xchacha20-poly1305"

def kdfFlag : KdfPreset → Bytes
  | .fast => ascii "fast"
  | .strong => ascii "strong"
  | .paranoid => ascii "paranoid"
  | .custom => ascii "strong"

def paddingFlag (padding : PaddingPolicy) : Bytes :=
  match padding.kind with
  | .none => ascii "none"
  | .chunk => ascii "chunk"
  | .power2 => ascii "power2"
  | .fixedSize => ascii "fixed-size=" ++ numeral padding.fixedSizeBytes.toNat

def durabilityFlag : DurabilityMode → Bytes
  | .off => ascii "off"
  | .bestEffort => ascii "best-effort"
  | .on => ascii "on"

def hardenedFlag : HardenedExtractMode → Bytes
  | .auto => ascii "auto"
  | .on => ascii "on"
  | .off => ascii "off"

inductive Flag where
  | suite
  | kdf
  | chunkSize
  | shardSize
  | padding
  | durability
  | hardenedExtract
  | maxKdfMemory
  | maxKdfIterations
  | maxKdfParallelism
  deriving DecidableEq

def Flag.name : Flag → Bytes
  | suite => ascii "--suite"
  | kdf => ascii "--kdf"
  | chunkSize => ascii "--chunk-size"
  | shardSize => ascii "--shard-size"
  | padding => ascii "--padding"
  | durability => ascii "--durability"
  | hardenedExtract => ascii "--hardened-extract"
  | maxKdfMemory => ascii "--max-kdf-memory"
  | maxKdfIterations => ascii "--max-kdf-iterations"
  | maxKdfParallelism => ascii "--max-kdf-parallelism"

abbrev Pair := Flag × Bytes

def durabilityPair (o : GuiCommonOptions) : Pair := (.durability, durabilityFlag o.durabilityMode)

def encryptLines (o : GuiEncryptOptions) : List Pair :=
  [(.suite, suiteFlag o.suite), (.kdf, kdfFlag o.kdfPreset),
    (.chunkSize, numeral o.chunkSize.toNat), (.shardSize, numeral o.shardSize.toNat),
    (.padding, paddingFlag o.padding)]

def decryptLines (o : GuiDecryptOptions) : List Pair :=
  [(.hardenedExtract, hardenedFlag o.hardenedExtract),
    (.maxKdfMemory, numeral o.kdfPolicy.maxMemoryKib.toNat),
    (.maxKdfIterations, numeral o.kdfPolicy.maxIterations.toNat),
    (.maxKdfParallelism, numeral o.kdfPolicy.maxParallelism.toNat)]

/-- A line of the summary: words, or a flag with its value in front of a continuation. -/
inductive SummaryLine where
  | words (content : Bytes)
  | pair (printed : Pair)

def newline : Byte := 0x0a

namespace SummaryLine

def content : SummaryLine → Bytes
  | words content => content
  | pair printed => ascii "  " ++ (printed.1.name ++ ascii " " ++ (printed.2 ++ ascii " \\"))

def printed? : SummaryLine → Option Pair
  | words _ => none
  | pair printed => some printed

def print (lines : List SummaryLine) : Bytes := lines.flatMap fun l => l.content ++ [newline]

end SummaryLine

def filename (path : Bytes) : Bytes := (path.reverse.takeWhile (· ≠ 0x2f)).reverse

def keyfileLine (keyfile : Bytes) : SummaryLine :=
  .words (ascii "  --keyfile " ++ filename keyfile ++ ascii "  # path redacted")

def appendCommonFlags (o : GuiCommonOptions) : List SummaryLine :=
  o.keyfiles.map keyfileLine ++ [.pair (durabilityPair o), .words
    (ascii "  --passphrase-prompt  # enter interactively " ++ [0xe2, 0x80, 0x94] ++
      ascii " never shown here")]

/-- The four lines at the top; the dash is not ASCII. -/
def heading (command : Bytes) (o : GuiCommonOptions) : List SummaryLine :=
  [.words (ascii "# Equivalent options summary " ++ [0xe2, 0x80, 0x94] ++
      ascii " not a runnable command."),
    .words (ascii "# Passphrase and keyfile contents are never shown."),
    .words (ascii "# Keyfile paths are replaced by basename."),
    .words (ascii "bseal " ++ (command ++
      ascii " " ++ (if o.input.isEmpty then ascii "<input>" else o.input) ++
      ascii " " ++ (if o.output.isEmpty then ascii "<output>" else o.output) ++ ascii " \\"))]

def encryptSummary (o : GuiEncryptOptions) : List SummaryLine :=
  heading (ascii "encrypt") o.toGuiCommonOptions ++ (encryptLines o).map .pair ++
    appendCommonFlags o.toGuiCommonOptions

def decryptSummary (o : GuiDecryptOptions) : List SummaryLine :=
  heading (ascii "decrypt") o.toGuiCommonOptions ++
    (if o.overwrite then [.words (ascii "  --overwrite \\")] else []) ++
    (decryptLines o).map .pair ++ appendCommonFlags o.toGuiCommonOptions

def generateEncryptSummary (o : GuiEncryptOptions) : Bytes := SummaryLine.print (encryptSummary o)

def generateDecryptSummary (o : GuiDecryptOptions) : Bytes := SummaryLine.print (decryptSummary o)

/-! The pairs read back from the printed text. -/

def flags : List Flag :=
  [.suite, .kdf, .chunkSize, .shardSize, .padding, .durability, .hardenedExtract, .maxKdfMemory,
    .maxKdfIterations, .maxKdfParallelism]

/-- The pair of a line: two blanks, a flag up to the next blank, and a value up to ` \`. -/
def readPair (content : Bytes) : Option Pair :=
  if content.take 2 = ascii "  " then
    let name := (content.drop 2).takeWhile (· ≠ 0x20)
    let value := (content.drop 2).drop (name.length + 1)
    (flags.find? (·.name = name)).map fun flag => (flag, value.take (value.length - 2))
  else none

def printedPairs (summary : Bytes) : List Pair := (summary.splitOn newline).filterMap readPair

theorem readPair_pair (p : Pair) : readPair (SummaryLine.pair p).content = some p := by
  obtain ⟨flag, value⟩ := p
  have indent : (SummaryLine.pair (flag, value)).content.drop 2 =
      flag.name ++ 0x20 :: (value ++ ascii " \\") := List.append_assoc ..
  have name : (flag.name ++ 0x20 :: (value ++ ascii " \\")).takeWhile (· ≠ 0x20) = flag.name := by
    cases flag <;> rfl
  have found : flags.find? (·.name = flag.name) = some flag := by cases flag <;> rfl
  have behind : (flag.name ++ 0x20 :: (value ++ ascii " \\")).drop (flag.name.length + 1) =
      value ++ ascii " \\" := by
    rw [← List.drop_drop, List.drop_left]
    rfl
  have short : (value ++ ascii " \\").take ((value ++ ascii " \\").length - 2) = value := by
    rw [List.length_append]
    exact List.take_left
  have blanks : (SummaryLine.pair (flag, value)).content.take 2 = ascii "  " := rfl
  simp only [readPair, if_pos blanks, indent, name, behind, found, short, Option.map_some]

theorem newline_notMem_numeral (n : Nat) : newline ∉ numeral n := fun member =>
  absurd (Decimal.isDigit_numeral n newline member) (by decide)

theorem newline_notMem_paddingFlag (padding : PaddingPolicy) : newline ∉ paddingFlag padding := by
  obtain ⟨kind, n⟩ := padding
  cases kind with
  | none => exact (by decide +kernel : newline ∉ ascii "none")
  | chunk => exact (by decide +kernel : newline ∉ ascii "chunk")
  | power2 => exact (by decide +kernel : newline ∉ ascii "power2")
  | fixedSize =>
    intro member
    rcases List.mem_append.mp member with front | number
    · exact absurd front (by decide +kernel)
    · exact newline_notMem_numeral _ number

/-- Lines without a line break of their own are read back one by one. -/
theorem printedPairs_print (lines : List SummaryLine)
    (plain : ∀ l ∈ lines, newline ∉ l.content)
    (reads : ∀ l ∈ lines, readPair l.content = l.printed?) :
    printedPairs (SummaryLine.print lines) = lines.filterMap SummaryLine.printed? := by
  unfold printedPairs
  induction lines with
  | nil => rfl
  | cons l lines ih =>
    obtain ⟨head, plain⟩ := List.forall_mem_cons.mp plain
    obtain ⟨first, reads⟩ := List.forall_mem_cons.mp reads
    have printed : SummaryLine.print (l :: lines) =
        l.content ++ newline :: SummaryLine.print lines := by
      unfold SummaryLine.print
      rw [List.flatMap_cons, List.append_assoc]
      rfl
    rw [printed, List.splitOn_append_cons_self_of_not_mem head, List.filterMap_cons, first,
      List.filterMap_cons, ih plain reads]

def OneLinePaths (o : GuiCommonOptions) : Prop :=
  newline ∉ o.input ∧ newline ∉ o.output ∧ ∀ keyfile ∈ o.keyfiles, newline ∉ filename keyfile

def SummaryLine.Readable (l : SummaryLine) : Prop :=
  newline ∉ l.content ∧ readPair l.content = l.printed?

theorem readable_pair {p : Pair} (plain : newline ∉ p.2) : (SummaryLine.pair p).Readable := by
  refine ⟨?_, readPair_pair p⟩
  have name : newline ∉ p.1.name := by cases p.1 <;> decide +kernel
  intro member
  rcases List.mem_append.mp member with indent | member
  · exact absurd indent (by decide +kernel)
  rcases List.mem_append.mp member with member | member
  · rcases List.mem_append.mp member with member | blank
    · exact name member
    · exact absurd blank (by decide +kernel)
  · rcases List.mem_append.mp member with member | continuation
    · exact plain member
    · exact absurd continuation (by decide +kernel)

theorem readable_heading {command : Bytes} {o : GuiCommonOptions} (plain : newline ∉ command)
    (paths : OneLinePaths o) : ∀ l ∈ heading command o, l.Readable := by
  have shown : ∀ path : Bytes, ∀ blank, newline ∉ path → newline ∉ ascii blank →
      newline ∉ (if path.isEmpty then ascii blank else path) := by
    intro path blank plain none
    split
    · exact none
    · exact plain
  have input := shown o.input "<input>" paths.1 (by decide +kernel)
  have output := shown o.output "<output>" paths.2.1 (by decide +kernel)
  refine List.forall_mem_cons.mpr ⟨⟨by decide +kernel, rfl⟩, List.forall_mem_cons.mpr
    ⟨⟨by decide +kernel, rfl⟩, List.forall_mem_cons.mpr ⟨⟨by decide +kernel, rfl⟩,
      List.forall_mem_singleton.mpr ⟨?_, rfl⟩⟩⟩⟩
  intro member
  simp only [SummaryLine.content, List.mem_append] at member
  rcases member with front | ((((member | blank) | member) | blank) | member) | back
  · exact absurd front (by decide +kernel)
  · exact plain member
  · exact absurd blank (by decide +kernel)
  · exact input member
  · exact absurd blank (by decide +kernel)
  · exact output member
  · exact absurd back (by decide +kernel)

theorem readable_appendCommonFlags {o : GuiCommonOptions} (paths : OneLinePaths o) :
    ∀ l ∈ appendCommonFlags o, l.Readable := by
  intro l member
  rcases List.mem_append.mp member with keyfile | last
  · obtain ⟨path, listed, rfl⟩ := List.mem_map.mp keyfile
    refine ⟨?_, rfl⟩
    intro member
    simp only [keyfileLine, SummaryLine.content, List.mem_append] at member
    rcases member with (front | name) | back
    · exact absurd front (by decide +kernel)
    · exact paths.2.2 path listed name
    · exact absurd back (by decide +kernel)
  · rcases List.mem_cons.mp last with rfl | last
    · refine readable_pair ?_
      unfold durabilityPair
      cases o.durabilityMode <;> decide +kernel
    · obtain rfl := List.mem_singleton.mp last
      exact ⟨by decide +kernel, rfl⟩

theorem readable_encryptSummary {o : GuiEncryptOptions}
    (paths : OneLinePaths o.toGuiCommonOptions) :
    ∀ l ∈ encryptSummary o, l.Readable := by
  intro l member
  rcases List.mem_append.mp member with member | common
  · rcases List.mem_append.mp member with top | own
    · exact readable_heading (by decide +kernel) paths l top
    · obtain ⟨p, listed, rfl⟩ := List.mem_map.mp own
      refine readable_pair ?_
      simp only [encryptLines, List.mem_cons, List.not_mem_nil, or_false] at listed
      rcases listed with rfl | rfl | rfl | rfl | rfl
      · cases o.suite <;> decide +kernel
      · cases o.kdfPreset <;> decide +kernel
      · exact newline_notMem_numeral _
      · exact newline_notMem_numeral _
      · exact newline_notMem_paddingFlag _
  · exact readable_appendCommonFlags paths l common

theorem readable_decryptSummary {o : GuiDecryptOptions}
    (paths : OneLinePaths o.toGuiCommonOptions) :
    ∀ l ∈ decryptSummary o, l.Readable := by
  intro l member
  rcases List.mem_append.mp member with member | common
  · rcases List.mem_append.mp member with member | own
    · rcases List.mem_append.mp member with top | replaced
      · exact readable_heading (by decide +kernel) paths l top
      · split at replaced
        · obtain rfl := List.mem_singleton.mp replaced
          exact ⟨by decide +kernel, rfl⟩
        · exact absurd replaced List.not_mem_nil
    · obtain ⟨p, listed, rfl⟩ := List.mem_map.mp own
      refine readable_pair ?_
      simp only [decryptLines, List.mem_cons, List.not_mem_nil, or_false] at listed
      rcases listed with rfl | rfl | rfl | rfl
      · cases o.hardenedExtract <;> decide +kernel
      · exact newline_notMem_numeral _
      · exact newline_notMem_numeral _
      · exact newline_notMem_numeral _
  · exact readable_appendCommonFlags paths l common

/-! What the parser of the command line makes of the printed pairs. -/

inductive GuiOptions where
  | encrypt (options : GuiEncryptOptions)
  | decrypt (options : GuiDecryptOptions) (platformSupported : Bool)

/-- The fixed size counts under the fixed-size policy only. -/
def heldPadding (padding : PaddingPolicy) : PaddingPolicy :=
  { padding with fixedSizeBytes := if padding.kind = .fixedSize then padding.fixedSizeBytes else 0 }

namespace GuiOptions

/-- `gui::validate` finds no error, and the KDF preset has a name on the command line. -/
def Valid : GuiOptions → Prop
  | encrypt o => validateEncrypt o = .ok [] ∧ o.kdfPreset ≠ .custom
  | decrypt o platformSupported => validateDecrypt o platformSupported = []

def command : GuiOptions → Bytes
  | encrypt _ => ascii "encrypt"
  | decrypt _ _ => ascii "decrypt"

def lines : GuiOptions → List SummaryLine
  | encrypt o => encryptSummary o
  | decrypt o _ => decryptSummary o

/-- `generate_cmd_summary`. -/
def summary : GuiOptions → Bytes
  | encrypt o => generateEncryptSummary o
  | decrypt o _ => generateDecryptSummary o

def pairs (gui : GuiOptions) : List Pair := gui.lines.filterMap SummaryLine.printed?

def common : GuiOptions → GuiCommonOptions
  | encrypt o => o.toGuiCommonOptions
  | decrypt o _ => o.toGuiCommonOptions


def Sets : GuiOptions → ParsedArgs → Flag → Prop
  | encrypt o, parsed, .suite => parsed.encrypt.suite = o.suite
  | encrypt o, parsed, .kdf => parsed.encrypt.kdfPreset = o.kdfPreset
  | encrypt o, parsed, .chunkSize => parsed.encrypt.chunkSize = o.chunkSize
  | encrypt o, parsed, .shardSize => parsed.encrypt.shardSize = o.shardSize
  | encrypt o, parsed, .padding => parsed.encrypt.padding = heldPadding o.padding
  | encrypt o, parsed, .durability => parsed.encrypt.durabilityMode = o.durabilityMode
  | decrypt o _, parsed, .hardenedExtract => parsed.decrypt.hardenedExtract = o.hardenedExtract
  | decrypt o _, parsed, .maxKdfMemory =>
    parsed.decrypt.kdfPolicy.maxMemoryKib = o.kdfPolicy.maxMemoryKib
  | decrypt o _, parsed, .maxKdfIterations =>
    parsed.decrypt.kdfPolicy.maxIterations = o.kdfPolicy.maxIterations
  | decrypt o _, parsed, .maxKdfParallelism =>
    parsed.decrypt.kdfPolicy.maxParallelism = o.kdfPolicy.maxParallelism
  | decrypt o _, parsed, .durability => parsed.decrypt.durabilityMode = o.durabilityMode
  | _, _, _ => False

/-- The parser accepts these pairs and sets each option to the value that the GUI holds. -/
def Agrees (gui : GuiOptions) (chosen : List Pair) : Prop :=
  ∃ parsed, parseArgs (ascii "bseal" :: gui.command ::
      chosen.flatMap fun p => [p.1.name, p.2]) = .ok parsed ∧
    ∀ p ∈ chosen, gui.Sets parsed p.1

end GuiOptions

theorem printed_appendCommonFlags (o : GuiCommonOptions) :
    (appendCommonFlags o).filterMap SummaryLine.printed? = [durabilityPair o] := by
  have keyfiles : (o.keyfiles.map keyfileLine).filterMap SummaryLine.printed? = [] := by
    rw [List.filterMap_map, List.filterMap_eq_nil_iff]
    exact fun _ _ => rfl
  unfold appendCommonFlags
  rw [List.filterMap_append, keyfiles]
  rfl

theorem printed_pairs (pairs : List Pair) :
    (pairs.map SummaryLine.pair).filterMap SummaryLine.printed? = pairs := by
  rw [List.filterMap_map]
  exact List.filterMap_some

theorem GuiOptions.pairs_encrypt (o : GuiEncryptOptions) :
    (GuiOptions.encrypt o).pairs = encryptLines o ++ [durabilityPair o.toGuiCommonOptions] := by
  change (encryptSummary o).filterMap SummaryLine.printed? = _
  unfold encryptSummary
  rw [List.filterMap_append, List.filterMap_append, printed_pairs, printed_appendCommonFlags]
  rfl

theorem GuiOptions.pairs_decrypt (o : GuiDecryptOptions) (platformSupported : Bool) :
    (GuiOptions.decrypt o platformSupported).pairs =
      decryptLines o ++ [durabilityPair o.toGuiCommonOptions] := by
  change (decryptSummary o).filterMap SummaryLine.printed? = _
  unfold decryptSummary
  rw [List.filterMap_append, List.filterMap_append, List.filterMap_append, printed_pairs,
    printed_appendCommonFlags]
  cases o.overwrite <;> rfl

theorem GuiOptions.summary_eq (gui : GuiOptions) : gui.summary = SummaryLine.print gui.lines := by
  cases gui <;> rfl

/-- The text of a summary gives back its pairs. -/
theorem GuiOptions.printedPairs_summary {gui : GuiOptions} (paths : OneLinePaths gui.common) :
    printedPairs gui.summary = gui.pairs := by
  have readable : ∀ l ∈ gui.lines, l.Readable := by
    cases gui with
    | encrypt o => exact readable_encryptSummary paths
    | decrypt o platformSupported => exact readable_decryptSummary paths
  rw [gui.summary_eq, printedPairs_print _ (fun l member => (readable l member).1)
    fun l member => (readable l member).2]
  rfl

section Encrypt
variable {gui : GuiEncryptOptions} {o : EncryptOptions} {p : Pair}

def setEncrypt (gui : GuiEncryptOptions) : Flag → EncryptOptions → EncryptOptions
  | .suite, o => { o with suite := gui.suite }
  | .kdf, o => { o with kdfPreset := gui.kdfPreset }
  | .chunkSize, o => { o with chunkSize := gui.chunkSize }
  | .shardSize, o => { o with shardSize := gui.shardSize, shardSizeExplicit := true }
  | .padding, o => { o with padding := heldPadding gui.padding }
  | .durability, o => { o with durabilityMode := gui.durabilityMode }
  | .hardenedExtract, o | .maxKdfMemory, o | .maxKdfIterations, o | .maxKdfParallelism, o => o

theorem parseSuite_flag (suite : CipherSuite) : parseSuite (suiteFlag suite) = .ok suite := by
  cases suite <;> rfl

theorem parseKdf_flag {preset : KdfPreset} (named : preset ≠ .custom) :
    parseKdf (kdfFlag preset) = .ok preset := by
  cases preset with
  | custom => exact absurd rfl named
  | fast | strong | paranoid => rfl

theorem parseDurability_flag (mode : DurabilityMode) :
    parseDurability (durabilityFlag mode) = .ok mode := by
  cases mode <;> rfl

theorem parseHardenedExtract_flag (mode : HardenedExtractMode) :
    parseHardenedExtract (hardenedFlag mode) = .ok mode := by
  cases mode <;> rfl

theorem parsePadding_flag (padding : PaddingPolicy) :
    parsePadding (paddingFlag padding) = .ok (heldPadding padding) := by
  obtain ⟨kind, n⟩ := padding
  cases kind with
  | none | chunk | power2 => rfl
  | fixedSize =>
    have behind : (ascii "fixed-size=" ++ numeral n.toNat).drop kFixedSize.length =
        numeral n.toNat := List.drop_left
    have head : kFixedSize.isPrefixOf (ascii "fixed-size=" ++ numeral n.toNat) = true := rfl
    unfold paddingFlag parsePadding
    rw [if_neg (by rintro ⟨⟩), if_neg (by rintro ⟨⟩), if_neg (by rintro ⟨⟩), if_pos head, behind,
      parseSizeBytes_numeral]
    rfl

theorem encrypt_pair (named : gui.kdfPreset ≠ .custom)
    (printed : p ∈ (GuiOptions.encrypt gui).pairs) :
    ∃ set, encryptAction p.1.name = some (.value set) ∧
      ∀ o, set o p.2 = .ok (setEncrypt gui p.1 o) := by
  simp only [GuiOptions.pairs_encrypt, encryptLines, durabilityPair, List.cons_append,
    List.nil_append, List.mem_cons, List.not_mem_nil, or_false] at printed
  rcases printed with rfl | rfl | rfl | rfl | rfl | rfl
  · refine ⟨_, rfl, fun o => ?_⟩
    rw [parseSuite_flag]
    rfl
  · refine ⟨_, rfl, fun o => ?_⟩
    rw [parseKdf_flag named]
    rfl
  · refine ⟨_, rfl, fun o => ?_⟩
    rw [parseSizeBytes_numeral]
    rfl
  · refine ⟨_, rfl, fun o => ?_⟩
    rw [parseSizeBytes_numeral]
    rfl
  · refine ⟨_, rfl, fun o => ?_⟩
    rw [parsePadding_flag]
    rfl
  · refine ⟨_, rfl, fun o => ?_⟩
    rw [parseDurability_flag]
    rfl

theorem sets_setEncrypt (printed : p ∈ (GuiOptions.encrypt gui).pairs) :
    (GuiOptions.encrypt gui).Sets { command := .encrypt, encrypt := setEncrypt gui p.1 o } p.1 := by
  simp only [GuiOptions.pairs_encrypt, encryptLines, durabilityPair, List.cons_append,
    List.nil_append, List.mem_cons, List.not_mem_nil, or_false] at printed
  rcases printed with rfl | rfl | rfl | rfl | rfl | rfl <;> rfl

theorem setEncrypt_keeps (f g : Flag)
    (sets : (GuiOptions.encrypt gui).Sets { command := .encrypt, encrypt := o } g) :
    (GuiOptions.encrypt gui).Sets { command := .encrypt, encrypt := setEncrypt gui f o } g := by
  cases g <;> cases f <;> first | exact sets | rfl

theorem setEncrypt_stdoutOutput (f : Flag) :
    (setEncrypt gui f o).stdoutOutput = o.stdoutOutput := by
  cases f <;> rfl

/-- Pairs of an encrypt summary, in any number and order, set their options. -/
theorem parseEncrypt_pairs (named : gui.kdfPreset ≠ .custom) (unknown : String)
    (chosen : List Pair) (printed : ∀ p ∈ chosen, p ∈ (GuiOptions.encrypt gui).pairs)
    (o : EncryptOptions) :
    ∃ result, parseOptions encryptAction unknown o (chosen.flatMap fun p => [p.1.name, p.2]) =
        .ok result ∧ result.stdoutOutput = o.stdoutOutput ∧
      (∀ f, (GuiOptions.encrypt gui).Sets { command := .encrypt, encrypt := o } f →
        (GuiOptions.encrypt gui).Sets { command := .encrypt, encrypt := result } f) ∧
      ∀ p ∈ chosen,
        (GuiOptions.encrypt gui).Sets { command := .encrypt, encrypt := result } p.1 := by
  induction chosen generalizing o with
  | nil => exact ⟨o, rfl, rfl, fun _ sets => sets, fun p none => absurd none List.not_mem_nil⟩
  | cons p chosen ih =>
    obtain ⟨first, others⟩ := List.forall_mem_cons.mp printed
    obtain ⟨set, known, sets⟩ := encrypt_pair named first
    obtain ⟨result, parsed, stdout, keeps, all⟩ := ih others (setEncrypt gui p.1 o)
    refine ⟨result, (parseOptions_value known result).mpr ⟨_, sets o, parsed⟩,
      stdout.trans (setEncrypt_stdoutOutput p.1),
      fun f held => keeps f (setEncrypt_keeps p.1 f held),
      List.forall_mem_cons.mpr ⟨keeps p.1 (sets_setEncrypt first), all⟩⟩

theorem encrypt_agrees (named : gui.kdfPreset ≠ .custom) {chosen : List Pair}
    (printed : ∀ p ∈ chosen, p ∈ (GuiOptions.encrypt gui).pairs) :
    (GuiOptions.encrypt gui).Agrees chosen := by
  obtain ⟨result, parsed, stdout, -, all⟩ :=
    parseEncrypt_pairs named "unknown option: " chosen printed {}
  refine ⟨{ command := .encrypt, encrypt := result },
    (parseCommand_encrypt_ok _ _).mpr ⟨result, parsed, ?_, rfl⟩, all⟩
  rw [stdout]
  rintro ⟨⟨⟩, -⟩

end Encrypt

section Decrypt
variable {gui : GuiDecryptOptions} {platformSupported : Bool} {o : DecryptOptions} {p : Pair}

/-- The limit is printed in KiB and read back as a number of bytes. -/
def setDecrypt (gui : GuiDecryptOptions) : Flag → DecryptOptions → DecryptOptions
  | .hardenedExtract, o => { o with hardenedExtract := gui.hardenedExtract }
  | .maxKdfMemory, o =>
    { o with kdfPolicy := { o.kdfPolicy with maxMemoryKib := gui.kdfPolicy.maxMemoryKib / 1024 } }
  | .maxKdfIterations, o =>
    { o with kdfPolicy := { o.kdfPolicy with maxIterations := gui.kdfPolicy.maxIterations } }
  | .maxKdfParallelism, o =>
    { o with kdfPolicy := { o.kdfPolicy with maxParallelism := gui.kdfPolicy.maxParallelism } }
  | .durability, o => { o with durabilityMode := gui.durabilityMode }
  | .suite, o | .kdf, o | .chunkSize, o | .shardSize, o | .padding, o => o

theorem decrypt_pair (printed : p ∈ (GuiOptions.decrypt gui platformSupported).pairs) :
    ∃ set, decryptAction p.1.name = some (.value set) ∧ ∀ o o', set o p.2 = .ok o' ↔
      (p.1 = .maxKdfMemory → gui.kdfPolicy.maxMemoryKib.toNat % 1024 = 0) ∧
        setDecrypt gui p.1 o = o' := by
  simp only [GuiOptions.pairs_decrypt, decryptLines, durabilityPair, List.cons_append,
    List.nil_append, List.mem_cons, List.not_mem_nil, or_false] at printed
  rcases printed with rfl | rfl | rfl | rfl | rfl
  · refine ⟨_, rfl, fun o o' => ?_⟩
    rw [parseHardenedExtract_flag, Result.ok_bind]
    exact (Except.ok.injEq ..).to_iff.trans (and_iff_right (by rintro ⟨⟩)).symm
  · refine ⟨_, rfl, fun o o' => ?_⟩
    simp only [Result.bind_eq_ok, parseSizeKib_numeral]
    constructor
    · rintro ⟨k, ⟨whole, quotient⟩, same⟩
      have same := Except.ok.inj same
      obtain rfl : k = gui.kdfPolicy.maxMemoryKib / 1024 := UInt32.toNat_inj.mp quotient
      exact ⟨fun _ => whole, same⟩
    · rintro ⟨whole, rfl⟩
      exact ⟨_, ⟨whole trivial, rfl⟩, rfl⟩
  · refine ⟨_, rfl, fun o o' => ?_⟩
    rw [parseU32_numeral, Result.ok_bind]
    exact (Except.ok.injEq ..).to_iff.trans (and_iff_right (by rintro ⟨⟩)).symm
  · refine ⟨_, rfl, fun o o' => ?_⟩
    rw [parseU32_numeral, Result.ok_bind]
    exact (Except.ok.injEq ..).to_iff.trans (and_iff_right (by rintro ⟨⟩)).symm
  · refine ⟨_, rfl, fun o o' => ?_⟩
    rw [parseDurability_flag, Result.ok_bind]
    exact (Except.ok.injEq ..).to_iff.trans (and_iff_right (by rintro ⟨⟩)).symm

theorem sets_setDecrypt (printed : p ∈ (GuiOptions.decrypt gui platformSupported).pairs)
    (other : p.1 ≠ .maxKdfMemory) :
    (GuiOptions.decrypt gui platformSupported).Sets
      { command := .decrypt, decrypt := setDecrypt gui p.1 o } p.1 := by
  simp only [GuiOptions.pairs_decrypt, decryptLines, durabilityPair, List.cons_append,
    List.nil_append, List.mem_cons, List.not_mem_nil, or_false] at printed
  rcases printed with rfl | rfl | rfl | rfl | rfl
  · rfl
  · exact absurd rfl other
  · rfl
  · rfl
  · rfl

theorem setDecrypt_keeps {f g : Flag} (other : f ≠ .maxKdfMemory)
    (sets : (GuiOptions.decrypt gui platformSupported).Sets
      { command := .decrypt, decrypt := o } g) :
    (GuiOptions.decrypt gui platformSupported).Sets
      { command := .decrypt, decrypt := setDecrypt gui f o } g := by
  cases g <;> cases f <;> first | exact sets | rfl | exact absurd rfl other

theorem KdfPolicyRules.setDecrypt {f : Flag} (other : f ≠ .maxKdfMemory)
    (rules : KdfPolicyRules gui.kdfPolicy) (now : KdfPolicyRules o.kdfPolicy) :
    KdfPolicyRules (setDecrypt gui f o).kdfPolicy := by
  cases f with
  | maxKdfMemory => exact absurd rfl other
  | maxKdfIterations => exact ⟨now.maxMemoryKib, rules.maxIterations, now.maxParallelism⟩
  | maxKdfParallelism => exact ⟨now.maxMemoryKib, now.maxIterations, rules.maxParallelism⟩
  | suite | kdf | chunkSize | shardSize | padding | durability | hardenedExtract => exact now

/-- Pairs of a decrypt summary but for the memory limit, in any number and order. -/
theorem parseDecrypt_pairs (rules : KdfPolicyRules gui.kdfPolicy) (unknown : String)
    (chosen : List Pair)
    (printed : ∀ p ∈ chosen, p ∈ (GuiOptions.decrypt gui platformSupported).pairs)
    (others : ∀ p ∈ chosen, p.1 ≠ .maxKdfMemory) (o : DecryptOptions)
    (now : KdfPolicyRules o.kdfPolicy) :
    ∃ result, parseOptions decryptAction unknown o (chosen.flatMap fun p => [p.1.name, p.2]) =
        .ok result ∧ KdfPolicyRules result.kdfPolicy ∧
      (∀ f, (GuiOptions.decrypt gui platformSupported).Sets
          { command := .decrypt, decrypt := o } f →
        (GuiOptions.decrypt gui platformSupported).Sets
          { command := .decrypt, decrypt := result } f) ∧
      ∀ p ∈ chosen, (GuiOptions.decrypt gui platformSupported).Sets
        { command := .decrypt, decrypt := result } p.1 := by
  induction chosen generalizing o with
  | nil => exact ⟨o, rfl, now, fun _ sets => sets, fun p none => absurd none List.not_mem_nil⟩
  | cons p chosen ih =>
    obtain ⟨first, rest⟩ := List.forall_mem_cons.mp printed
    obtain ⟨other, others⟩ := List.forall_mem_cons.mp others
    obtain ⟨set, known, sets⟩ := decrypt_pair first
    obtain ⟨result, parsed, valid, keeps, all⟩ :=
      ih rest others (setDecrypt gui p.1 o) (KdfPolicyRules.setDecrypt other rules now)
    have step := (sets o _).mpr ⟨fun memory => absurd memory other, rfl⟩
    exact ⟨result, (parseOptions_value known result).mpr ⟨_, step, parsed⟩, valid,
      fun f held => keeps f (setDecrypt_keeps other held),
      List.forall_mem_cons.mpr ⟨keeps p.1 (sets_setDecrypt first other), all⟩⟩

theorem parseDecrypt_memory (rules : KdfPolicyRules gui.kdfPolicy) (unknown : String)
    (chosen : List Pair)
    (printed : ∀ p ∈ chosen, p ∈ (GuiOptions.decrypt gui platformSupported).pairs)
    (o result : DecryptOptions)
    (parsed : parseOptions decryptAction unknown o (chosen.flatMap fun p => [p.1.name, p.2]) =
      .ok result)
    (given : o.kdfPolicy.maxMemoryKib ≠ gui.kdfPolicy.maxMemoryKib ∨
      ∃ p ∈ chosen, p.1 = .maxKdfMemory) :
    result.kdfPolicy.maxMemoryKib ≠ gui.kdfPolicy.maxMemoryKib := by
  induction chosen generalizing o with
  | nil =>
    cases parsed
    rcases given with differs | ⟨p, none, -⟩
    · exact differs
    · exact absurd none List.not_mem_nil
  | cons p chosen ih =>
    obtain ⟨first, rest⟩ := List.forall_mem_cons.mp printed
    obtain ⟨set, known, sets⟩ := decrypt_pair first
    obtain ⟨o', step, parsed⟩ := (parseOptions_value known result).mp parsed
    obtain ⟨-, rfl⟩ := (sets o o').mp step
    refine ih rest _ parsed ?_
    by_cases memory : p.1 = .maxKdfMemory
    · left
      rw [memory]
      intro same
      have quotient := congrArg UInt32.toNat same
      have positive : gui.kdfPolicy.maxMemoryKib.toNat ≠ 0 := fun zero =>
        rules.maxMemoryKib.1 (UInt32.toNat_inj.mp zero)
      rw [setDecrypt, UInt32.toNat_div] at quotient
      change gui.kdfPolicy.maxMemoryKib.toNat / 1024 = gui.kdfPolicy.maxMemoryKib.toNat at quotient
      omega
    · rcases given with differs | ⟨q, member, isMemory⟩
      · left
        obtain ⟨f, v⟩ := p
        cases f <;> first | exact differs | exact absurd rfl memory
      · rcases List.mem_cons.mp member with rfl | member
        · exact absurd isMemory memory
        · exact Or.inr ⟨q, member, isMemory⟩

theorem policyErrors_eq_nil (policy : KdfResourcePolicy) :
    policyErrors policy = [] ↔ KdfPolicyRules policy := by
  rw [← Crypto.validateKdfResourcePolicy_ok policy ()]
  unfold policyErrors
  cases Crypto.validateKdfResourcePolicy policy <;> simp

theorem decrypt_agrees (rules : KdfPolicyRules gui.kdfPolicy) {chosen : List Pair}
    (printed : ∀ p ∈ chosen, p ∈ (GuiOptions.decrypt gui platformSupported).pairs) :
    (GuiOptions.decrypt gui platformSupported).Agrees chosen ↔
      ∀ p ∈ chosen, p.1 ≠ .maxKdfMemory := by
  constructor
  · rintro ⟨args, accepted, all⟩ p member memory
    obtain ⟨result, parsed, -, rfl⟩ := (parseCommand_decrypt_ok _ _).mp accepted
    have sets := all p member
    rw [memory] at sets
    exact parseDecrypt_memory rules _ chosen printed {} result parsed
      (Or.inr ⟨p, member, memory⟩) sets
  · intro others
    obtain ⟨result, parsed, valid, -, all⟩ := parseDecrypt_pairs rules "unknown option: " chosen
      printed others {} ⟨by decide, by decide, by decide⟩
    exact ⟨_, (parseCommand_decrypt_ok _ _).mpr ⟨result, parsed, valid, rfl⟩, all⟩

end Decrypt

theorem encrypt_not_memory {o : GuiEncryptOptions} {p : Pair}
    (printed : p ∈ (GuiOptions.encrypt o).pairs) : p.1 ≠ .maxKdfMemory := by
  intro memory
  simp only [GuiOptions.pairs_encrypt, encryptLines, durabilityPair, List.cons_append,
    List.nil_append, List.mem_cons, List.not_mem_nil, or_false] at printed
  rcases printed with rfl | rfl | rfl | rfl | rfl | rfl <;> cases memory

theorem GuiOptions.Valid.policy {o : GuiDecryptOptions} {platformSupported : Bool}
    (valid : (GuiOptions.decrypt o platformSupported).Valid) : KdfPolicyRules o.kdfPolicy :=
  (policyErrors_eq_nil _).mp (List.append_eq_nil_iff.mp valid).2

theorem agrees_iff {gui : GuiOptions} (valid : gui.Valid) {chosen : List Pair}
    (printed : ∀ p ∈ chosen, p ∈ gui.pairs) :
    gui.Agrees chosen ↔ ∀ p ∈ chosen, p.1 ≠ .maxKdfMemory := by
  cases gui with
  | encrypt o =>
    exact iff_of_true (encrypt_agrees valid.2 printed)
      fun p member => encrypt_not_memory (printed p member)
  | decrypt o platformSupported => exact decrypt_agrees valid.policy printed

/-- Pairs of a summary agree with the parser when the memory limit is not among them, and only
then; so all pairs of a summary do exactly when it is one of encryption. -/
theorem summary_agrees_iff (gui : GuiOptions) (valid : gui.Valid) :
    gui.summary = SummaryLine.print gui.lines ∧
    (OneLinePaths gui.common → printedPairs gui.summary = gui.pairs) ∧
    (∀ chosen, (∀ p ∈ chosen, p ∈ gui.pairs) →
      (gui.Agrees chosen ↔ ∀ p ∈ chosen, p.1 ≠ .maxKdfMemory)) ∧
    ((∀ p ∈ gui.pairs, gui.Agrees [p]) ↔ ∃ o, gui = .encrypt o) := by
  refine ⟨gui.summary_eq, GuiOptions.printedPairs_summary,
    fun chosen printed => agrees_iff valid printed, ?_⟩
  have single : ∀ p ∈ gui.pairs, gui.Agrees [p] ↔ p.1 ≠ .maxKdfMemory := by
    intro p printed
    rw [agrees_iff valid (List.forall_mem_singleton.mpr printed), List.forall_mem_singleton]
  cases gui with
  | encrypt o =>
    exact iff_of_true (fun p printed => (single p printed).mpr (encrypt_not_memory printed))
      ⟨o, rfl⟩
  | decrypt o platformSupported =>
    constructor
    · intro all
      have printed : (Flag.maxKdfMemory, numeral o.kdfPolicy.maxMemoryKib.toNat) ∈
          (GuiOptions.decrypt o platformSupported).pairs := by
        rw [GuiOptions.pairs_decrypt]
        exact List.mem_append_left _ (List.mem_cons_of_mem _ List.mem_cons_self)
      exact absurd rfl ((single _ printed).mp (all _ printed))
    · rintro ⟨o', ⟨⟩⟩

def freshDecrypt : GuiDecryptOptions where
  input := ascii "/i"
  output := ascii "/o"

theorem freshDecrypt_valid : (GuiOptions.decrypt freshDecrypt true).Valid := by
  have none : validateDecrypt freshDecrypt true = [] := by decide +kernel
  exact none

theorem freshDecrypt_paths : OneLinePaths (GuiOptions.decrypt freshDecrypt true).common :=
  ⟨by decide +kernel, by decide +kernel, fun _ none => absurd none List.not_mem_nil⟩

theorem summary_agrees_iff_fresh :
    printedPairs (generateDecryptSummary freshDecrypt) =
      [(.hardenedExtract, ascii "auto"), (.maxKdfMemory, numeral 2097152),
        (.maxKdfIterations, numeral 4), (.maxKdfParallelism, numeral 8),
        (.durability, ascii "best-effort")] ∧
    ¬∀ p ∈ (GuiOptions.decrypt freshDecrypt true).pairs,
      (GuiOptions.decrypt freshDecrypt true).Agrees [p] := by
  obtain ⟨-, printed, -, all⟩ := summary_agrees_iff _ freshDecrypt_valid
  constructor
  · exact (printed freshDecrypt_paths).trans (GuiOptions.pairs_decrypt freshDecrypt true)
  · rw [all]
    rintro ⟨o, ⟨⟩⟩

theorem numeral_memory : numeral 2097152 = ascii "2097152" := by decide +kernel

/-- The default limit of 2 GiB is printed as `2097152` and read back as 2 MiB. -/
theorem memory_limit_read_back :
    (GuiOptions.decrypt freshDecrypt true).Valid ∧
    (Flag.maxKdfMemory, ascii "2097152") ∈ printedPairs (generateDecryptSummary freshDecrypt) ∧
    parseArgs [ascii "bseal", ascii "decrypt", ascii "--max-kdf-memory", ascii "2097152"] =
      .ok { command := .decrypt, decrypt := { kdfPolicy := { maxMemoryKib := 2048 } } } ∧
    ¬(GuiOptions.decrypt freshDecrypt true).Agrees [(.maxKdfMemory, ascii "2097152")] := by
  have parsed : parseArgs [ascii "bseal", ascii "decrypt", ascii "--max-kdf-memory",
      ascii "2097152"] =
      .ok { command := .decrypt, decrypt := { kdfPolicy := { maxMemoryKib := 2048 } } } := rfl
  refine ⟨freshDecrypt_valid, ?_, parsed, ?_⟩
  · have printed : printedPairs (generateDecryptSummary freshDecrypt) = _ :=
      GuiOptions.printedPairs_summary freshDecrypt_paths
    rw [printed, GuiOptions.pairs_decrypt, ← numeral_memory]
    exact List.mem_append_left _ (List.mem_cons_of_mem _ List.mem_cons_self)
  · rintro ⟨args, accepted, all⟩
    have same := Except.ok.inj (parsed.symm.trans accepted)
    have sets : args.decrypt.kdfPolicy.maxMemoryKib = 2097152 := all _ List.mem_cons_self
    rw [← same] at sets
    cases sets

end Bseal.Gui
