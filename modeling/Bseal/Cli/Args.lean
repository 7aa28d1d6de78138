import Bseal.App.Padding
import Bseal.Common.SizeParser
import Bseal.Crypto.Backend
import Bseal.Crypto.Kdf
import Bseal.Platform.Disk

/-! `parse_args` of `cli/Args`. Arguments are the bytes of the C strings, without their NUL. -/
namespace Bseal.Cli
open App (PaddingPolicy PaddingPolicyKind)
open Crypto (CipherSuite KdfPreset KdfResourcePolicy)
open Platform (DurabilityMode)

inductive Command where
  | help
  | encrypt
  | decrypt
  | benchmarkKdf
  | cpuFeatures
  | selfTest
  deriving DecidableEq, Repr

inductive HardenedExtractMode where
  | auto
  | on
  | off
  deriving DecidableEq, Repr

structure CommonOptions where
  input : Bytes := []
  output : Bytes := []
  keyfiles : List Bytes := []
  passphrasePrompt : Bool := false
  verbose : Bool := false
  durabilityMode : DurabilityMode := .bestEffort
  lockMemory : Bool := false
  requireLockMemory : Bool := false
  deriving DecidableEq

structure EncryptOptions extends CommonOptions where
  suite : CipherSuite := .xChaCha20Poly1305
  kdfPreset : KdfPreset := .strong
  chunkSize : UInt64 := 16 * 1024 * 1024
  shardSize : UInt64 := 4 * 1024 * 1024 * 1024
  padding : PaddingPolicy := ⟨.power2, 0⟩
  stdoutOutput : Bool := false
  shardSizeExplicit : Bool := false
  allowLargeStdout : Bool := false
  deriving DecidableEq

structure DecryptOptions extends CommonOptions where
  overwrite : Bool := false
  kdfPolicy : KdfResourcePolicy := {}
  hardenedExtract : HardenedExtractMode := .auto
  deriving DecidableEq

structure BenchmarkKdfOptions where
  dryRun : Bool := false
  deriving DecidableEq

structure SelfTestOptions where
  strict : Bool := false
  deriving DecidableEq

structure ParsedArgs where
  command : Command := .help
  encrypt : EncryptOptions := {}
  decrypt : DecryptOptions := {}
  benchmarkKdf : BenchmarkKdfOptions := {}
  selfTest : SelfTestOptions := {}
  deriving DecidableEq

def parseSuite (value : Bytes) : Result CipherSuite :=
  if value = ascii "xchacha20-poly1305" then .ok .xChaCha20Poly1305
  else if value = ascii "aes-256-gcm" then .ok .aes256Gcm
  else .error (.invalidArgument ("unknown cipher suite '" ++ text value ++
    "'; valid values: xchacha20-poly1305, aes-256-gcm"))

def parseHardenedExtract (value : Bytes) : Result HardenedExtractMode :=
  if value = ascii "auto" then .ok .auto
  else if value = ascii "on" then .ok .on
  else if value = ascii "off" then .ok .off
  else .error (.invalidArgument ("unknown --hardened-extract value '" ++ text value ++
    "'; valid values: auto, on, off"))

def parseDurability (value : Bytes) : Result DurabilityMode :=
  if value = ascii "off" then .ok .off
  else if value = ascii "best-effort" then .ok .bestEffort
  else if value = ascii "on" then .ok .on
  else .error (.invalidArgument ("unknown --durability value '" ++ text value ++
    "'; valid values: off, best-effort, on"))

def parseKdf (value : Bytes) : Result KdfPreset :=
  if value = ascii "fast" then .ok .fast
  else if value = ascii "strong" then .ok .strong
  else if value = ascii "paranoid" then .ok .paranoid
  else .error (.invalidArgument ("unknown KDF preset '" ++ text value ++
    "'; valid values: fast, strong, paranoid"))

def kFixedSize : Bytes := ascii "fixed-size="

def parsePadding (value : Bytes) : Result PaddingPolicy :=
  if value = ascii "none" then .ok ⟨.none, 0⟩
  else if value = ascii "chunk" then .ok ⟨.chunk, 0⟩
  else if value = ascii "power2" then .ok ⟨.power2, 0⟩
  else if kFixedSize.isPrefixOf value then do
    let n ← parseSizeBytes (value.drop kFixedSize.length)
    pure ⟨.fixedSize, n⟩
  else .error (.invalidArgument ("unknown padding policy '" ++ text value ++
    "'; valid values: none, chunk, power2, fixed-size=N"))

def parseCommonOption (options : CommonOptions) (key value : Bytes) : Result CommonOptions :=
  if key = ascii "--input" then .ok { options with input := value }
  else if key = ascii "--output" then .ok { options with output := value }
  else if key = ascii "--keyfile" then .ok { options with keyfiles := options.keyfiles ++ [value] }
  else .error (.invalidArgument ("unknown or misplaced option: " ++ text key))

/-- What a key does: it sets a switch, or it reads the next argument. -/
inductive Action (ω : Type) where
  | switch (set : ω → ω)
  | value (set : ω → Bytes → Result ω)

/-- The loop of a command over its arguments; `action` is its chain of comparisons. -/
def parseOptions {ω : Type} (action : Bytes → Option (Action ω)) (unknown : String) :
    ω → List Bytes → Result ω
  | options, [] => .ok options
  | options, key :: rest =>
    match action key with
    | none => .error (.invalidArgument (unknown ++ text key))
    | some (.switch set) => parseOptions action unknown (set options) rest
    | some (.value set) =>
      match rest with
      | [] => .error (.invalidArgument "missing CLI argument value")
      | value :: rest => do
        let options ← set options value
        parseOptions action unknown options rest

def encryptAction (key : Bytes) : Option (Action EncryptOptions) :=
  if key = ascii "--passphrase-prompt" then some (.switch ({ · with passphrasePrompt := true }))
  else if key = ascii "--verbose" then some (.switch ({ · with verbose := true }))
  else if key = ascii "--suite" then
    some (.value fun o value => do
      let suite ← parseSuite value
      pure { o with suite := suite })
  else if key = ascii "--kdf" then
    some (.value fun o value => do
      let kdfPreset ← parseKdf value
      pure { o with kdfPreset := kdfPreset })
  else if key = ascii "--chunk-size" then
    some (.value fun o value => do
      let chunkSize ← parseSizeBytes value
      pure { o with chunkSize := chunkSize })
  else if key = ascii "--shard-size" then
    some (.value fun o value => do
      let shardSize ← parseSizeBytes value
      pure { o with shardSize := shardSize, shardSizeExplicit := true })
  else if key = ascii "--allow-large-stdout" then
    some (.switch ({ · with allowLargeStdout := true }))
  else if key = ascii "--lock-memory" then some (.switch ({ · with lockMemory := true }))
  else if key = ascii "--require-lock-memory" then
    some (.switch ({ · with lockMemory := true, requireLockMemory := true }))
  else if key = ascii "--padding" then
    some (.value fun o value => do
      let padding ← parsePadding value
      pure { o with padding := padding })
  else if key = ascii "--durability" then
    some (.value fun o value => do
      let durabilityMode ← parseDurability value
      pure { o with durabilityMode := durabilityMode })
  else if key = ascii "--output" then
    some (.value fun o value =>
      if value = ascii "-" then .ok { o with stdoutOutput := true }
      else .ok { o with output := value })
  else if key = ascii "--input" ∨ key = ascii "--keyfile" then
    some (.value fun o value => do
      let common ← parseCommonOption o.toCommonOptions key value
      pure { o with toCommonOptions := common })
  else none

def decryptAction (key : Bytes) : Option (Action DecryptOptions) :=
  if key = ascii "--passphrase-prompt" then some (.switch ({ · with passphrasePrompt := true }))
  else if key = ascii "--verbose" then some (.switch ({ · with verbose := true }))
  else if key = ascii "--overwrite" then some (.switch ({ · with overwrite := true }))
  else if key = ascii "--max-kdf-memory" then
    some (.value fun o value => do
      let maxMemoryKib ← parseSizeKib value
      pure { o with kdfPolicy := { o.kdfPolicy with maxMemoryKib := maxMemoryKib } })
  else if key = ascii "--max-kdf-iterations" then
    some (.value fun o value => do
      let maxIterations ← parseU32 value
      pure { o with kdfPolicy := { o.kdfPolicy with maxIterations := maxIterations } })
  else if key = ascii "--max-kdf-parallelism" then
    some (.value fun o value => do
      let maxParallelism ← parseU32 value
      pure { o with kdfPolicy := { o.kdfPolicy with maxParallelism := maxParallelism } })
  else if key = ascii "--hardened-extract" then
    some (.value fun o value => do
      let hardenedExtract ← parseHardenedExtract value
      pure { o with hardenedExtract := hardenedExtract })
  else if key = ascii "--lock-memory" then some (.switch ({ · with lockMemory := true }))
  else if key = ascii "--require-lock-memory" then
    some (.switch ({ · with lockMemory := true, requireLockMemory := true }))
  else if key = ascii "--durability" then
    some (.value fun o value => do
      let durabilityMode ← parseDurability value
      pure { o with durabilityMode := durabilityMode })
  else if key = ascii "--input" ∨ key = ascii "--output" ∨ key = ascii "--keyfile" then
    some (.value fun o value => do
      let common ← parseCommonOption o.toCommonOptions key value
      pure { o with toCommonOptions := common })
  else none

def benchmarkKdfAction (key : Bytes) : Option (Action BenchmarkKdfOptions) :=
  if key = ascii "--dry-run" then some (.switch ({ · with dryRun := true })) else none

def selfTestAction (key : Bytes) : Option (Action SelfTestOptions) :=
  if key = ascii "--strict" then some (.switch ({ · with strict := true })) else none

def parseCommand (command : Bytes) (arguments : List Bytes) : Result ParsedArgs :=
  if command = ascii "--help" ∨ command = ascii "-h" ∨ command = ascii "help" then .ok {}
  else if command = ascii "encrypt" then do
    let options ← parseOptions encryptAction "unknown option: " {} arguments
    if options.stdoutOutput ∧ options.shardSizeExplicit then
      .error (.invalidArgument
        "--shard-size is incompatible with --output -; stdout always produces one shard")
    else pure { command := .encrypt, encrypt := options }
  else if command = ascii "decrypt" then do
    let options ← parseOptions decryptAction "unknown option: " {} arguments
    Crypto.validateKdfResourcePolicy options.kdfPolicy
    pure { command := .decrypt, decrypt := options }
  else if command = ascii "benchmark-kdf" then do
    let options ← parseOptions benchmarkKdfAction "unknown option: " {} arguments
    pure { command := .benchmarkKdf, benchmarkKdf := options }
  else if command = ascii "cpu-features" then
    match arguments with
    | [] => .ok { command := .cpuFeatures }
    | argument :: _ => .error (.invalidArgument
        ("cpu-features takes no options; unknown: " ++ text argument))
  else if command = ascii "self-test" then do
    let options ← parseOptions selfTestAction "unknown self-test option: " {} arguments
    pure { command := .selfTest, selfTest := options }
  else .error (.invalidArgument ("unknown command: " ++ text command))

/-- `argv`, the name of the program first. -/
def parseArgs : List Bytes → Result ParsedArgs
  | [] | [_] => .ok {}
  | _ :: command :: arguments => parseCommand command arguments

theorem parseOptions_value {ω : Type} {action : Bytes → Option (Action ω)} {unknown : String}
    {o : ω} {key value : Bytes} {rest : List Bytes} {set : ω → Bytes → Result ω}
    (known : action key = some (.value set)) (result : ω) :
    parseOptions action unknown o (key :: value :: rest) = .ok result ↔
      ∃ o', set o value = .ok o' ∧ parseOptions action unknown o' rest = .ok result := by
  rw [parseOptions, known]
  exact Result.bind_eq_ok ..

theorem parseCommand_encrypt_ok (arguments : List Bytes) (parsed : ParsedArgs) :
    parseCommand (ascii "encrypt") arguments = .ok parsed ↔
      ∃ options, parseOptions encryptAction "unknown option: " {} arguments = .ok options ∧
        ¬(options.stdoutOutput ∧ options.shardSizeExplicit) ∧
        { command := .encrypt, encrypt := options } = parsed := by
  have other : ¬(ascii "encrypt" = ascii "--help" ∨ ascii "encrypt" = ascii "-h" ∨
      ascii "encrypt" = ascii "help") := by decide
  unfold parseCommand
  rw [if_neg other, if_pos rfl, Result.bind_eq_ok]
  refine exists_congr fun options => and_congr_right fun _ => ?_
  rw [Result.guard_eq_ok]
  exact and_congr_right fun _ => (Except.ok.injEq ..).to_iff

theorem parseCommand_decrypt_ok (arguments : List Bytes) (parsed : ParsedArgs) :
    parseCommand (ascii "decrypt") arguments = .ok parsed ↔
      ∃ options, parseOptions decryptAction "unknown option: " {} arguments = .ok options ∧
        Crypto.KdfPolicyRules options.kdfPolicy ∧
        { command := .decrypt, decrypt := options } = parsed := by
  have other : ¬(ascii "decrypt" = ascii "--help" ∨ ascii "decrypt" = ascii "-h" ∨
      ascii "decrypt" = ascii "help") := by decide
  unfold parseCommand
  rw [if_neg other, if_neg (by decide), if_pos rfl, Result.bind_eq_ok]
  refine exists_congr fun options => and_congr_right fun _ => ?_
  rw [Result.bind_eq_ok]
  simp only [Crypto.validateKdfResourcePolicy_ok]
  constructor
  · rintro ⟨_, rules, same⟩
    exact ⟨rules, Except.ok.inj same⟩
  · rintro ⟨rules, rfl⟩
    exact ⟨(), rules, rfl⟩

end Bseal.Cli
