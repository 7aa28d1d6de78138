import Bseal.Archive.ArchiveGrammar
import Bseal.Pipeline.DecryptDelivery

/-! When the two pipelines get stuck: the catch of the ordered writer and that of the ordered
consumer close their own queue only, so the first stage may wait for ever on the other one. -/
namespace Bseal.Pipeline
open Crypto Io OrderedPipeline

section Runs
variable {α β ε σ : Type} {P : Pipeline α β ε σ}

def failsOpen (s : State P) : Action P.workers ε → Bool
  | .main => (match s.main with | .recording _ => true | _ => false) && !s.input.closed
  | _ => false

def runClosed (s : State P) : List (Action P.workers ε) → Option (State P)
  | [] => some s
  | a :: rest => if failsOpen s a then none else (step s a).bind fun t => runClosed t rest

theorem run_of_closed {start s t : State P} {actions : List (Action P.workers ε)}
    (run : Run FailsDrained start s) (ran : runClosed s actions = some t) :
    Run FailsDrained start t := by
  induction actions generalizing s with
  | nil =>
    cases ran
    exact run
  | cons a rest ih =>
    rw [runClosed] at ran
    split at ran
    · cases ran
    · next meets =>
      obtain ⟨next, taken, more⟩ := Option.bind_eq_some_iff.mp ran
      refine ih (run.next ?_ taken) more
      rintro rfl ⟨e, recording⟩
      refine .closed ?_
      simpa [failsOpen, recording] using meets

end Runs

/-- A run whose main thread records an exception only when the first stage can still drain never
reaches a stuck state. -/
theorem never_stuck {ρ ω σ : Type} (e : EncryptPipeline ρ ω) (d : DecryptPipeline σ)
    (tagSize : UInt16) (workers capacity : Nat) (workersPos : 0 < workers)
    (capacityPos : 0 < capacity) :
    (∀ (start : ω) (s : State (e.threads tagSize workers capacity workersPos capacityPos)),
      Run FailsDrained (init _ start) s → ¬s.Stuck) ∧
    ∀ (start : Decrypt.Consumer σ) (s : State (d.threads workers capacity workersPos capacityPos)),
      Run FailsDrained (init _ start) s → ¬s.Stuck :=
  ⟨fun _ _ run => run.not_stuck, fun _ _ run => run.not_stuck⟩

def threeRecords : DecryptPipeline (Archive.ArchiveReader Unit) where
  options := { fiveBytesDecryption.options with paddedPlaintextSize := 27 }
  backend := fiveBytesDecryption.backend
  keys := fiveBytesDecryption.keys
  stream := ⟨(List.range 3).map fun i =>
    { fiveBytesRecord with
      chunkIndex := UInt64.ofNat i
      plaintextSize := 9
      ciphertext := List.replicate 9 0 ++ List.replicate 16 0 }, none⟩
  archiveReader := ⟨Archive.consume Archive.quietOps Archive.linksOptions [], pure ()⟩
  hkdf := fiveBytesDecryption.hkdf

abbrev threeRecordsThreads := threeRecords.threads 1 1 Nat.one_pos Nat.one_pos

/-- The reader ends before the main thread fails: over three records the consumer throws on the
first one, over five bytes the main thread throws at the queue. -/
theorem never_stuck_threeRecords :
    (∃ s : State (fiveBytesThreads 5), Run FailsDrained (init _ fiveBytesStart) s ∧
      s.failed = true ∧ ¬s.Stuck) ∧
    ∃ s : State threeRecordsThreads, Run FailsDrained (init _ ⟨.initial (), 0⟩) s ∧
      s.failed = true ∧ ¬s.Stuck := by
  have first : (runClosed (init (fiveBytesThreads 5) fiveBytesStart) (List.replicate 5 .source ++
      [.mainFails (.error "bad allocation"), .main])).any (·.failed) = true := by decide +kernel
  let worker : Action 1 Failure := .worker ⟨0, Nat.one_pos⟩
  have second : (runClosed (init threeRecordsThreads ⟨.initial (), 0⟩)
      ([.source, .source, worker, worker, .source, .source, worker, worker, worker, worker] ++
        List.replicate 4 .source ++ List.replicate 4 .main)).any (·.failed) = true := by
    decide +kernel
  obtain ⟨s, ran, failed⟩ := (Option.any_eq_true _ _).mp first
  obtain ⟨t, ran', failed'⟩ := (Option.any_eq_true _ _).mp second
  have run := run_of_closed .refl ran
  have run' := run_of_closed .refl ran'
  have sound := never_stuck (fiveBytesPipeline 5) threeRecords 16 1 1 Nat.one_pos Nat.one_pos
  exact ⟨⟨s, run, failed, sound.1 _ s run⟩, t, run', failed', sound.2 _ t run'⟩

/-- The reader fills the queue behind the first record; the consumer throws on that record's
plaintext, and the worker sees the failure. -/
def untilStuck : List (Action 1 Failure) :=
  let worker := .worker ⟨0, Nat.one_pos⟩
  [.source, .source, worker, worker, .source, .source, .source, worker, worker] ++
    List.replicate 5 .main ++ [worker, .joiner]

/-- The reader waits in `push`, the consumer in `join`. -/
theorem consumer_failure_stuck : ∃ s : State threeRecordsThreads,
    Reaches (init _ ⟨.initial (), 0⟩) s ∧ s.Stuck := by
  have ran : (runActions (init threeRecordsThreads ⟨.initial (), 0⟩) untilStuck).any
      (fun s => decide s.Stuck) = true := by decide +kernel
  obtain ⟨s, run, stuck⟩ := reaches_of_any ran
  exact ⟨s, run, of_decide_eq_true stuck⟩

end Bseal.Pipeline
