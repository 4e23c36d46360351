import Mathlib.Logic.Relation
import Mathlib.Data.Nat.Notation

/-!
# The queue of one block

A writer hands blocks to a reader through one field and two semaphores, and a third party may call `abort`.
Each field access and each operation of a semaphore is a step.  The fields `enqueued`, `delivered` and
`returned` only record what has happened.
-/

namespace HpccPlatform

namespace SingleItemBlockQueue

/-- What the writer does next. -/
inductive WriterAt (B : Type*)
  | idle
  | enqueueAbortSoon (next : B)
  | enqueueFinishedReading (next : B)
  | enqueueSpaceWait (next : B)
  | enqueueAbortSoonAgain (next : B)
  | enqueueFinishedReadingAgain (next : B)
  | enqueueValue (next : B)
  | enqueueAvailSignal
  | stopAbortSoon
  | stopSpaceWait
  | stopFinishedWriting
  | stopAvailSignal
  | stopped

/-- What the reader does next. -/
inductive ReaderAt
  | idle
  | dequeueAbortSoon
  | dequeueAvailWait
  | dequeueAbortSoonAgain
  | dequeueFinishedWriting
  | dequeueAvailSignal
  | dequeueValue
  | dequeueClear
  | dequeueSpaceSignal
  | stopAbortSoon
  | stopFinishedReading
  | stopSpaceSignal
  | stopped

/-- What `abort` does next. -/
inductive AbortAt
  | notCalled
  | abortSoon
  | availSignal
  | spaceSignal
  | done

structure State (B : Type*) where
  value : Option B
  abortSoon : Bool
  finishedWriting : Bool
  finishedReading : Bool
  space : ℕ
  avail : ℕ
  writer : WriterAt B
  reader : ReaderAt
  aborter : AbortAt
  /-- the blocks stored by `enqueue` -/
  enqueued : List B
  /-- the pointers fetched by `dequeue` -/
  delivered : List (Option B)
  /-- what the calls of `dequeue` have returned -/
  returned : List Bool

def start (B : Type*) : State B where
  value := none
  abortSoon := false
  finishedWriting := false
  finishedReading := false
  space := 1
  avail := 0
  writer := .idle
  reader := .idle
  aborter := .notCalled
  enqueued := []
  delivered := []
  returned := []

variable {B : Type*}

/-- A step of the writer in `enqueue` or `noteWriterStopped`; the first two are the calls. -/
inductive WriterStep : State B → State B → Prop
  | callEnqueue {s : State B} (next : B) : s.writer = .idle →
    WriterStep s { s with writer := .enqueueAbortSoon next }
  | callStop {s : State B} : s.writer = .idle → WriterStep s { s with writer := .stopAbortSoon }
  | enqueueAbortSoon {s : State B} {next : B} : s.writer = .enqueueAbortSoon next →
    WriterStep s { s with writer := if s.abortSoon then .idle else .enqueueFinishedReading next }
  | enqueueFinishedReading {s : State B} {next : B} : s.writer = .enqueueFinishedReading next →
    WriterStep s { s with writer := if s.finishedReading then .idle else .enqueueSpaceWait next }
  | enqueueSpaceWait {s : State B} {next : B} : s.writer = .enqueueSpaceWait next → 0 < s.space →
    WriterStep s { s with space := s.space - 1, writer := .enqueueAbortSoonAgain next }
  | enqueueAbortSoonAgain {s : State B} {next : B} : s.writer = .enqueueAbortSoonAgain next →
    WriterStep s { s with writer := if s.abortSoon then .idle else .enqueueFinishedReadingAgain next }
  | enqueueFinishedReadingAgain {s : State B} {next : B} : s.writer = .enqueueFinishedReadingAgain next →
    WriterStep s { s with writer := if s.finishedReading then .idle else .enqueueValue next }
  | enqueueValue {s : State B} {next : B} : s.writer = .enqueueValue next →
    WriterStep s
      { s with value := some next, enqueued := s.enqueued ++ [next], writer := .enqueueAvailSignal }
  | enqueueAvailSignal {s : State B} : s.writer = .enqueueAvailSignal →
    WriterStep s { s with avail := s.avail + 1, writer := .idle }
  | stopAbortSoon {s : State B} : s.writer = .stopAbortSoon →
    WriterStep s { s with writer := if s.abortSoon then .stopped else .stopSpaceWait }
  | stopSpaceWait {s : State B} : s.writer = .stopSpaceWait → 0 < s.space →
    WriterStep s { s with space := s.space - 1, writer := .stopFinishedWriting }
  | stopFinishedWriting {s : State B} : s.writer = .stopFinishedWriting →
    WriterStep s { s with finishedWriting := true, writer := .stopAvailSignal }
  | stopAvailSignal {s : State B} : s.writer = .stopAvailSignal →
    WriterStep s { s with avail := s.avail + 1, writer := .stopped }

/-- A step of the reader in `dequeue` or `noteReaderStopped`; the first two are the calls. -/
inductive ReaderStep : State B → State B → Prop
  | callDequeue {s : State B} : s.reader = .idle → ReaderStep s { s with reader := .dequeueAbortSoon }
  | callStop {s : State B} : s.reader = .idle → ReaderStep s { s with reader := .stopAbortSoon }
  | dequeueAbortSoonTrue {s : State B} : s.reader = .dequeueAbortSoon → s.abortSoon = true →
    ReaderStep s { s with reader := .idle, returned := s.returned ++ [false] }
  | dequeueAbortSoonFalse {s : State B} : s.reader = .dequeueAbortSoon → s.abortSoon = false →
    ReaderStep s { s with reader := .dequeueAvailWait }
  | dequeueAvailWait {s : State B} : s.reader = .dequeueAvailWait → 0 < s.avail →
    ReaderStep s { s with avail := s.avail - 1, reader := .dequeueAbortSoonAgain }
  | dequeueAbortSoonAgainTrue {s : State B} : s.reader = .dequeueAbortSoonAgain → s.abortSoon = true →
    ReaderStep s { s with reader := .idle, returned := s.returned ++ [false] }
  | dequeueAbortSoonAgainFalse {s : State B} : s.reader = .dequeueAbortSoonAgain → s.abortSoon = false →
    ReaderStep s { s with reader := .dequeueFinishedWriting }
  | dequeueFinishedWriting {s : State B} : s.reader = .dequeueFinishedWriting →
    ReaderStep s { s with reader := if s.finishedWriting then .dequeueAvailSignal else .dequeueValue }
  | dequeueAvailSignal {s : State B} : s.reader = .dequeueAvailSignal →
    ReaderStep s { s with avail := s.avail + 1, reader := .idle, returned := s.returned ++ [false] }
  | dequeueValue {s : State B} : s.reader = .dequeueValue →
    ReaderStep s { s with delivered := s.delivered ++ [s.value], reader := .dequeueClear }
  | dequeueClear {s : State B} : s.reader = .dequeueClear →
    ReaderStep s { s with value := none, reader := .dequeueSpaceSignal }
  | dequeueSpaceSignal {s : State B} : s.reader = .dequeueSpaceSignal →
    ReaderStep s { s with space := s.space + 1, reader := .idle, returned := s.returned ++ [true] }
  | stopAbortSoon {s : State B} : s.reader = .stopAbortSoon →
    ReaderStep s { s with reader := if s.abortSoon then .stopped else .stopFinishedReading }
  | stopFinishedReading {s : State B} : s.reader = .stopFinishedReading →
    ReaderStep s { s with finishedReading := true, reader := .stopSpaceSignal }
  | stopSpaceSignal {s : State B} : s.reader = .stopSpaceSignal →
    ReaderStep s { s with space := s.space + 1, reader := .stopped }

/-- A step of the one call of `abort`. -/
inductive AbortStep : State B → State B → Prop
  | call {s : State B} : s.aborter = .notCalled → AbortStep s { s with aborter := .abortSoon }
  | abortSoon {s : State B} : s.aborter = .abortSoon →
    AbortStep s { s with abortSoon := true, aborter := .availSignal }
  | availSignal {s : State B} : s.aborter = .availSignal →
    AbortStep s { s with avail := s.avail + 1, aborter := .spaceSignal }
  | spaceSignal {s : State B} : s.aborter = .spaceSignal →
    AbortStep s { s with space := s.space + 1, aborter := .done }

/-- A step of one of the three parties. -/
inductive Step (s s' : State B) : Prop
  | writer (h : WriterStep s s')
  | reader (h : ReaderStep s s')
  | aborter (h : AbortStep s s')

/-- The states reached from the new queue. -/
def Reached (s : State B) : Prop := Relation.ReflTransGen Step (start B) s

end SingleItemBlockQueue

end HpccPlatform
