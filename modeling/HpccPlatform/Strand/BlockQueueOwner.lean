import HpccPlatform.Strand.BlockQueue
import Mathlib.Data.List.Basic
import Mathlib.Data.Nat.Basic

/-!
# Who has the place of the queue

The queue has one place for a block, and one permit for it, which goes round from `space` to the writer, to
`avail` and to the reader.  A stop adds permits, but only after it has set its flag, and whoever takes one
of these finds the flag.
-/

namespace HpccPlatform

namespace SingleItemBlockQueue

variable {B : Type*}

/-- Where the permit for the one place is. -/
inductive Owner
  | space
  | writer
  | avail
  | reader
  | finished
  | gone
  deriving DecidableEq

/-- The block that has not been fetched. -/
def pending (reader : ReaderAt) (value : Option B) : List (Option B) :=
  match reader with
  | .dequeueClear => []
  | _ => value.toList.map some

/-- What the writer may rely on. -/
def WriterOk (owner : Owner) (s : State B) : Prop :=
  match s.writer with
  | .enqueueAbortSoonAgain _ =>
    owner = .writer ∧ s.value = none ∨ owner ≠ .writer ∧ (s.abortSoon = true ∨ s.finishedReading = true)
  | .enqueueFinishedReadingAgain _ =>
    owner = .writer ∧ s.value = none ∨ owner ≠ .writer ∧ s.finishedReading = true
  | .enqueueValue _ => owner = .writer ∧ s.value = none
  | .enqueueAvailSignal => owner = .writer ∧ s.value.isSome = true
  | .stopFinishedWriting =>
    owner ≠ .writer ∧ (owner = .finished ∨ s.abortSoon = true ∨ s.finishedReading = true)
  | .stopAvailSignal => owner ≠ .writer ∧ s.finishedWriting = true
  | .stopped => owner ≠ .writer ∧ (s.abortSoon = true ∨ s.finishedWriting = true)
  | _ => owner ≠ .writer

/-- What the reader may rely on. -/
def ReaderOk (owner : Owner) (s : State B) : Prop :=
  match s.reader with
  | .dequeueAbortSoonAgain =>
    owner = .reader ∧ s.value.isSome = true ∨
      owner ≠ .reader ∧ (s.abortSoon = true ∨ s.finishedWriting = true)
  | .dequeueFinishedWriting =>
    owner = .reader ∧ s.value.isSome = true ∨ owner ≠ .reader ∧ s.finishedWriting = true
  | .dequeueAvailSignal => (owner = .reader → s.value.isSome = true) ∧ s.finishedWriting = true
  | .dequeueValue => owner = .reader ∧ s.value.isSome = true
  | .dequeueClear => owner = .reader
  | .dequeueSpaceSignal => owner = .reader ∧ s.value = none
  | .stopSpaceSignal => owner ≠ .reader ∧ s.finishedReading = true
  | .stopped => owner ≠ .reader ∧ (s.abortSoon = true ∨ s.finishedReading = true)
  | _ => owner ≠ .reader

/-- The flag has been set. -/
def AbortAt.flag : AbortAt → Bool
  | .notCalled => false
  | .abortSoon => false
  | _ => true

/-- What every step keeps; a permit more than the owner's is there only after a stop. -/
structure Owned (owner : Owner) (s : State B) : Prop where
  writer : WriterOk owner s
  reader : ReaderOk owner s
  space : owner = .space → 0 < s.space ∧ s.value = none
  spaceExtra : (if owner = .space then 1 else 0) < s.space → s.abortSoon = true ∨ s.finishedReading = true
  avail : owner = .avail → 0 < s.avail ∧ s.value.isSome = true
  availExtra : (if owner = .avail then 1 else 0) < s.avail → s.abortSoon = true ∨ s.finishedWriting = true
  finished : owner = .finished → s.value = none
  abortSoon : s.abortSoon = s.aborter.flag
  finishedReading : s.finishedReading = true → s.reader = .stopSpaceSignal ∨ s.reader = .stopped
  finishedWriting : s.finishedWriting = true →
    (s.writer = .stopAvailSignal ∨ s.writer = .stopped) ∧
      (owner = .finished ∨ s.abortSoon = true ∨ s.finishedReading = true)
  history : s.enqueued.map some = s.delivered ++ pending s.reader s.value

theorem owned_start : Owned .space (start B) where
  writer := (by decide : Owner.space ≠ .writer)
  reader := (by decide : Owner.space ≠ .reader)
  space _ := ⟨Nat.one_pos, rfl⟩
  spaceExtra hextra := absurd hextra (Nat.lt_irrefl 1)
  avail howner := absurd howner (by decide)
  availExtra hextra := absurd hextra (Nat.lt_irrefl 0)
  finished howner := absurd howner (by decide)
  abortSoon := rfl
  finishedReading hflag := absurd hflag Bool.false_ne_true
  finishedWriting hflag := absurd hflag Bool.false_ne_true
  history := rfl

variable {owner owner' : Owner} {s s' : State B}

theorem pending_eq {reader : ReaderAt} (hat : reader ≠ .dequeueClear) (value : Option B) :
    pending reader value = value.toList.map some := by
  unfold pending
  split
  · contradiction
  · rfl

/-- Without the permit, the writer relies on the flags only. -/
theorem WriterOk.other (h : WriterOk owner s) (howner : owner ≠ .writer) (howner' : owner' ≠ .writer)
    (hfinished : owner = .finished → owner' = .finished) (hat : s'.writer = s.writer)
    (habort : s.abortSoon = true → s'.abortSoon = true)
    (hread : s.finishedReading = true → s'.finishedReading = true)
    (hwrite : s.finishedWriting = true → s'.finishedWriting = true) : WriterOk owner' s' := by
  unfold WriterOk at h ⊢
  rw [hat]
  cases hw : s.writer <;> rw [hw] at h <;> dsimp only at h ⊢ <;> tauto

/-- Without the permit, the reader relies on the flags only. -/
theorem ReaderOk.other (h : ReaderOk owner s) (howner : owner ≠ .reader) (howner' : owner' ≠ .reader)
    (hat : s'.reader = s.reader) (habort : s.abortSoon = true → s'.abortSoon = true)
    (hread : s.finishedReading = true → s'.finishedReading = true)
    (hwrite : s.finishedWriting = true → s'.finishedWriting = true) : ReaderOk owner' s' := by
  unfold ReaderOk at h ⊢
  rw [hat]
  cases hr : s.reader <;> rw [hr] at h <;> dsimp only at h ⊢ <;> tauto

/-- More flags do no harm to the writer. -/
theorem WriterOk.mono (h : WriterOk owner s) (hat : s'.writer = s.writer) (hvalue : s'.value = s.value)
    (habort : s.abortSoon = true → s'.abortSoon = true)
    (hread : s.finishedReading = true → s'.finishedReading = true)
    (hwrite : s.finishedWriting = true → s'.finishedWriting = true) : WriterOk owner s' := by
  unfold WriterOk at h ⊢
  rw [hat, hvalue]
  cases hw : s.writer <;> rw [hw] at h <;> dsimp only at h ⊢ <;> tauto

/-- More flags do no harm to the reader. -/
theorem ReaderOk.mono (h : ReaderOk owner s) (hat : s'.reader = s.reader) (hvalue : s'.value = s.value)
    (habort : s.abortSoon = true → s'.abortSoon = true)
    (hread : s.finishedReading = true → s'.finishedReading = true)
    (hwrite : s.finishedWriting = true → s'.finishedWriting = true) : ReaderOk owner s' := by
  unfold ReaderOk at h ⊢
  rw [hat, hvalue]
  cases hr : s.reader <;> rw [hr] at h <;> dsimp only at h ⊢ <;> tauto

/-! ### The writer -/

/-- The writer goes on without touching anything. -/
theorem Owned.setWriter (h : Owned owner s) {w : WriterAt B} (hw : WriterOk owner { s with writer := w })
    (hflag : s.finishedWriting = false) : Owned owner { s with writer := w } :=
  ⟨hw, h.reader, h.space, h.spaceExtra, h.avail, h.availExtra, h.finished, h.abortSoon, h.finishedReading,
    fun hset => absurd (hflag.symm.trans hset) Bool.false_ne_true, h.history⟩

/-- The writer gives up, and the permit is lost if it has it. -/
theorem Owned.giveUp (h : Owned owner s) (hflag : s.finishedWriting = false) :
    ∃ owner', Owned owner' { s with writer := .idle } := by
  by_cases howner : owner = .writer
  · subst howner
    have hreader : ReaderOk .gone { s with writer := .idle } :=
      h.reader.other (by decide) (by decide) rfl id id id
    exact ⟨.gone, (by decide : Owner.gone ≠ .writer), hreader, nofun, h.spaceExtra, nofun, h.availExtra, nofun,
      h.abortSoon, h.finishedReading, fun hset => absurd (hflag.symm.trans hset) Bool.false_ne_true, h.history⟩
  · exact ⟨owner, h.setWriter howner hflag⟩

theorem Owned.enqueueSpaceWait (h : Owned owner s) {next : B} (hat : s.writer = .enqueueSpaceWait next)
    (hpos : 0 < s.space) (hflag : s.finishedWriting = false) :
    ∃ owner', Owned owner' { s with space := s.space - 1, writer := .enqueueAbortSoonAgain next } := by
  have hne : owner ≠ .writer := by
    have hwriter := h.writer
    rwa [WriterOk, hat] at hwriter
  have hunset : ∀ {P : Prop}, s.finishedWriting = true → P := fun hset =>
    absurd (hflag.symm.trans hset) Bool.false_ne_true
  by_cases howner : owner = .space
  · subst howner
    have hreader : ReaderOk .writer { s with space := s.space - 1, writer := .enqueueAbortSoonAgain next } :=
      h.reader.other (by decide) (by decide) rfl id id id
    exact ⟨.writer, Or.inl ⟨rfl, (h.space rfl).2⟩, hreader, nofun,
      fun hextra => h.spaceExtra (Nat.add_lt_of_lt_sub hextra), nofun, h.availExtra, nofun, h.abortSoon,
      h.finishedReading, hunset, h.history⟩
  · have hextra := h.spaceExtra (by rwa [if_neg howner])
    exact ⟨owner, Or.inr ⟨hne, hextra⟩, h.reader, fun heq => absurd heq howner, fun _ => hextra, h.avail,
      h.availExtra, h.finished, h.abortSoon, h.finishedReading, hunset, h.history⟩

/-- The writer takes the place for good, or a permit of a stop. -/
theorem Owned.stopSpaceWait (h : Owned owner s) (hat : s.writer = .stopSpaceWait) (hpos : 0 < s.space)
    (hflag : s.finishedWriting = false) :
    ∃ owner', Owned owner' { s with space := s.space - 1, writer := .stopFinishedWriting } := by
  have hne : owner ≠ .writer := by
    have hwriter := h.writer
    rwa [WriterOk, hat] at hwriter
  have hunset : ∀ {P : Prop}, s.finishedWriting = true → P := fun hset =>
    absurd (hflag.symm.trans hset) Bool.false_ne_true
  by_cases howner : owner = .space
  · subst howner
    have hreader : ReaderOk .finished { s with space := s.space - 1, writer := .stopFinishedWriting } :=
      h.reader.other (by decide) (by decide) rfl id id id
    exact ⟨.finished, ⟨(by decide), Or.inl rfl⟩, hreader, nofun,
      fun hextra => h.spaceExtra (Nat.add_lt_of_lt_sub hextra), nofun, h.availExtra, fun _ => (h.space rfl).2,
      h.abortSoon, h.finishedReading, hunset, h.history⟩
  · have hextra := h.spaceExtra (by rwa [if_neg howner])
    exact ⟨owner, ⟨hne, Or.inr hextra⟩, h.reader, fun heq => absurd heq howner, fun _ => hextra, h.avail,
      h.availExtra, h.finished, h.abortSoon, h.finishedReading, hunset, h.history⟩

/-- The block is stored where there is none, and is the last one that has not been fetched. -/
theorem Owned.enqueueValue (h : Owned owner s) {next : B} (hat : s.writer = .enqueueValue next)
    (hflag : s.finishedWriting = false) :
    Owned .writer
      { s with value := some next, enqueued := s.enqueued ++ [next], writer := .enqueueAvailSignal } := by
  have hwriter := h.writer
  rw [WriterOk, hat] at hwriter
  obtain ⟨rfl, hvalue⟩ := hwriter
  have hreader : ReaderOk .writer
      { s with value := some next, enqueued := s.enqueued ++ [next], writer := .enqueueAvailSignal } :=
    h.reader.other (by decide) (by decide) rfl id id id
  have hclear : s.reader ≠ .dequeueClear := fun hat => by
    have hreader := h.reader
    rw [ReaderOk, hat] at hreader
    cases hreader
  refine ⟨⟨rfl, rfl⟩, hreader, nofun, h.spaceExtra, nofun, h.availExtra, nofun, h.abortSoon, h.finishedReading,
    fun hset => absurd (hflag.symm.trans hset) Bool.false_ne_true, ?_⟩
  have hhistory := h.history
  rw [pending_eq hclear, hvalue] at hhistory
  rw [pending_eq hclear, List.map_append, hhistory]
  exact congrArg (· ++ [some next]) (List.append_nil _)

theorem Owned.enqueueAvailSignal (h : Owned owner s) (hat : s.writer = .enqueueAvailSignal)
    (hflag : s.finishedWriting = false) : Owned .avail { s with avail := s.avail + 1, writer := .idle } := by
  have hwriter := h.writer
  rw [WriterOk, hat] at hwriter
  obtain ⟨rfl, hvalue⟩ := hwriter
  have hreader : ReaderOk .avail { s with avail := s.avail + 1, writer := .idle } :=
    h.reader.other (by decide) (by decide) rfl id id id
  exact ⟨(by decide : Owner.avail ≠ .writer), hreader, nofun, h.spaceExtra, fun _ => ⟨Nat.succ_pos _, hvalue⟩,
    fun hextra => h.availExtra (Nat.lt_of_succ_lt_succ hextra), nofun, h.abortSoon, h.finishedReading,
    fun hset => absurd (hflag.symm.trans hset) Bool.false_ne_true, h.history⟩

/-- The flag is set before the permit is given. -/
theorem Owned.stopFinishedWriting (h : Owned owner s) (hat : s.writer = .stopFinishedWriting) :
    Owned owner { s with finishedWriting := true, writer := .stopAvailSignal } := by
  have hwriter := h.writer
  rw [WriterOk, hat] at hwriter
  exact ⟨⟨hwriter.1, rfl⟩, h.reader.mono rfl rfl id id fun _ => rfl, h.space, h.spaceExtra, h.avail,
    fun _ => Or.inr rfl, h.finished, h.abortSoon, h.finishedReading, fun _ => ⟨Or.inl rfl, hwriter.2⟩, h.history⟩

theorem Owned.stopAvailSignal (h : Owned owner s) (hat : s.writer = .stopAvailSignal) :
    Owned owner { s with avail := s.avail + 1, writer := .stopped } := by
  have hwriter := h.writer
  rw [WriterOk, hat] at hwriter
  exact ⟨⟨hwriter.1, Or.inr hwriter.2⟩, h.reader, h.space, h.spaceExtra,
    fun howner => ⟨Nat.succ_pos _, (h.avail howner).2⟩, fun _ => Or.inr hwriter.2, h.finished, h.abortSoon,
    h.finishedReading, fun hset => ⟨Or.inr rfl, (h.finishedWriting hset).2⟩, h.history⟩

/-- A writer that is not at its end has not set its flag. -/
theorem Owned.not_finishedWriting (h : Owned owner s) (hstop : s.writer ≠ .stopAvailSignal)
    (hstopped : s.writer ≠ .stopped) : s.finishedWriting = false := by
  by_contra hset
  exact (h.finishedWriting (Bool.not_eq_false _ ▸ hset)).1.elim hstop hstopped

theorem Owned.writerStep (h : Owned owner s) (hstep : WriterStep s s') : ∃ owner', Owned owner' s' := by
  have hwriter := h.writer
  have hflag : s.writer ≠ .stopAvailSignal → s.writer ≠ .stopped → s.finishedWriting = false :=
    h.not_finishedWriting
  unfold WriterOk at hwriter
  cases hstep with
  | callEnqueue next hat =>
    rw [hat] at hwriter hflag
    exact ⟨owner, h.setWriter hwriter (hflag nofun nofun)⟩
  | callStop hat =>
    rw [hat] at hwriter hflag
    exact ⟨owner, h.setWriter hwriter (hflag nofun nofun)⟩
  | enqueueAbortSoon hat =>
    rw [hat] at hwriter hflag
    refine ⟨owner, h.setWriter ?_ (hflag nofun nofun)⟩
    split <;> exact hwriter
  | enqueueFinishedReading hat =>
    rw [hat] at hwriter hflag
    refine ⟨owner, h.setWriter ?_ (hflag nofun nofun)⟩
    split <;> exact hwriter
  | enqueueSpaceWait hat hpos =>
    rw [hat] at hflag
    exact h.enqueueSpaceWait hat hpos (hflag nofun nofun)
  | enqueueAbortSoonAgain hat =>
    rw [hat] at hwriter hflag
    by_cases habort : s.abortSoon = true
    · rw [if_pos habort]
      exact h.giveUp (hflag nofun nofun)
    · rw [if_neg habort]
      refine ⟨owner, h.setWriter ?_ (hflag nofun nofun)⟩
      exact hwriter.imp_right fun hextra => ⟨hextra.1, hextra.2.resolve_left habort⟩
  | enqueueFinishedReadingAgain hat =>
    rw [hat] at hwriter hflag
    by_cases hread : s.finishedReading = true
    · rw [if_pos hread]
      exact h.giveUp (hflag nofun nofun)
    · rw [if_neg hread]
      exact ⟨owner, h.setWriter (hwriter.resolve_right fun hextra => hread hextra.2) (hflag nofun nofun)⟩
  | enqueueValue hat =>
    rw [hat] at hflag
    exact ⟨.writer, h.enqueueValue hat (hflag nofun nofun)⟩
  | enqueueAvailSignal hat =>
    rw [hat] at hflag
    exact ⟨.avail, h.enqueueAvailSignal hat (hflag nofun nofun)⟩
  | stopAbortSoon hat =>
    rw [hat] at hwriter hflag
    refine ⟨owner, h.setWriter ?_ (hflag nofun nofun)⟩
    by_cases habort : s.abortSoon = true
    · rw [if_pos habort]
      exact ⟨hwriter, Or.inl habort⟩
    · rw [if_neg habort]
      exact hwriter
  | stopSpaceWait hat hpos =>
    rw [hat] at hflag
    exact h.stopSpaceWait hat hpos (hflag nofun nofun)
  | stopFinishedWriting hat => exact ⟨owner, h.stopFinishedWriting hat⟩
  | stopAvailSignal hat => exact ⟨owner, h.stopAvailSignal hat⟩

/-! ### The reader -/

/-- A reader that is not at its end has not set its flag. -/
theorem Owned.not_finishedReading (h : Owned owner s) (hstop : s.reader ≠ .stopSpaceSignal)
    (hstopped : s.reader ≠ .stopped) : s.finishedReading = false := by
  by_contra hset
  exact (h.finishedReading (Bool.not_eq_false _ ▸ hset)).elim hstop hstopped

/-- The reader goes on, or returns `false`, without touching anything. -/
theorem Owned.setReader (h : Owned owner s) {r : ReaderAt} {returned : List Bool}
    (hr : ReaderOk owner { s with reader := r, returned := returned }) (hflag : s.finishedReading = false)
    (hat : s.reader ≠ .dequeueClear) (hat' : r ≠ .dequeueClear) :
    Owned owner { s with reader := r, returned := returned } := by
  refine ⟨h.writer, hr, h.space, h.spaceExtra, h.avail, h.availExtra, h.finished, h.abortSoon,
    fun hset => absurd (hflag.symm.trans hset) Bool.false_ne_true, h.finishedWriting, ?_⟩
  have hhistory := h.history
  rw [pending_eq hat] at hhistory
  exact hhistory.trans (congrArg (s.delivered ++ ·) (pending_eq hat' _).symm)

/-- The permit changes its owner, who is not the writer. -/
theorem Owned.writer_of_ne (h : Owned owner s) (howner : owner ≠ .writer) (howner' : owner' ≠ .writer)
    (hfinished : owner ≠ .finished) (hat : s'.writer = s.writer) (habort : s'.abortSoon = s.abortSoon)
    (hread : s'.finishedReading = s.finishedReading) (hwrite : s'.finishedWriting = s.finishedWriting) :
    WriterOk owner' s' :=
  h.writer.other howner howner' (fun heq => absurd heq hfinished) hat (fun hset => habort.trans hset)
    (fun hset => hread.trans hset) fun hset => hwrite.trans hset

/-- A call that finds the abort gives up, and the permit is lost if the reader has it. -/
theorem Owned.refuse (h : Owned owner s) (hat : s.reader = .dequeueAbortSoonAgain) :
    ∃ owner', Owned owner' { s with reader := .idle, returned := s.returned ++ [false] } := by
  have hflag : s.finishedReading = false := h.not_finishedReading (hat ▸ nofun) (hat ▸ nofun)
  by_cases howner : owner = .reader
  · subst howner
    have hgone : Owned .gone { s with reader := .idle, returned := s.returned ++ [false] } := by
      have hwriter : WriterOk .gone { s with reader := .idle, returned := s.returned ++ [false] } :=
        h.writer_of_ne (by decide) (by decide) (by decide) rfl rfl rfl rfl
      have hhistory := h.history
      rw [pending_eq (hat ▸ nofun)] at hhistory
      exact ⟨hwriter, (by decide : Owner.gone ≠ .reader), nofun, h.spaceExtra, nofun, h.availExtra, nofun,
        h.abortSoon, fun hset => absurd (hflag.symm.trans hset) Bool.false_ne_true,
        fun hset => ⟨(h.finishedWriting hset).1, Or.inr ((h.finishedWriting hset).2.resolve_left (by decide))⟩,
        hhistory⟩
    exact ⟨.gone, hgone⟩
  · exact ⟨owner, h.setReader howner hflag (hat ▸ nofun) nofun⟩

theorem Owned.dequeueAvailWait (h : Owned owner s) (hat : s.reader = .dequeueAvailWait) (hpos : 0 < s.avail) :
    ∃ owner', Owned owner' { s with avail := s.avail - 1, reader := .dequeueAbortSoonAgain } := by
  have hne : owner ≠ .reader := by
    have hreader := h.reader
    rwa [ReaderOk, hat] at hreader
  have hflag : s.finishedReading = false := h.not_finishedReading (hat ▸ nofun) (hat ▸ nofun)
  have hunset : ∀ {P : Prop}, s.finishedReading = true → P := fun hset =>
    absurd (hflag.symm.trans hset) Bool.false_ne_true
  have hhistory := h.history
  rw [pending_eq (hat ▸ nofun)] at hhistory
  by_cases howner : owner = .avail
  · subst howner
    have hwriter : WriterOk .reader { s with avail := s.avail - 1, reader := .dequeueAbortSoonAgain } :=
      h.writer_of_ne (by decide) (by decide) (by decide) rfl rfl rfl rfl
    exact ⟨.reader, hwriter, Or.inl ⟨rfl, (h.avail rfl).2⟩, nofun, h.spaceExtra, nofun,
      fun hextra => h.availExtra (Nat.add_lt_of_lt_sub hextra), nofun, h.abortSoon, hunset,
      fun hset => ⟨(h.finishedWriting hset).1, Or.inr ((h.finishedWriting hset).2.resolve_left (by decide))⟩,
      hhistory⟩
  · have hextra := h.availExtra (by rwa [if_neg howner])
    exact ⟨owner, h.writer, Or.inr ⟨hne, hextra⟩, h.space, h.spaceExtra, fun heq => absurd heq howner,
      fun _ => hextra, h.finished, h.abortSoon, hunset, h.finishedWriting, hhistory⟩

/-- The permit is given back, since the writer has stopped. -/
theorem Owned.dequeueAvailSignal (h : Owned owner s) (hat : s.reader = .dequeueAvailSignal) :
    ∃ owner', Owned owner'
      { s with avail := s.avail + 1, reader := .idle, returned := s.returned ++ [false] } := by
  have hreader := h.reader
  rw [ReaderOk, hat] at hreader
  obtain ⟨hvalue, hset⟩ := hreader
  have hflag : s.finishedReading = false := h.not_finishedReading (hat ▸ nofun) (hat ▸ nofun)
  have hunset : ∀ {P : Prop}, s.finishedReading = true → P := fun hset =>
    absurd (hflag.symm.trans hset) Bool.false_ne_true
  have hhistory := h.history
  rw [pending_eq (hat ▸ nofun)] at hhistory
  by_cases howner : owner = .reader
  · subst howner
    have hwriter : WriterOk .avail
        { s with avail := s.avail + 1, reader := .idle, returned := s.returned ++ [false] } :=
      h.writer_of_ne (by decide) (by decide) (by decide) rfl rfl rfl rfl
    exact ⟨.avail, hwriter, (by decide : Owner.avail ≠ .reader), nofun, h.spaceExtra,
      fun _ => ⟨Nat.succ_pos _, hvalue rfl⟩, fun _ => Or.inr hset, nofun, h.abortSoon, hunset,
      fun hset => ⟨(h.finishedWriting hset).1, Or.inr ((h.finishedWriting hset).2.resolve_left (by decide))⟩,
      hhistory⟩
  · exact ⟨owner, h.writer, howner, h.space, h.spaceExtra, fun heq => ⟨Nat.succ_pos _, (h.avail heq).2⟩,
      fun _ => Or.inr hset, h.finished, h.abortSoon, hunset, h.finishedWriting, hhistory⟩

/-- The block is fetched, and is the last one that was stored. -/
theorem Owned.dequeueValue (h : Owned owner s) (hat : s.reader = .dequeueValue) :
    Owned owner { s with delivered := s.delivered ++ [s.value], reader := .dequeueClear } := by
  have hreader := h.reader
  rw [ReaderOk, hat] at hreader
  obtain ⟨rfl, hvalue⟩ := hreader
  have hflag : s.finishedReading = false := h.not_finishedReading (hat ▸ nofun) (hat ▸ nofun)
  have hhistory := h.history
  rw [pending_eq (hat ▸ nofun)] at hhistory
  obtain ⟨block, hblock⟩ := Option.isSome_iff_exists.mp hvalue
  refine ⟨h.writer, rfl, nofun, h.spaceExtra, nofun, h.availExtra, nofun, h.abortSoon,
    fun hset => absurd (hflag.symm.trans hset) Bool.false_ne_true, h.finishedWriting, ?_⟩
  rw [hblock] at hhistory
  exact hhistory.trans (by rw [hblock]; exact (List.append_nil _).symm)

theorem Owned.dequeueClear (h : Owned owner s) (hat : s.reader = .dequeueClear) :
    Owned owner { s with value := none, reader := .dequeueSpaceSignal } := by
  have hreader := h.reader
  rw [ReaderOk, hat] at hreader
  subst hreader
  have hflag : s.finishedReading = false := h.not_finishedReading (hat ▸ nofun) (hat ▸ nofun)
  have hwriter : WriterOk .reader { s with value := none, reader := .dequeueSpaceSignal } :=
    h.writer.other (by decide) (by decide) id rfl id id id
  have hhistory := h.history
  rw [hat] at hhistory
  exact ⟨hwriter, ⟨rfl, rfl⟩, nofun, h.spaceExtra, nofun, h.availExtra, nofun, h.abortSoon,
    fun hset => absurd (hflag.symm.trans hset) Bool.false_ne_true, h.finishedWriting, hhistory⟩

theorem Owned.dequeueSpaceSignal (h : Owned owner s) (hat : s.reader = .dequeueSpaceSignal) :
    Owned .space { s with space := s.space + 1, reader := .idle, returned := s.returned ++ [true] } := by
  have hreader := h.reader
  rw [ReaderOk, hat] at hreader
  obtain ⟨rfl, hvalue⟩ := hreader
  have hflag : s.finishedReading = false := h.not_finishedReading (hat ▸ nofun) (hat ▸ nofun)
  have hwriter : WriterOk .space
      { s with space := s.space + 1, reader := .idle, returned := s.returned ++ [true] } :=
    h.writer_of_ne (by decide) (by decide) (by decide) rfl rfl rfl rfl
  have hhistory := h.history
  rw [hat] at hhistory
  exact ⟨hwriter, (by decide : Owner.space ≠ .reader), fun _ => ⟨Nat.succ_pos _, hvalue⟩,
    fun hextra => h.spaceExtra (Nat.lt_of_succ_lt_succ hextra), nofun, h.availExtra, nofun, h.abortSoon,
    fun hset => absurd (hflag.symm.trans hset) Bool.false_ne_true,
    fun hset => ⟨(h.finishedWriting hset).1, Or.inr ((h.finishedWriting hset).2.resolve_left (by decide))⟩,
    hhistory⟩

/-- The flag is set before the permit is given. -/
theorem Owned.stopFinishedReading (h : Owned owner s) (hat : s.reader = .stopFinishedReading) :
    Owned owner { s with finishedReading := true, reader := .stopSpaceSignal } := by
  have hreader := h.reader
  rw [ReaderOk, hat] at hreader
  have hhistory := h.history
  rw [hat] at hhistory
  exact ⟨h.writer.mono rfl rfl id (fun _ => rfl) id, ⟨hreader, rfl⟩, h.space, fun _ => Or.inr rfl, h.avail,
    h.availExtra, h.finished, h.abortSoon, fun _ => Or.inl rfl,
    fun hset => ⟨(h.finishedWriting hset).1, Or.inr (Or.inr rfl)⟩, hhistory⟩

theorem Owned.stopSpaceSignal (h : Owned owner s) (hat : s.reader = .stopSpaceSignal) :
    Owned owner { s with space := s.space + 1, reader := .stopped } := by
  have hreader := h.reader
  rw [ReaderOk, hat] at hreader
  have hhistory := h.history
  rw [hat] at hhistory
  exact ⟨h.writer, ⟨hreader.1, Or.inr hreader.2⟩, fun howner => ⟨Nat.succ_pos _, (h.space howner).2⟩,
    fun _ => Or.inr hreader.2, h.avail, h.availExtra, h.finished, h.abortSoon, fun _ => Or.inr rfl,
    h.finishedWriting, hhistory⟩

theorem Owned.readerStep (h : Owned owner s) (hstep : ReaderStep s s') : ∃ owner', Owned owner' s' := by
  have hreader := h.reader
  have hflag : s.reader ≠ .stopSpaceSignal → s.reader ≠ .stopped → s.finishedReading = false :=
    h.not_finishedReading
  unfold ReaderOk at hreader
  cases hstep with
  | callDequeue hat =>
    rw [hat] at hreader hflag
    exact ⟨owner, h.setReader hreader (hflag nofun nofun) (hat ▸ nofun) nofun⟩
  | callStop hat =>
    rw [hat] at hreader hflag
    exact ⟨owner, h.setReader hreader (hflag nofun nofun) (hat ▸ nofun) nofun⟩
  | dequeueAbortSoonTrue hat hset =>
    rw [hat] at hreader hflag
    exact ⟨owner, h.setReader hreader (hflag nofun nofun) (hat ▸ nofun) nofun⟩
  | dequeueAbortSoonFalse hat hset =>
    rw [hat] at hreader hflag
    exact ⟨owner, h.setReader hreader (hflag nofun nofun) (hat ▸ nofun) nofun⟩
  | dequeueAvailWait hat hpos => exact h.dequeueAvailWait hat hpos
  | dequeueAbortSoonAgainTrue hat hset => exact h.refuse hat
  | dequeueAbortSoonAgainFalse hat hset =>
    rw [hat] at hreader hflag
    refine ⟨owner, h.setReader ?_ (hflag nofun nofun) (hat ▸ nofun) nofun⟩
    exact hreader.imp_right fun hextra =>
      ⟨hextra.1, hextra.2.resolve_left fun habort => Bool.false_ne_true (hset.symm.trans habort)⟩
  | dequeueFinishedWriting hat =>
    rw [hat] at hreader hflag
    refine ⟨owner, h.setReader ?_ (hflag nofun nofun) (hat ▸ nofun) ?_⟩
    · by_cases hset : s.finishedWriting = true
      · rw [if_pos hset]
        exact ⟨fun howner => (hreader.resolve_right fun hextra => hextra.1 howner).2, hset⟩
      · rw [if_neg hset]
        exact hreader.resolve_right fun hextra => hset hextra.2
    · split <;> nofun
  | dequeueAvailSignal hat => exact h.dequeueAvailSignal hat
  | dequeueValue hat => exact ⟨owner, h.dequeueValue hat⟩
  | dequeueClear hat => exact ⟨owner, h.dequeueClear hat⟩
  | dequeueSpaceSignal hat => exact ⟨.space, h.dequeueSpaceSignal hat⟩
  | stopAbortSoon hat =>
    rw [hat] at hreader hflag
    refine ⟨owner, h.setReader ?_ (hflag nofun nofun) (hat ▸ nofun) ?_⟩
    · by_cases habort : s.abortSoon = true
      · rw [if_pos habort]
        exact ⟨hreader, Or.inl habort⟩
      · rw [if_neg habort]
        exact hreader
    · split <;> nofun
  | stopFinishedReading hat => exact ⟨owner, h.stopFinishedReading hat⟩
  | stopSpaceSignal hat => exact ⟨owner, h.stopSpaceSignal hat⟩

/-! ### The abort -/

theorem Owned.abortStep (h : Owned owner s) (hstep : AbortStep s s') : Owned owner s' := by
  have hset := h.abortSoon
  cases hstep with
  | call hat =>
    rw [hat] at hset
    exact ⟨h.writer, h.reader, h.space, h.spaceExtra, h.avail, h.availExtra, h.finished, hset,
      h.finishedReading, h.finishedWriting, h.history⟩
  | abortSoon hat =>
    exact ⟨h.writer.mono rfl rfl (fun _ => rfl) id id, h.reader.mono rfl rfl (fun _ => rfl) id id, h.space,
      fun _ => Or.inl rfl, h.avail, fun _ => Or.inl rfl, h.finished, rfl, h.finishedReading,
      fun hset => ⟨(h.finishedWriting hset).1, Or.inr (Or.inl rfl)⟩, h.history⟩
  | availSignal hat =>
    rw [hat] at hset
    exact ⟨h.writer, h.reader, h.space, h.spaceExtra, fun howner => ⟨Nat.succ_pos _, (h.avail howner).2⟩,
      fun _ => Or.inl hset, h.finished, hset, h.finishedReading, h.finishedWriting, h.history⟩
  | spaceSignal hat =>
    rw [hat] at hset
    exact ⟨h.writer, h.reader, fun howner => ⟨Nat.succ_pos _, (h.space howner).2⟩, fun _ => Or.inl hset,
      h.avail, h.availExtra, h.finished, hset, h.finishedReading, h.finishedWriting, h.history⟩

theorem owned_step (h : Owned owner s) (hstep : Step s s') : ∃ owner', Owned owner' s' := by
  cases hstep with
  | writer hstep => exact h.writerStep hstep
  | reader hstep => exact h.readerStep hstep
  | aborter hstep => exact ⟨owner, h.abortStep hstep⟩

theorem Reached.owned (h : Reached s) : ∃ owner, Owned owner s := by
  induction h with
  | refl => exact ⟨.space, owned_start⟩
  | tail _ hstep ih =>
    obtain ⟨owner, howned⟩ := ih
    exact owned_step howned hstep

end SingleItemBlockQueue

end HpccPlatform
