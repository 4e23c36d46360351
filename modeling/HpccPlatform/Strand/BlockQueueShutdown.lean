import HpccPlatform.Strand.BlockQueueOwner

/-!
# Stopping and aborting

No call of `dequeue` stays blocked, and it returns `false` when the queue is aborted or at its end.  A writer
may stay blocked: an `enqueue` that waits when the reader stops takes the one permit that
`noteReaderStopped` gives, and `noteWriterStopped` finds none.
-/

namespace HpccPlatform

namespace SingleItemBlockQueue

variable {B : Type*} {owner : Owner} {s s' s'' : State B}

/-! ### What `dequeue` returns -/

/-- The queue is aborted, or the writer has stopped and every block has been fetched. -/
def Settled (s : State B) : Prop :=
  s.abortSoon = true ∨ s.finishedWriting = true ∧ s.enqueued.map some = s.delivered

theorem Settled.step (h : Settled s) (howned : Owned owner s) (hstep : Step s s') : Settled s' := by
  rcases hstep with hstep | hstep | hstep
  · cases hstep with
    | enqueueValue hat =>
      refine h.imp_right fun hend => ?_
      have hflag := howned.not_finishedWriting (fun h => by cases hat.symm.trans h)
        (fun h => by cases hat.symm.trans h)
      exact absurd (hflag.symm.trans hend.1) Bool.false_ne_true
    | stopFinishedWriting hat => exact h.imp_right fun hend => ⟨rfl, hend.2⟩
    | _ => exact h
  · cases hstep with
    | dequeueValue hat =>
      refine Or.inl (h.elim id fun hend => ?_)
      have hreader := howned.reader
      rw [ReaderOk, hat] at hreader
      rcases (howned.finishedWriting hend.1).2 with heq | habort | hread
      · exact absurd (hreader.1.symm.trans heq) (by decide)
      · exact habort
      · have hflag := howned.not_finishedReading (fun h => by cases hat.symm.trans h)
          (fun h => by cases hat.symm.trans h)
        exact absurd (hflag.symm.trans hread) Bool.false_ne_true
    | _ => exact h
  · cases hstep with
    | abortSoon hat => exact Or.inl rfl
    | _ => exact h

/-- A call returns `false` only when the queue is settled. -/
theorem returned_step (howned : Owned owner s) (hstep : Step s s') :
    s'.returned = s.returned ∨ s'.returned = s.returned ++ [true] ∨
      s'.returned = s.returned ++ [false] ∧ Settled s' := by
  rcases hstep with hstep | hstep | hstep
  · cases hstep <;> exact Or.inl rfl
  · cases hstep with
    | dequeueAbortSoonTrue hat habort => exact Or.inr (Or.inr ⟨rfl, Or.inl habort⟩)
    | dequeueAbortSoonAgainTrue hat habort => exact Or.inr (Or.inr ⟨rfl, Or.inl habort⟩)
    | dequeueAvailSignal hat =>
      have hreader := howned.reader
      rw [ReaderOk, hat] at hreader
      refine Or.inr (Or.inr ⟨rfl, ?_⟩)
      rcases (howned.finishedWriting hreader.2).2 with heq | habort | hread
      · -- the writer has the place, so it is empty
        have hhistory := howned.history
        rw [pending_eq (fun h => by cases hat.symm.trans h), howned.finished heq] at hhistory
        exact Or.inr ⟨hreader.2, hhistory.trans (List.append_nil _)⟩
      · exact Or.inl habort
      · have hflag := howned.not_finishedReading (fun h => by cases hat.symm.trans h)
          (fun h => by cases hat.symm.trans h)
        exact absurd (hflag.symm.trans hread) Bool.false_ne_true
    | dequeueSpaceSignal hat => exact Or.inr (Or.inl rfl)
    | _ => exact Or.inl rfl
  · cases hstep <;> exact Or.inl rfl

theorem Reached.settled (h : Reached s) : false ∈ s.returned → Settled s := by
  induction h with
  | refl => exact fun hmem => absurd hmem List.not_mem_nil
  | tail hreached hstep ih =>
    obtain ⟨owner, howned⟩ := Reached.owned hreached
    intro hmem
    rcases returned_step howned hstep with heq | heq | ⟨-, hsettled⟩
    · rw [heq] at hmem
      exact (ih hmem).step howned hstep
    · rw [heq, List.mem_append, List.mem_singleton] at hmem
      exact (ih (hmem.resolve_right Bool.false_ne_true)).step howned hstep
    · exact hsettled

/-- The call in progress, and every later one, is going to return `false`. -/
def Refusing (s : State B) : Prop :=
  match s.reader with
  | .dequeueAvailWait => s.finishedWriting = true
  | .dequeueAbortSoonAgain => s.finishedWriting = true
  | .dequeueFinishedWriting => s.finishedWriting = true
  | .dequeueValue => False
  | .dequeueClear => False
  | .dequeueSpaceSignal => False
  | _ => s.abortSoon = true ∨ s.finishedWriting = true

theorem Refusing.mono (h : Refusing s) (hat : s'.reader = s.reader)
    (habort : s.abortSoon = true → s'.abortSoon = true)
    (hwrite : s.finishedWriting = true → s'.finishedWriting = true) : Refusing s' := by
  unfold Refusing at h ⊢
  rw [hat]
  cases hr : s.reader <;> rw [hr] at h <;> dsimp only at h ⊢ <;> tauto

theorem Refusing.step (h : Refusing s) (howned : Owned owner s) (hstep : Step s s') :
    Refusing s' ∧ (s'.returned = s.returned ∨ s'.returned = s.returned ++ [false]) := by
  rcases hstep with hstep | hstep | hstep
  · cases hstep with
    | stopFinishedWriting hat => exact ⟨h.mono rfl id fun _ => rfl, Or.inl rfl⟩
    | _ => exact ⟨h, Or.inl rfl⟩
  · have hreader := howned.reader
    unfold ReaderOk at hreader
    unfold Refusing at h
    cases hstep with
    | callDequeue hat =>
      rw [hat] at h
      exact ⟨h, Or.inl rfl⟩
    | callStop hat =>
      rw [hat] at h
      exact ⟨h, Or.inl rfl⟩
    | dequeueAbortSoonTrue hat habort =>
      rw [hat] at h
      exact ⟨h, Or.inr rfl⟩
    | dequeueAbortSoonFalse hat habort =>
      rw [hat] at h
      exact ⟨h.resolve_left fun hset => Bool.false_ne_true (habort.symm.trans hset), Or.inl rfl⟩
    | dequeueAvailWait hat hpos =>
      rw [hat] at h
      exact ⟨h, Or.inl rfl⟩
    | dequeueAbortSoonAgainTrue hat habort => exact ⟨Or.inl habort, Or.inr rfl⟩
    | dequeueAbortSoonAgainFalse hat habort =>
      rw [hat] at h
      exact ⟨h, Or.inl rfl⟩
    | dequeueFinishedWriting hat =>
      rw [hat] at h
      rw [if_pos h]
      exact ⟨Or.inr h, Or.inl rfl⟩
    | dequeueAvailSignal hat =>
      rw [hat] at h
      exact ⟨h, Or.inr rfl⟩
    | dequeueValue hat => rw [hat] at h; exact h.elim
    | dequeueClear hat => rw [hat] at h; exact h.elim
    | dequeueSpaceSignal hat => rw [hat] at h; exact h.elim
    | stopAbortSoon hat =>
      rw [hat] at h
      refine ⟨?_, Or.inl rfl⟩
      split <;> exact h
    | stopFinishedReading hat =>
      rw [hat] at h
      exact ⟨h, Or.inl rfl⟩
    | stopSpaceSignal hat =>
      rw [hat] at h
      exact ⟨h, Or.inl rfl⟩
  · cases hstep with
    | abortSoon hat => exact ⟨h.mono rfl (fun _ => rfl) id, Or.inl rfl⟩
    | _ => exact ⟨h, Or.inl rfl⟩

theorem Refusing.run (h : Refusing s) (hreached : Reached s) (hrun : Relation.ReflTransGen Step s s') :
    Refusing s' ∧ ∃ k, s'.returned = s.returned ++ List.replicate k false := by
  induction hrun with
  | refl => exact ⟨h, 0, (List.append_nil _).symm⟩
  | tail hsteps hstep ih =>
    obtain ⟨hrefusing, k, hk⟩ := ih
    obtain ⟨owner, howned⟩ := Reached.owned (hreached.trans hsteps)
    obtain ⟨hrefusing', heq | heq⟩ := hrefusing.step howned hstep
    · exact ⟨hrefusing', k, heq.trans hk⟩
    · refine ⟨hrefusing', k + 1, ?_⟩
      rw [heq, hk, List.append_assoc, List.replicate_succ']

/-! ### What wakes a waiting call -/

/-- The writer waits for a permit. -/
def WriterAt.waits : WriterAt B → Bool
  | .enqueueSpaceWait _ => true
  | .stopSpaceWait => true
  | _ => false

/-- The writer has not seen a flag, and has not taken a permit since. -/
def WriterAt.entered : WriterAt B → Bool
  | .enqueueFinishedReading _ => true
  | w => w.waits

/-- The writer has taken the permit that `noteWriterStopped` needs, or needs none. -/
def WriterAt.ends : WriterAt B → Bool
  | .stopFinishedWriting => true
  | .stopAvailSignal => true
  | .stopped => true
  | _ => false

/-- The reader waits for a permit, or a later call may. -/
def ReaderAt.asks : ReaderAt → Bool
  | .idle => true
  | .dequeueAbortSoon => true
  | .dequeueAvailWait => true
  | _ => false

theorem WriterAt.entered_of_waits {w : WriterAt B} (h : w.waits = true) : w.entered = true := by
  cases w <;> first | rfl | exact h

/-- There is a permit for whoever waits after an abort, and for a reader after the end. -/
structure Wakes (s : State B) : Prop where
  writer : s.aborter = .done → s.writer.entered = true → 0 < s.space
  reader : s.aborter = .spaceSignal ∨ s.aborter = .done → s.reader = .dequeueAvailWait → 0 < s.avail
  finished : s.writer = .stopped → s.aborter = .notCalled → s.reader.asks = true → 0 < s.avail

theorem Wakes.writerStep (h : Wakes s) (howned : Owned owner s) (hstep : WriterStep s s') : Wakes s' := by
  have habort := howned.abortSoon
  cases hstep with
  | enqueueAbortSoon hat =>
    refine ⟨fun hdone hentered => ?_, h.reader, fun hstopped => ?_⟩
    · dsimp only at hdone hentered
      rw [hdone] at habort
      rw [if_pos (show s.abortSoon = true from habort)] at hentered
      cases hentered
    · dsimp only at hstopped
      split at hstopped <;> cases hstopped
  | enqueueFinishedReading hat =>
    refine ⟨fun hdone _ => h.writer hdone (hat ▸ rfl), h.reader, fun hstopped => ?_⟩
    dsimp only at hstopped
    split at hstopped <;> cases hstopped
  | enqueueAbortSoonAgain hat =>
    refine ⟨fun _ hentered => ?_, h.reader, fun hstopped => ?_⟩
    · dsimp only at hentered
      split at hentered <;> cases hentered
    · dsimp only at hstopped
      split at hstopped <;> cases hstopped
  | enqueueFinishedReadingAgain hat =>
    refine ⟨fun _ hentered => ?_, h.reader, fun hstopped => ?_⟩
    · dsimp only at hentered
      split at hentered <;> cases hentered
    · dsimp only at hstopped
      split at hstopped <;> cases hstopped
  | enqueueAvailSignal hat => exact ⟨nofun, fun _ _ => Nat.succ_pos _, nofun⟩
  | stopAbortSoon hat =>
    refine ⟨fun hdone hentered => ?_, h.reader, fun hstopped hcall => ?_⟩
    · dsimp only at hdone hentered
      rw [hdone] at habort
      rw [if_pos (show s.abortSoon = true from habort)] at hentered
      cases hentered
    · dsimp only at hstopped hcall
      rw [hcall] at habort
      rw [habort] at hstopped
      cases hstopped
  | stopAvailSignal hat => exact ⟨nofun, fun _ _ => Nat.succ_pos _, fun _ _ _ => Nat.succ_pos _⟩
  | _ => exact ⟨nofun, h.reader, nofun⟩

theorem Wakes.readerStep (h : Wakes s) (howned : Owned owner s) (hstep : ReaderStep s s') : Wakes s' := by
  have habort := howned.abortSoon
  cases hstep with
  | callDequeue hat =>
    exact ⟨h.writer, (fun _ hwait => by cases hwait), fun hw ha _ => h.finished hw ha (hat ▸ rfl)⟩
  | dequeueAbortSoonTrue hat hset =>
    exact ⟨h.writer, (fun _ hwait => by cases hwait), fun hw ha _ => h.finished hw ha (hat ▸ rfl)⟩
  | dequeueAbortSoonFalse hat hset =>
    refine ⟨h.writer, fun hdone _ => ?_, fun hw ha _ => h.finished hw ha (hat ▸ rfl)⟩
    dsimp only at hdone
    rw [hset] at habort
    rcases hdone with hdone | hdone <;> rw [hdone] at habort <;> cases habort
  | dequeueAbortSoonAgainTrue hat hset =>
    refine ⟨h.writer, (fun _ hwait => by cases hwait), fun _ hcall => ?_⟩
    dsimp only at hcall
    rw [hcall, hset] at habort
    cases habort
  | dequeueFinishedWriting hat =>
    refine ⟨h.writer, fun _ hwait => ?_, fun _ _ hasks => ?_⟩
    · dsimp only at hwait
      split at hwait <;> cases hwait
    · dsimp only at hasks
      split at hasks <;> cases hasks
  | dequeueAvailSignal hat => exact ⟨h.writer, (fun _ hwait => by cases hwait), fun _ _ _ => Nat.succ_pos _⟩
  | dequeueSpaceSignal hat =>
    refine ⟨fun _ _ => Nat.succ_pos _, (fun _ hwait => by cases hwait), fun hstopped hcall => ?_⟩
    -- the writer has not stopped, since the reader has the place
    dsimp only at hstopped hcall
    rw [hcall] at habort
    have hwriter := howned.writer
    have hreader := howned.reader
    rw [WriterOk, hstopped] at hwriter
    rw [ReaderOk, hat] at hreader
    have hset := hwriter.2.resolve_left fun hset => Bool.false_ne_true (habort.symm.trans hset)
    rcases (howned.finishedWriting hset).2 with heq | hset | hread
    · exact absurd (hreader.1.symm.trans heq) (by decide)
    · exact absurd (habort.symm.trans hset) Bool.false_ne_true
    · have hflag := howned.not_finishedReading (fun h => by cases hat.symm.trans h)
        (fun h => by cases hat.symm.trans h)
      exact absurd (hflag.symm.trans hread) Bool.false_ne_true
  | stopAbortSoon hat =>
    refine ⟨h.writer, fun _ hwait => ?_, fun _ _ hasks => ?_⟩
    · dsimp only at hwait
      split at hwait <;> cases hwait
    · dsimp only at hasks
      split at hasks <;> cases hasks
  | stopSpaceSignal hat =>
    exact ⟨fun _ _ => Nat.succ_pos _, (fun _ hwait => by cases hwait), (fun _ _ hasks => by cases hasks)⟩
  | _ => exact ⟨h.writer, (fun _ hwait => by cases hwait), (fun _ _ hasks => by cases hasks)⟩

theorem Wakes.abortStep (h : Wakes s) (hstep : AbortStep s s') : Wakes s' := by
  cases hstep with
  | availSignal hat => exact ⟨nofun, fun _ _ => Nat.succ_pos _, nofun⟩
  | spaceSignal hat => exact ⟨fun _ _ => Nat.succ_pos _, fun _ => h.reader (Or.inl hat), nofun⟩
  | _ => exact ⟨nofun, nofun, nofun⟩

theorem Reached.wakes (h : Reached s) : Wakes s := by
  induction h with
  | refl => exact ⟨nofun, nofun, nofun⟩
  | tail hreached hstep ih =>
    obtain ⟨owner, howned⟩ := Reached.owned hreached
    rcases hstep with hstep | hstep | hstep
    · exact ih.writerStep howned hstep
    · exact ih.readerStep howned hstep
    · exact ih.abortStep hstep

/-! ### The permit of a reader that stops -/

/-- An `enqueue` waits after the reader has stopped, and there is one permit only. -/
def LastPermit (s : State B) : Prop :=
  (∃ next, s.writer = .enqueueSpaceWait next) ∧ s.reader = .stopped ∧ s.aborter = .notCalled ∧ s.space = 1

/-- A step of the queue in which no `enqueue` takes the permit of a reader that has stopped. -/
def CarefulStep (s s' : State B) : Prop := Step s s' ∧ ¬(LastPermit s ∧ WriterStep s s')

/-- The states reached by such steps. -/
def CarefullyReached (s : State B) : Prop := Relation.ReflTransGen CarefulStep (start B) s

theorem CarefullyReached.reached (h : CarefullyReached s) : Reached s :=
  Relation.ReflTransGen.mono (p := Step) (fun _ _ => And.left) _ _ h

/-- The permit of the reader is there until `noteWriterStopped` takes it. -/
theorem CarefullyReached.permit (h : CarefullyReached s) : s.reader = .stopped → s.aborter = .notCalled →
    s.writer.ends = false → 0 < s.space := by
  induction h with
  | refl => exact nofun
  | @tail s s' hreached hstep ih =>
    obtain ⟨hstep | hstep | hstep, hcareful⟩ := hstep
    · intro hstopped hcall hends
      have hmore : 0 < s.space → s.space ≠ 1 → 0 < s.space - 1 := fun hpos hne => by omega
      cases hstep with
      | enqueueSpaceWait hat hpos =>
        refine hmore hpos fun hone => hcareful ⟨⟨⟨_, hat⟩, hstopped, hcall, hone⟩, ?_⟩
        exact .enqueueSpaceWait hat hpos
      | stopSpaceWait hat hpos => cases hends
      | stopFinishedWriting hat => cases hends
      | stopAvailSignal hat => cases hends
      | callEnqueue next hat => exact ih hstopped hcall (hat ▸ rfl)
      | callStop hat => exact ih hstopped hcall (hat ▸ rfl)
      | enqueueAbortSoon hat => exact ih hstopped hcall (hat ▸ rfl)
      | enqueueFinishedReading hat => exact ih hstopped hcall (hat ▸ rfl)
      | enqueueAbortSoonAgain hat => exact ih hstopped hcall (hat ▸ rfl)
      | enqueueFinishedReadingAgain hat => exact ih hstopped hcall (hat ▸ rfl)
      | enqueueValue hat => exact ih hstopped hcall (hat ▸ rfl)
      | enqueueAvailSignal hat => exact ih hstopped hcall (hat ▸ rfl)
      | stopAbortSoon hat => exact ih hstopped hcall (hat ▸ rfl)
    · cases hstep with
      | stopSpaceSignal hat => exact fun _ _ _ => Nat.succ_pos _
      | dequeueFinishedWriting hat =>
        intro hstopped
        dsimp only at hstopped
        split at hstopped <;> cases hstopped
      | stopAbortSoon hat =>
        intro hstopped hcall
        -- the flag would be set
        obtain ⟨owner, howned⟩ := Reached.owned (CarefullyReached.reached hreached)
        have habort := howned.abortSoon
        dsimp only at hstopped hcall
        rw [hcall] at habort
        rw [habort] at hstopped
        cases hstopped
      | _ => exact nofun
    · cases hstep <;> exact nofun

/-! ### Handing over and shutting down -/

/-- The writer waits, no permit is there, and no `abort` is on the way to give one. -/
def WriterStuck (s : State B) : Prop :=
  s.writer.waits = true ∧ s.space = 0 ∧ (s.aborter = .notCalled ∨ s.aborter = .done)

/-- The reader waits, no permit is there, and no `abort` is on the way to give one. -/
def ReaderStuck (s : State B) : Prop :=
  s.reader = .dequeueAvailWait ∧ s.avail = 0 ∧ (s.aborter = .notCalled ∨ s.aborter = .done)

/-- The blocks are handed over in order, none is lost or fetched twice, no call stays blocked after a stop,
and `dequeue` returns `false` when the queue is settled, and only then. -/
structure HandsOver (s : State B) : Prop where
  inOrder : s.enqueued.map some = s.delivered ++ pending s.reader s.value
  writerFree : s.reader = .stopped ∨ s.aborter = .done → ¬WriterStuck s
  readerFree : s.writer = .stopped ∨ s.aborter = .done → ¬ReaderStuck s
  refused : false ∈ s.returned → Settled s
  refuses : ∀ s', s.reader = .idle → Settled s → Relation.ReflTransGen Step s s' →
    ∃ k, s'.returned = s.returned ++ List.replicate k false

theorem not_ends_of_waits {w : WriterAt B} (h : w.waits = true) : w.ends = false := by
  cases w <;> first | rfl | cases h

theorem CarefullyReached.handsOver (h : CarefullyReached s) : HandsOver s := by
  have hreached := h.reached
  have hwakes := Reached.wakes hreached
  obtain ⟨owner, howned⟩ := Reached.owned hreached
  refine ⟨howned.history, ?_, ?_, Reached.settled hreached, fun s' hat hsettled hrun => ?_⟩
  · rintro hstopped ⟨hwaits, hspace, hcall | hdone⟩
    · have hread := hstopped.resolve_right fun hdone => by rw [hcall] at hdone; cases hdone
      exact Nat.ne_of_gt (h.permit hread hcall (not_ends_of_waits hwaits)) hspace
    · exact Nat.ne_of_gt (hwakes.writer hdone (WriterAt.entered_of_waits hwaits)) hspace
  · rintro hstopped ⟨hwaits, havail, hcall | hdone⟩
    · have hwrite := hstopped.resolve_right fun hdone => by rw [hcall] at hdone; cases hdone
      exact Nat.ne_of_gt (hwakes.finished hwrite hcall (hwaits ▸ rfl)) havail
    · exact Nat.ne_of_gt (hwakes.reader (Or.inr hdone) hwaits) havail
  · have hrefusing : Refusing s := by
      rw [Refusing, hat]
      exact hsettled.imp_right And.left
    exact (hrefusing.run hreached hrun).2

/-- The `enqueue` returns `false`, and `noteWriterStopped` waits for ever. -/
theorem stuck_of_taken {next : B} (hat : s.writer = .enqueueAbortSoonAgain next)
    (hstopped : s.reader = .stopped) (hread : s.finishedReading = true) (habort : s.abortSoon = false)
    (hcall : s.aborter = .notCalled) (hspace : s.space = 0) :
    ∃ s', Relation.ReflTransGen Step s s' ∧ s'.reader = .stopped ∧ WriterStuck s' := by
  have hgoesOn : WriterStep s { s with writer := .enqueueFinishedReadingAgain next } := by
    have hstep := WriterStep.enqueueAbortSoonAgain hat
    rwa [habort, if_neg Bool.false_ne_true, ← habort] at hstep
  have hgivesUp : WriterStep { s with writer := .enqueueFinishedReadingAgain next }
      { s with writer := .idle } := by
    have hstep := @WriterStep.enqueueFinishedReadingAgain B
      { s with writer := .enqueueFinishedReadingAgain next } next rfl
    dsimp only at hstep
    rwa [hread, if_pos rfl, ← hread] at hstep
  have hcalls : WriterStep { s with writer := .idle } { s with writer := .stopAbortSoon } :=
    @WriterStep.callStop B { s with writer := .idle } rfl
  have hwaits : WriterStep { s with writer := .stopAbortSoon } { s with writer := .stopSpaceWait } := by
    have hstep := @WriterStep.stopAbortSoon B { s with writer := .stopAbortSoon } rfl
    dsimp only at hstep
    rwa [habort, if_neg Bool.false_ne_true, ← habort] at hstep
  exact ⟨{ s with writer := .stopSpaceWait },
    .head (.writer hgoesOn) (.head (.writer hgivesUp) (.head (.writer hcalls) (.single (.writer hwaits)))),
    hstopped, rfl, hspace, Or.inl hcall⟩

theorem LastPermit.stuck (h : LastPermit s) (hreached : Reached s) (hstep : WriterStep s s') :
    ∃ s'', Relation.ReflTransGen Step s' s'' ∧ s''.reader = .stopped ∧ WriterStuck s'' := by
  obtain ⟨⟨next, hat⟩, hstopped, hcall, hone⟩ := h
  obtain ⟨owner, howned⟩ := Reached.owned hreached
  have habort : s.abortSoon = false := by rw [howned.abortSoon, hcall]; rfl
  have hread : s.finishedReading = true := by
    have hreader := howned.reader
    rw [ReaderOk, hstopped] at hreader
    exact hreader.2.resolve_left fun hset => Bool.false_ne_true (habort.symm.trans hset)
  cases hstep with
  | @enqueueSpaceWait next' hat' hpos =>
    exact @stuck_of_taken B { s with space := s.space - 1, writer := .enqueueAbortSoonAgain next' } next' rfl
      hstopped hread habort hcall (by rw [hone])
  | callEnqueue _ hat' => rw [hat] at hat'; cases hat'
  | callStop hat' => rw [hat] at hat'; cases hat'
  | enqueueAbortSoon hat' => rw [hat] at hat'; cases hat'
  | enqueueFinishedReading hat' => rw [hat] at hat'; cases hat'
  | enqueueAbortSoonAgain hat' => rw [hat] at hat'; cases hat'
  | enqueueFinishedReadingAgain hat' => rw [hat] at hat'; cases hat'
  | enqueueValue hat' => rw [hat] at hat'; cases hat'
  | enqueueAvailSignal hat' => rw [hat] at hat'; cases hat'
  | stopAbortSoon hat' => rw [hat] at hat'; cases hat'
  | stopSpaceWait hat' => rw [hat] at hat'; cases hat'
  | stopFinishedWriting hat' => rw [hat] at hat'; cases hat'
  | stopAvailSignal hat' => rw [hat] at hat'; cases hat'

/-- The second `enqueue` waits, with the first block in the queue, when the reader stops. -/
def lateEnqueue : State ℕ :=
  { start ℕ with
    value := some 1, finishedReading := true, avail := 1, writer := .enqueueSpaceWait 2, reader := .stopped,
    enqueued := [1] }

theorem reached_lateEnqueue : Reached lateEnqueue := by
  have h₁ : Reached { start ℕ with writer := .enqueueAbortSoon 1 } := .single (.writer (.callEnqueue 1 rfl))
  have h₂ : Reached { start ℕ with writer := .enqueueFinishedReading 1 } :=
    h₁.tail (.writer (.enqueueAbortSoon rfl))
  have h₃ : Reached { start ℕ with writer := .enqueueSpaceWait 1 } :=
    h₂.tail (.writer (.enqueueFinishedReading rfl))
  have h₄ : Reached { start ℕ with space := 0, writer := .enqueueAbortSoonAgain 1 } :=
    h₃.tail (.writer (.enqueueSpaceWait rfl Nat.one_pos))
  have h₅ : Reached { start ℕ with space := 0, writer := .enqueueFinishedReadingAgain 1 } :=
    h₄.tail (.writer (.enqueueAbortSoonAgain rfl))
  have h₆ : Reached { start ℕ with space := 0, writer := .enqueueValue 1 } :=
    h₅.tail (.writer (.enqueueFinishedReadingAgain rfl))
  have h₇ := h₆.tail (.writer (.enqueueValue rfl))
  have h₈ := h₇.tail (.writer (.enqueueAvailSignal rfl))
  have h₉ := h₈.tail (.writer (.callEnqueue 2 rfl))
  have h₁₀ := h₉.tail (.writer (.enqueueAbortSoon rfl))
  have h₁₁ := h₁₀.tail (.writer (.enqueueFinishedReading rfl))
  have h₁₂ := h₁₁.tail (.reader (.callStop rfl))
  have h₁₃ := h₁₂.tail (.reader (.stopAbortSoon rfl))
  have h₁₄ := h₁₃.tail (.reader (.stopFinishedReading rfl))
  exact h₁₄.tail (.reader (.stopSpaceSignal rfl))

end SingleItemBlockQueue

end HpccPlatform
