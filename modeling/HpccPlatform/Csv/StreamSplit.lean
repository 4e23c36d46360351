import HpccPlatform.Csv.TextSplitter

/-!
# Lines of a stream

`splitLine` of a stream peeks a block, splits it, and peeks more if no line ends in front of the end of
the block.  A text that the end of the block cuts short is matched as a shorter one, and if a line ends
there the line is taken for it.
-/

namespace CsvStream

open Csv (MatchItem)

/-- A stream in front of some content.  The number of the call and the number of bytes that are wanted
tell how many bytes are made available: not fewer, except at the end. -/
structure Stream where
  content : List UInt8
  peek : ℕ → ℕ → ℕ
  peek_le : ∀ n wanted, peek n wanted ≤ content.length
  le_peek : ∀ n wanted, wanted ≤ peek n wanted ∨ peek n wanted = content.length

/-- What is wanted of the next block, in 32 bits. -/
def nextRequired (maxRowSize minRequired avail : ℕ) : ℕ :=
  let minRequired :=
    if minRequired * 2 % 2 ^ 32 < avail then (avail + minRequired) % 2 ^ 32
    else (minRequired + minRequired) % 2 ^ 32
  if maxRowSize / 2 ≤ minRequired then maxRowSize else minRequired

namespace CSVSplitter

/-- The loop of `splitLine`, before the call `n` of `peek`. -/
def splitBlocks (stream : Stream) (maxRowSize : ℕ) : ℕ → ℕ → ℕ → CSVSplitter → Option (ℕ × CSVSplitter)
  | 0, _, _, _ => none
  | fuel + 1, n, minRequired, S =>
    let avail := stream.peek n minRequired
    match S.splitLine (stream.content.take avail) with
    | none => none
    | some (thisLineLength, S) =>
      if thisLineLength < avail ∨ avail < minRequired then some (thisLineLength, S)
      -- the line is longer than `maxRowSize`
      else if minRequired = maxRowSize then none
      else splitBlocks stream maxRowSize fuel (n + 1) (nextRequired maxRowSize minRequired avail) S

/-- `splitLine` of a stream, in at most `fuel` blocks. -/
def splitStream (S : CSVSplitter) (stream : Stream) (maxRowSize fuel : ℕ) : Option (ℕ × CSVSplitter) :=
  if stream.content = [] then some (0, S) else splitBlocks stream maxRowSize fuel 0 4096 S

end CSVSplitter

/-! ### The blocks -/

section Blocks

variable {stream : Stream} {S S' T : CSVSplitter} {maxRowSize n minRequired L : ℕ}

/-- The block of the call `n`. -/
def Stream.block (stream : Stream) (n minRequired : ℕ) : List UInt8 :=
  stream.content.take (stream.peek n minRequired)

theorem Stream.length_block (stream : Stream) (n minRequired : ℕ) :
    (stream.block n minRequired).length = stream.peek n minRequired := by
  rw [Stream.block, List.length_take, min_eq_left (stream.peek_le n minRequired)]

theorem Stream.block_append (stream : Stream) (n minRequired : ℕ) :
    stream.block n minRequired ++ stream.content.drop (stream.peek n minRequired) = stream.content :=
  List.take_append_drop _ _

/-- Each block up to the first one that is longer than the line, or the last of the stream, is split up
to its own end, and no exception is thrown. -/
inductive Settles (stream : Stream) (maxRowSize L : ℕ) : ℕ → ℕ → CSVSplitter → Prop
  | found {n minRequired : ℕ} {S : CSVSplitter}
      (hblock : L < stream.peek n minRequired ∨ stream.peek n minRequired < minRequired)
      (hsplit : (S.splitLine (stream.block n minRequired)).isSome = true) :
      Settles stream maxRowSize L n minRequired S
  | more {n minRequired : ℕ} {S S' : CSVSplitter} (hle : stream.peek n minRequired ≤ L)
      (hmore : minRequired ≤ stream.peek n minRequired)
      (hsplit : S.splitLine (stream.block n minRequired) = some (stream.peek n minRequired, S'))
      (hrest : Settles stream maxRowSize L (n + 1)
        (nextRequired maxRowSize minRequired (stream.peek n minRequired)) S') :
      Settles stream maxRowSize L n minRequired S

theorem splitLine_settings {line : List UInt8} (h : S.splitLine line = some (L, S')) :
    S'.toSettings = S.toSettings := by
  obtain ⟨r, -, hr⟩ := Option.map_eq_some_iff.mp h
  cases hr
  rfl

theorem splitLine_le {line : List UInt8} (h : S.splitLine line = some (L, S')) : L ≤ line.length := by
  obtain ⟨r, hloop, hr⟩ := Option.map_eq_some_iff.mp h
  cases hr
  exact (Settings.splitLoop_ge _ _ (Nat.zero_le _) le_rfl hloop).1

/-- The same line with the same columns, whatever the size of the buffer is, if it can grow. -/
theorem splitLine_part {block more : List UInt8} (hT : T.toSettings = S.toSettings)
    (h : S.splitLine (block ++ more) = some (L, S')) (hL : more = [] ∨ L < block.length)
    (hsome : (T.splitLine block).isSome = true) :
    ∃ T', T.splitLine block = some (L, T') ∧ T'.columns = S'.columns := by
  obtain ⟨⟨L', final⟩, hloop, hr⟩ := Option.map_eq_some_iff.mp h
  cases hr
  have hstart : S.start.resize T.sizeInternal = T.start := rfl
  unfold CSVSplitter.splitLine at hsome ⊢
  rw [hT, ← hstart] at hsome ⊢
  rcases Settings.splitLoop_part _ (block.length + 1) S.start T.sizeInternal (Nat.zero_le _) le_rfl
    hloop hL with hnone | ⟨size, hsplit⟩
  · rw [hnone] at hsome
    cases hsome
  · rw [hsplit]
    exact ⟨_, rfl, rfl⟩

/-- A block that is longer than the line, or the last of the stream. -/
theorem splitLine_block (hT : T.toSettings = S.toSettings)
    (h : S.splitLine stream.content = some (L, S'))
    (hblock : L < stream.peek n minRequired ∨ stream.peek n minRequired < minRequired)
    (hsome : (T.splitLine (stream.block n minRequired)).isSome = true) :
    ∃ T', T.splitLine (stream.block n minRequired) = some (L, T') ∧ T'.columns = S'.columns := by
  rw [← stream.block_append n minRequired] at h
  refine splitLine_part hT h ?_ hsome
  rcases hblock with hlt | hlast
  · exact Or.inr (hlt.trans_eq (stream.length_block n minRequired).symm)
  · have hall := (stream.le_peek n minRequired).resolve_left (not_le.mpr hlast)
    exact Or.inl (by rw [hall, List.drop_length])

theorem Settles.splitBlocks (h : Settles stream maxRowSize L n minRequired T)
    (hline : S.splitLine stream.content = some (L, S')) (hmax : L < maxRowSize)
    (hT : T.toSettings = S.toSettings) :
    ∃ fuel T', CSVSplitter.splitBlocks stream maxRowSize fuel n minRequired T = some (L, T') ∧
      T'.columns = S'.columns := by
  induction h with
  | @found n minRequired T hblock hsome =>
    obtain ⟨T', hsplit, hcolumns⟩ := splitLine_block hT hline hblock hsome
    refine ⟨1, T', ?_, hcolumns⟩
    rw [CSVSplitter.splitBlocks, ← Stream.block, hsplit]
    exact if_pos hblock
  | @more n minRequired T T₁ hle hmore hsplit hrest ih =>
    obtain ⟨fuel, T', hblocks, hcolumns⟩ := ih ((splitLine_settings hsplit).trans hT)
    refine ⟨fuel + 1, T', ?_, hcolumns⟩
    have hne : minRequired ≠ maxRowSize := (hmore.trans_lt (hle.trans_lt hmax)).ne
    rw [CSVSplitter.splitBlocks, ← Stream.block, hsplit]
    dsimp only
    rw [if_neg (not_or.mpr ⟨lt_irrefl _, not_lt.mpr hmore⟩), if_neg hne]
    exact hblocks

theorem settles_of_splitBlocks (hline : S.splitLine stream.content = some (L, S')) : ∀ (fuel n minRequired : ℕ)
    {T T' : CSVSplitter}, T.toSettings = S.toSettings →
    CSVSplitter.splitBlocks stream maxRowSize fuel n minRequired T = some (L, T') →
    Settles stream maxRowSize L n minRequired T
  | 0, _, _, _, _, _, h => by cases h
  | fuel + 1, n, minRequired, T, T', hT, h => by
    rw [CSVSplitter.splitBlocks, ← Stream.block] at h
    cases hsplit : T.splitLine (stream.block n minRequired) with
    | none =>
      rw [hsplit] at h
      cases h
    | some r =>
      obtain ⟨thisLineLength, T₁⟩ := r
      have hsome : (T.splitLine (stream.block n minRequired)).isSome = true := by
        rw [hsplit]
        rfl
      rw [hsplit] at h
      dsimp only at h
      by_cases haccept : thisLineLength < stream.peek n minRequired ∨
          stream.peek n minRequired < minRequired
      · rw [if_pos haccept] at h
        cases h
        exact .found haccept hsome
      rw [if_neg haccept] at h
      obtain ⟨hge, hmore⟩ := not_or.mp haccept
      have hlength := splitLine_le hsplit
      rw [stream.length_block] at hlength
      have heq : thisLineLength = stream.peek n minRequired := le_antisymm hlength (not_lt.mp hge)
      rw [heq] at hsplit
      by_cases hthrow : minRequired = maxRowSize
      · rw [if_pos hthrow] at h
        cases h
      rw [if_neg hthrow] at h
      refine .more (not_lt.mp fun hlt => ?_) (not_lt.mp hmore) hsplit
        (settles_of_splitBlocks hline fuel _ _ ((splitLine_settings hsplit).trans hT) h)
      -- a block that is longer than the line would have been split at its end
      obtain ⟨T₂, hsplit₂, -⟩ := splitLine_block hT hline (Or.inl hlt) hsome
      rw [hsplit, Option.some_inj] at hsplit₂
      exact hlt.ne (congrArg Prod.fst hsplit₂).symm

end Blocks

/-! ### A block that ends inside a terminator -/

section Cut

/-- The terminators of one line feed and of three. -/
def lineFeeds : StringMatcher :=
  ((StringMatcher.empty.queryAddEntry .terminator [10]).bind
    (StringMatcher.queryAddEntry · .terminator [10, 10, 10])).getD .empty

def lineFeedSplitter : CSVSplitter := ⟨⟨1, 0, lineFeeds⟩, 0, []⟩

/-- A line with three line feeds at its end, where the first block has two of them. -/
def cutStream : Stream where
  content := List.replicate 4094 97 ++ [10, 10, 10]
  peek _ wanted := if wanted ≤ 4096 then 4096 else 4097
  peek_le _ wanted := by
    rw [List.length_append, List.length_replicate]
    split_ifs <;> decide
  le_peek _ wanted := by
    rw [List.length_append, List.length_replicate]
    by_cases hwanted : wanted ≤ 4096
    · exact Or.inl (by rwa [if_pos hwanted])
    · exact Or.inr (if_neg hwanted)

/-- The splitter has gone over `n` bytes without a meaning. -/
def LineState.skip (st : LineState) (n : ℕ) : LineState :=
  { st with cur := st.cur + n, lastGood := st.cur + n }

theorem LineState.skip_zero {st : LineState} (h : st.lastGood = st.cur) : st.skip 0 = st := by
  cases st
  cases h
  rfl

theorem splitLoop_letters {rest : List UInt8} : ∀ (n fuel : ℕ) (line : List UInt8) (st : LineState),
    line.drop st.cur = List.replicate n 97 ++ rest → st.lastGood = st.cur →
    lineFeedSplitter.splitLoop line (fuel + n) st = lineFeedSplitter.splitLoop line fuel (st.skip n)
  | 0, fuel, line, st, _, hgood => by rw [Nat.add_zero, LineState.skip_zero hgood]
  | n + 1, fuel, line, st, hline, hgood => by
    have hlt : st.cur ≠ line.length := fun heq => by
      rw [heq, List.drop_length, List.replicate_succ] at hline
      cases hline
    have hdrop : line.drop (st.skip 1).cur = List.replicate n 97 ++ rest := by
      change line.drop (st.cur + 1) = _
      rw [← List.drop_drop, hline, List.replicate_succ]
      rfl
    have hstep : lineFeedSplitter.step line st = some (st.skip 1, false) := by
      have hfound : lineFeedSplitter.matcher.getMatch (line.drop st.cur) = (.none, 0) := by
        rw [hline, List.replicate_succ]
        rfl
      rw [Settings.step, hfound]
      rfl
    have hskip : (st.skip 1).skip n = st.skip (n + 1) := by
      simp only [LineState.skip, Nat.add_assoc, Nat.add_comm 1]
    rw [← Nat.add_assoc, Settings.splitLoop, if_neg hlt, hstep]
    dsimp only
    rw [splitLoop_letters n fuel line (st.skip 1) hdrop rfl, hskip]

theorem splitLoop_terminator {S : Settings} {line : List UInt8} {st : LineState} {k fuel : ℕ}
    (hcur : st.cur ≠ line.length) (hfound : S.matcher.getMatch (line.drop st.cur) = (.terminator, k))
    (hquote : st.quote = .none) (hplain : st.quoteToStrip = .none ∧ st.lastEscape = false) :
    ∃ t, S.splitLoop line (fuel + 1) st = some (st.cur + k, t) := by
  rw [Settings.splitLoop, if_neg hcur, Settings.step, hfound]
  dsimp only
  rw [if_pos hquote, Settings.setFieldRange, if_pos hplain]
  exact ⟨_, rfl⟩

/-- A line of letters that a terminator ends. -/
theorem splitLine_letters (n : ℕ) {rest : List UInt8} {k : ℕ}
    (hrest : lineFeeds.getMatch rest = (.terminator, k)) :
    ∃ S, lineFeedSplitter.splitLine (List.replicate n 97 ++ rest) = some (n + k, S) := by
  have hne : rest ≠ [] := fun hnil => by
    rw [hnil] at hrest
    cases hrest
  have hpos : 0 < rest.length := List.length_pos_iff.mpr hne
  have hlength : (List.replicate n (97 : UInt8) ++ rest).length = n + rest.length := by
    rw [List.length_append, List.length_replicate]
  have hcur : (lineFeedSplitter.start.skip n).cur = n := Nat.zero_add n
  have hfound : lineFeedSplitter.matcher.getMatch
      ((List.replicate n 97 ++ rest).drop (lineFeedSplitter.start.skip n).cur) = (.terminator, k) := by
    rw [hcur, List.drop_left' (List.length_replicate)]
    exact hrest
  have hend : (lineFeedSplitter.start.skip n).cur ≠ (List.replicate n (97 : UInt8) ++ rest).length := by
    rw [hcur, hlength]
    exact (Nat.lt_add_of_pos_right hpos).ne
  obtain ⟨t, ht⟩ := @splitLoop_terminator _ _ _ k rest.length hend hfound rfl ⟨rfl, rfl⟩
  rw [hcur] at ht
  have hloop := @splitLoop_letters rest n (rest.length + 1) _ lineFeedSplitter.start List.drop_zero rfl
  rw [ht, Nat.add_right_comm, Nat.add_comm rest.length] at hloop
  unfold CSVSplitter.splitLine
  rw [hlength, hloop]
  exact ⟨_, rfl⟩

end Cut

end CsvStream
