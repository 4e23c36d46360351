import HpccPlatform.Csv.TextMatcher

/-!
# Lines with texts of any length

`splitLine` of `csvsplitter.cpp` for any matcher.  A column is kept as the bytes that its pointer and
its length show.  On a part of a content the splitter does what it does on all of it, as long as no
match is cut short by the end of the part; the lengths of a line on both tell whether one is.
-/

namespace CsvStream

open Csv (MatchItem)

/-- What `init` sets. -/
structure Settings where
  maxColumns : ℕ
  maxCsvSize : ℕ
  matcher : StringMatcher

/-- With the columns of the last line. -/
structure CSVSplitter extends Settings where
  sizeInternal : ℕ
  columns : List (List UInt8)

/-- The variables of `splitLine`, with the columns that are set.  No quote is the item `none`. -/
structure LineState where
  curColumn : ℕ
  quote : MatchItem
  quoteToStrip : MatchItem
  cur : ℕ
  firstGood : ℕ
  lastGood : ℕ
  lastEscape : Bool
  internalOffset : ℕ
  sizeInternal : ℕ
  columns : List (List UInt8)

/-- The buffer has another size. -/
abbrev LineState.resize (st : LineState) (size : ℕ) : LineState := { st with sizeInternal := size }

/-- The bytes from `start` up to `stop`. -/
def between (text : List UInt8) (start stop : ℕ) : List UInt8 := (text.take stop).drop start

/-- The loop that copies a field, with what has been copied. -/
def copyLoop (m : StringMatcher) (quoteToStrip : MatchItem) (field : List UInt8) :
    ℕ → ℕ → ℕ → List UInt8 → Option (List UInt8)
  | 0, _, _, _ => none
  | fuel + 1, cur, lastCopied, copied =>
    if cur = field.length then some (copied ++ between field lastCopied cur)
    else
      let (found, matchLen) := m.getMatch (field.drop cur)
      match found with
      | .none => copyLoop m quoteToStrip field fuel (cur + 1) lastCopied copied
      | .escape =>
        let next := cur + matchLen
        if next ≠ field.length then
          let nextMatchLen := (m.getMatch (field.drop next)).2
          let nextMatchLen := if nextMatchLen = 0 then 1 else nextMatchLen
          copyLoop m quoteToStrip field fuel (next + nextMatchLen) next
            (copied ++ between field lastCopied cur)
        else copyLoop m quoteToStrip field fuel next lastCopied copied
      | .quote _ =>
        let next := cur + matchLen
        if found = quoteToStrip ∧ next ≠ field.length then
          let (nextMatch, nextMatchLen) := m.getMatch (field.drop next)
          if nextMatch = found then
            copyLoop m quoteToStrip field fuel (next + nextMatchLen) (next + nextMatchLen)
              (copied ++ between field lastCopied next)
          else copyLoop m quoteToStrip field fuel next lastCopied copied
        else copyLoop m quoteToStrip field fuel next lastCopied copied
      | _ => copyLoop m quoteToStrip field fuel (cur + matchLen) lastCopied copied

namespace Settings

variable (S : Settings) (line : List UInt8)

/-- There is no result if the line is too long for the buffer. -/
def setFieldRange (st : LineState) : Option LineState :=
  let field := between line st.firstGood st.lastGood
  if st.quoteToStrip = .none ∧ st.lastEscape = false then
    some { st with columns := st.columns ++ [field] }
  else
    (Csv.CSVSplitter.makeRoom S.maxCsvSize st.sizeInternal (st.internalOffset + field.length)).bind
      fun size =>
        (copyLoop S.matcher st.quoteToStrip field (field.length + 1) 0 0 []).map fun copied =>
          { st with
            internalOffset := st.internalOffset + copied.length
            sizeInternal := size
            columns := st.columns ++ [copied] }

/-- The rest of the columns is empty. -/
def fillColumns (st : LineState) : LineState :=
  { st with columns := st.columns ++ List.replicate (S.maxColumns - (st.curColumn + 1)) [] }

/-- One round of the loop, and whether it ends the line. -/
def step (st : LineState) : Option (LineState × Bool) :=
  let (found, matchLen) := S.matcher.getMatch (line.drop st.cur)
  let next := st.cur + matchLen
  match found with
  | .none => some ({ st with cur := st.cur + 1, lastGood := st.cur + 1 }, false)
  | .whitespace =>
    some (if st.quote ≠ .none then { st with cur := next, lastGood := next }
      else if st.cur = st.firstGood then { st with cur := next, firstGood := next, lastGood := next }
      else { st with cur := next }, false)
  | .separator =>
    if st.curColumn < S.maxColumns ∧ st.quote = .none then
      (setFieldRange S line st).map fun st =>
        ({ st with
          cur := next
          curColumn := st.curColumn + 1
          quoteToStrip := .none
          lastEscape := false
          firstGood := next
          lastGood := next }, false)
    else some ({ st with cur := next, lastGood := next }, false)
  | .terminator =>
    if st.quote = .none then
      (setFieldRange S line st).map fun st =>
        ({ fillColumns S st with cur := next, lastEscape := false }, true)
    else some ({ st with cur := next, lastGood := next }, false)
  | .quote _ =>
    if st.quote = .none then
      some (if st.cur = st.firstGood then
          { st with cur := next, quote := found, firstGood := next, lastGood := next }
        else { st with cur := next, lastGood := next }, false)
    else if st.quote = found then
      if next ≠ line.length then
        let (nextMatch, nextMatchLen) := S.matcher.getMatch (line.drop next)
        if nextMatch = st.quote then
          some ({ st with
            cur := next + nextMatchLen
            quoteToStrip := st.quote
            lastGood := next + nextMatchLen }, false)
        else some ({ st with cur := next, quote := .none }, false)
      else some ({ st with cur := next, quote := .none }, false)
    else some ({ st with cur := next, lastGood := next }, false)
  | .escape =>
    if next = line.length then
      some ({ st with cur := next, lastEscape := true, lastGood := next }, false)
    else
      let (nextMatch, nextMatchLen) := S.matcher.getMatch (line.drop next)
      let nextMatchLen := if nextMatch = .none then 1 else nextMatchLen
      some ({ st with
        cur := next + nextMatchLen
        lastEscape := true
        lastGood := next + nextMatchLen }, false)

/-- The loop of `splitLine`, with the length of the line. -/
def splitLoop : ℕ → LineState → Option (ℕ × LineState)
  | 0, _ => none
  | fuel + 1, st =>
    if st.cur = line.length then
      (setFieldRange S line st).map fun st => (line.length, fillColumns S st)
    else
      match step S line st with
      | none => none
      | some (st, true) => some (st.cur, st)
      | some (st, false) => splitLoop fuel st

end Settings

namespace CSVSplitter

def start (S : CSVSplitter) : LineState where
  curColumn := 0
  quote := .none
  quoteToStrip := .none
  cur := 0
  firstGood := 0
  lastGood := 0
  lastEscape := false
  internalOffset := 0
  sizeInternal := S.sizeInternal
  columns := []

/-- The length of the line, and the splitter with its columns.  There is no result if an exception is
thrown. -/
def splitLine (S : CSVSplitter) (line : List UInt8) : Option (ℕ × CSVSplitter) :=
  (S.splitLoop line (line.length + 1) S.start).map fun r =>
    (r.1, { S with sizeInternal := r.2.sizeInternal, columns := r.2.columns })

end CSVSplitter

/-! ### The loops go on to the end -/

theorem between_append {a b : ℕ} {text : List UInt8} (more : List UInt8) (hb : b ≤ text.length) :
    between (text ++ more) a b = between text a b := by
  rw [between, between, List.take_append_of_le_length hb]

/-- The rounds are enough to copy a field. -/
theorem copyLoop_isSome (m : StringMatcher) (quoteToStrip : MatchItem) (field : List UInt8) :
    ∀ (fuel cur lastCopied : ℕ) (copied : List UInt8), cur ≤ field.length → field.length - cur < fuel →
      (copyLoop m quoteToStrip field fuel cur lastCopied copied).isSome = true
  | 0, _, _, _, _, hfuel => absurd hfuel (Nat.not_lt_zero _)
  | fuel + 1, cur, lastCopied, copied, hcur, hfuel => by
    have ih := copyLoop_isSome m quoteToStrip field fuel
    rw [copyLoop]
    by_cases hend : cur = field.length
    · rw [if_pos hend]
      rfl
    rw [if_neg hend]
    have hlt : cur < field.length := lt_of_le_of_ne hcur hend
    have hle : ∀ p ≤ field.length, p + (m.getMatch (field.drop p)).2 ≤ field.length := fun p hp => by
      have hmatch := m.getMatch_le (field.drop p)
      rw [List.length_drop] at hmatch
      omega
    have hle' := hle cur hcur
    have hnext := hle _ hle'
    rcases m.getMatch_cases (field.drop cur) with heq | ⟨hne, hpos, -⟩
    · rw [heq]
      exact ih _ _ _ hlt (by omega)
    generalize m.getMatch (field.drop cur) = r at hne hpos hle' hnext
    obtain ⟨found, matchLen⟩ := r
    cases found with
    | none => exact absurd rfl hne
    | separator => exact ih _ _ _ hle' (by omega)
    | terminator => exact ih _ _ _ hle' (by omega)
    | whitespace => exact ih _ _ _ hle' (by omega)
    | quote i =>
      dsimp only at hpos hle' hnext ⊢
      split_ifs
      · exact ih _ _ _ hnext (by omega)
      · exact ih _ _ _ hle' (by omega)
      · exact ih _ _ _ hle' (by omega)
    | escape =>
      dsimp only at hpos hle' hnext ⊢
      by_cases hlast : cur + matchLen ≠ field.length
      · rw [if_pos hlast]
        split_ifs
        · exact ih _ _ _ (by omega) (by omega)
        · exact ih _ _ _ hnext (by omega)
      · rw [if_neg hlast]
        exact ih _ _ _ hle' (by omega)

namespace Settings

variable {S : Settings} {line : List UInt8} {st t r : LineState} {ended : Bool}

theorem setFieldRange_frame (h : S.setFieldRange line st = some r) :
    r.cur = st.cur ∧ r.lastGood = st.lastGood := by
  unfold setFieldRange at h
  dsimp only at h
  split_ifs at h
  · cases h
    exact ⟨rfl, rfl⟩
  · obtain ⟨size, -, h⟩ := Option.bind_eq_some_iff.mp h
    obtain ⟨copied, -, h⟩ := Option.map_eq_some_iff.mp h
    rw [← h]
    exact ⟨rfl, rfl⟩

/-- What a round does to the places. -/
structure Advances (S : Settings) (line : List UInt8) (st t : LineState) : Prop where
  lt : st.cur < t.cur
  past : st.cur + (S.matcher.getMatch (line.drop st.cur)).2 ≤ t.cur
  le : t.cur ≤ line.length
  good : t.lastGood ≤ t.cur

theorem step_advances (hcur : st.cur < line.length) (hgood : st.lastGood ≤ st.cur)
    (h : S.step line st = some (t, ended)) : Advances S line st t := by
  have hle : ∀ p ≤ line.length, p + (S.matcher.getMatch (line.drop p)).2 ≤ line.length := fun p hp => by
    have hmatch := S.matcher.getMatch_le (line.drop p)
    rw [List.length_drop] at hmatch
    omega
  have hle' := hle st.cur hcur.le
  have hnext := hle _ hle'
  suffices hsuffices : st.cur < t.cur ∧ st.cur + (S.matcher.getMatch (line.drop st.cur)).2 ≤ t.cur ∧
      t.cur ≤ line.length ∧ t.lastGood ≤ t.cur from
    ⟨hsuffices.1, hsuffices.2.1, hsuffices.2.2.1, hsuffices.2.2.2⟩
  unfold step at h
  rcases S.matcher.getMatch_cases (line.drop st.cur) with heq | ⟨hne, hpos, -⟩
  · rw [heq] at h ⊢
    cases h
    exact ⟨Nat.lt_succ_self _, Nat.le_succ _, hcur, le_rfl⟩
  generalize S.matcher.getMatch (line.drop st.cur) = found at h hne hpos hle' hnext
  obtain ⟨found, matchLen⟩ := found
  have hlt : st.cur < st.cur + matchLen := Nat.lt_add_of_pos_right hpos
  have hgood' := hgood.trans hlt.le
  cases found with
  | none => exact absurd rfl hne
  | whitespace =>
    dsimp only at h
    split_ifs at h <;> cases h
    · exact ⟨hlt, le_rfl, hle', le_rfl⟩
    · exact ⟨hlt, le_rfl, hle', le_rfl⟩
    · exact ⟨hlt, le_rfl, hle', hgood'⟩
  | separator =>
    dsimp only at h
    split_ifs at h
    · obtain ⟨st', -, h⟩ := Option.map_eq_some_iff.mp h
      cases h
      exact ⟨hlt, le_rfl, hle', le_rfl⟩
    · cases h
      exact ⟨hlt, le_rfl, hle', le_rfl⟩
  | terminator =>
    dsimp only at h
    split_ifs at h
    · obtain ⟨st', hst, h⟩ := Option.map_eq_some_iff.mp h
      cases h
      refine ⟨hlt, le_rfl, hle', ?_⟩
      change st'.lastGood ≤ _
      rw [(setFieldRange_frame hst).2]
      exact hgood'
    · cases h
      exact ⟨hlt, le_rfl, hle', le_rfl⟩
  | quote i =>
    dsimp only at h hnext
    split_ifs at h <;> cases h
    · exact ⟨hlt, le_rfl, hle', le_rfl⟩
    · exact ⟨hlt, le_rfl, hle', le_rfl⟩
    · exact ⟨hlt.trans_le (Nat.le_add_right _ _), Nat.le_add_right _ _, hnext, le_rfl⟩
    · exact ⟨hlt, le_rfl, hle', hgood'⟩
    · exact ⟨hlt, le_rfl, hle', hgood'⟩
    · exact ⟨hlt, le_rfl, hle', le_rfl⟩
  | escape =>
    dsimp only at h hnext
    split_ifs at h <;> cases h
    · exact ⟨hlt, le_rfl, hle', le_rfl⟩
    · exact ⟨by dsimp only; omega, Nat.le_succ _, by dsimp only at hle' ⊢; omega, le_rfl⟩
    · exact ⟨hlt.trans_le (Nat.le_add_right _ _), Nat.le_add_right _ _, hnext, le_rfl⟩

/-- The rounds are enough for a line. -/
theorem splitLoop_fuel : ∀ (fuel : ℕ) (st : LineState), st.cur ≤ line.length → st.lastGood ≤ st.cur →
    line.length - st.cur < fuel → S.splitLoop line (fuel + 1) st = S.splitLoop line fuel st
  | 0, _, _, _, hfuel => absurd hfuel (Nat.not_lt_zero _)
  | fuel + 1, st, hcur, hgood, hfuel => by
    rw [splitLoop, splitLoop]
    by_cases hend : st.cur = line.length
    · rw [if_pos hend, if_pos hend]
    rw [if_neg hend, if_neg hend]
    have hlt := lt_of_le_of_ne hcur hend
    cases hstep : S.step line st with
    | none => rfl
    | some r =>
      obtain ⟨t, ended⟩ := r
      have ht := step_advances hlt hgood hstep
      cases ended with
      | true => rfl
      | false => exact splitLoop_fuel fuel t ht.le ht.good (by have := ht.lt; omega)

/-! ### A part of the content -/

/-- A line is not shorter than what has been matched. -/
theorem splitLoop_ge : ∀ (fuel : ℕ) (st : LineState) {L : ℕ} {final : LineState}, st.cur ≤ line.length →
    st.lastGood ≤ st.cur → S.splitLoop line fuel st = some (L, final) →
    L ≤ line.length ∧ st.cur + (S.matcher.getMatch (line.drop st.cur)).2 ≤ L
  | 0, _, _, _, _, _, h => by cases h
  | fuel + 1, st, L, final, hcur, hgood, h => by
    rw [splitLoop] at h
    by_cases hend : st.cur = line.length
    · rw [if_pos hend] at h
      obtain ⟨st', -, h⟩ := Option.map_eq_some_iff.mp h
      cases h
      rw [hend, List.drop_length]
      exact ⟨le_rfl, le_rfl⟩
    rw [if_neg hend] at h
    cases hstep : S.step line st with
    | none =>
      rw [hstep] at h
      cases h
    | some r =>
      obtain ⟨t, ended⟩ := r
      have ht := step_advances (lt_of_le_of_ne hcur hend) hgood hstep
      rw [hstep] at h
      cases ended with
      | true =>
        cases h
        exact ⟨ht.le, ht.past⟩
      | false =>
        obtain ⟨hle, hge⟩ := splitLoop_ge fuel t ht.le ht.good h
        exact ⟨hle, ht.past.trans ((Nat.le_add_right _ _).trans hge)⟩

section Part

variable {block more : List UInt8}

theorem getMatch_part {p : ℕ} (hp : p ≤ block.length)
    (h : more = [] ∨ p + (S.matcher.getMatch ((block ++ more).drop p)).2 ≤ block.length) :
    S.matcher.getMatch ((block ++ more).drop p) = S.matcher.getMatch (block.drop p) := by
  rcases h with rfl | h
  · rw [List.append_nil]
  rw [List.drop_append_of_le_length hp] at h ⊢
  refine (S.matcher.getMatch_append (block.drop p) more).resolve_right fun hlt => ?_
  rw [List.length_drop] at hlt
  omega

theorem setFieldRange_part (size : ℕ) (hgood : st.lastGood ≤ block.length)
    (h : S.setFieldRange (block ++ more) st = some r) :
    S.setFieldRange block (st.resize size) = none ∨
      ∃ size', S.setFieldRange block (st.resize size) = some (r.resize size') := by
  unfold setFieldRange at h ⊢
  dsimp only [LineState.resize] at h ⊢
  rw [between_append more hgood] at h
  by_cases hplain : st.quoteToStrip = .none ∧ st.lastEscape = false
  · rw [if_pos hplain] at h ⊢
    cases h
    exact Or.inr ⟨size, rfl⟩
  · rw [if_neg hplain] at h ⊢
    obtain ⟨size₁, -, h⟩ := Option.bind_eq_some_iff.mp h
    obtain ⟨copied, hcopied, h⟩ := Option.map_eq_some_iff.mp h
    rw [hcopied]
    cases Csv.CSVSplitter.makeRoom S.maxCsvSize size
        (st.internalOffset + (between block st.firstGood st.lastGood).length) with
    | none => exact Or.inl rfl
    | some size₂ =>
      rw [← h]
      exact Or.inr ⟨size₂, rfl⟩

/-- A round on a part of the content is the round on all of it, if it does not reach the end of the part
and no match goes on behind it. -/
theorem step_part (size : ℕ) (hcur : st.cur < block.length) (hgood : st.lastGood ≤ st.cur)
    (h : S.step (block ++ more) st = some (t, ended))
    (hpart : more = [] ∨ t.cur < block.length ∧
      (ended = false → t.cur + (S.matcher.getMatch ((block ++ more).drop t.cur)).2 ≤ block.length)) :
    S.step block (st.resize size) = none ∨
      ∃ size', S.step block (st.resize size) = some (t.resize size', ended) := by
  have hlen : block.length ≤ (block ++ more).length := by
    rw [List.length_append]
    exact Nat.le_add_right _ _
  have hpast := (step_advances (hcur.trans_le hlen) hgood h).past
  have hfound := getMatch_part hcur.le (hpart.imp id fun ht => hpast.trans ht.1.le)
  have hnextLe : st.cur + (S.matcher.getMatch (block.drop st.cur)).2 ≤ block.length := by
    have hle := S.matcher.getMatch_le (block.drop st.cur)
    rw [List.length_drop] at hle
    omega
  have hlast : ∀ p ≤ t.cur, p = (block ++ more).length ↔ p = block.length := fun p hp => by
    rcases hpart with rfl | ⟨ht, -⟩
    · rw [List.append_nil]
    · exact iff_of_false (hp.trans_lt (ht.trans_le hlen)).ne (hp.trans_lt ht).ne
  have hgoodLe := hgood.trans hcur.le
  unfold step at h ⊢
  dsimp only [LineState.resize]
  rw [hfound] at h hpast
  rcases S.matcher.getMatch_cases (block.drop st.cur) with heq | ⟨hne, hpos, -⟩
  · rw [heq] at h ⊢
    cases h
    exact Or.inr ⟨size, rfl⟩
  generalize S.matcher.getMatch (block.drop st.cur) = found at h hne hpos hpast hnextLe ⊢
  obtain ⟨found, matchLen⟩ := found
  cases found with
  | none => exact absurd rfl hne
  | whitespace =>
    dsimp only at h ⊢
    refine Or.inr ⟨size, ?_⟩
    split_ifs at h ⊢ <;> cases h <;> rfl
  | separator =>
    dsimp only at h ⊢
    split_ifs at h ⊢
    · obtain ⟨st', hst, h⟩ := Option.map_eq_some_iff.mp h
      cases h
      rcases setFieldRange_part size hgoodLe hst with hnone | ⟨size', hsome⟩
      · exact Or.inl (by rw [LineState.resize] at hnone; rw [hnone]; rfl)
      · exact Or.inr ⟨size', by rw [LineState.resize] at hsome; rw [hsome]; rfl⟩
    · cases h
      exact Or.inr ⟨size, rfl⟩
  | terminator =>
    dsimp only at h ⊢
    split_ifs at h ⊢
    · obtain ⟨st', hst, h⟩ := Option.map_eq_some_iff.mp h
      cases h
      rcases setFieldRange_part size hgoodLe hst with hnone | ⟨size', hsome⟩
      · exact Or.inl (by rw [LineState.resize] at hnone; rw [hnone]; rfl)
      · exact Or.inr ⟨size', by rw [LineState.resize] at hsome; rw [hsome]; rfl⟩
    · cases h
      exact Or.inr ⟨size, rfl⟩
  | quote i =>
    dsimp only at h hpast hnextLe ⊢
    refine Or.inr ⟨size, ?_⟩
    by_cases hopen : st.quote = .none
    · rw [if_pos hopen] at h ⊢
      cases h
      split_ifs <;> rfl
    rw [if_neg hopen] at h ⊢
    by_cases hsame : st.quote = .quote i
    · rw [if_pos hsame] at h ⊢
      by_cases hend : st.cur + matchLen = block.length
      · rw [if_neg (not_not.mpr ((hlast _ hpast).mpr hend))] at h
        rw [if_neg (not_not.mpr hend)]
        cases h
        rfl
      rw [if_pos (mt (hlast _ hpast).mp hend)] at h
      rw [if_pos hend]
      have hmatch : S.matcher.getMatch ((block ++ more).drop (st.cur + matchLen)) =
          S.matcher.getMatch (block.drop (st.cur + matchLen)) := by
        refine getMatch_part hnextLe (hpart.imp id fun ht => ?_)
        split_ifs at h
        · cases h
          exact ht.1.le
        · cases h
          exact ht.2 rfl
      rw [hmatch] at h
      split_ifs at h ⊢ <;> cases h <;> rfl
    · rw [if_neg hsame] at h ⊢
      cases h
      rfl
  | escape =>
    dsimp only at h hpast hnextLe ⊢
    refine Or.inr ⟨size, ?_⟩
    by_cases hend : st.cur + matchLen = block.length
    · rw [if_pos ((hlast _ hpast).mpr hend)] at h
      rw [if_pos hend]
      cases h
      rfl
    rw [if_neg (mt (hlast _ hpast).mp hend)] at h
    rw [if_neg hend]
    have hmatch : S.matcher.getMatch ((block ++ more).drop (st.cur + matchLen)) =
        S.matcher.getMatch (block.drop (st.cur + matchLen)) := by
      refine getMatch_part hnextLe (hpart.imp id fun ht => ?_)
      rcases S.matcher.getMatch_cases ((block ++ more).drop (st.cur + matchLen)) with heq | ⟨hne', -, -⟩
      · rw [heq]
        exact hnextLe
      · rw [if_neg hne'] at h
        cases h
        exact ht.1.le
    rw [hmatch] at h
    cases h
    rfl

/-- A line that ends in front of the end of the part is split on the part as on all of the content,
whatever the size of the buffer is, if the buffer can grow. -/
theorem splitLoop_part : ∀ (fuel fuel' : ℕ) (st : LineState) (size : ℕ) {L : ℕ} {final : LineState},
    st.cur ≤ block.length → st.lastGood ≤ st.cur →
    S.splitLoop (block ++ more) fuel st = some (L, final) → more = [] ∨ L < block.length →
    S.splitLoop block fuel' (st.resize size) = none ∨
      ∃ size', S.splitLoop block fuel' (st.resize size) = some (L, final.resize size')
  | 0, _, _, _, _, _, _, _, h, _ => by cases h
  | _, 0, _, _, _, _, _, _, _, _ => Or.inl rfl
  | fuel + 1, fuel' + 1, st, size, L, final, hcur, hgood, h, hL => by
    have hlen : block.length ≤ (block ++ more).length := by
      rw [List.length_append]
      exact Nat.le_add_right _ _
    have hge := (splitLoop_ge (fuel + 1) st (hcur.trans hlen) hgood h).2
    rw [splitLoop] at h ⊢
    by_cases hend : st.cur = block.length
    · have hnil : more = [] :=
        hL.resolve_right fun hlt => absurd ((Nat.le_add_right _ _).trans hge) (not_le.mpr (hend ▸ hlt))
      subst hnil
      rw [if_pos (by rw [hend, List.append_nil])] at h
      rw [if_pos (show (st.resize size).cur = block.length from hend)]
      obtain ⟨st', hst, h⟩ := Option.map_eq_some_iff.mp h
      cases h
      rcases setFieldRange_part size (hgood.trans hcur) hst with hnone | ⟨size', hsome⟩
      · rw [hnone]
        exact Or.inl rfl
      · rw [hsome, List.append_nil]
        exact Or.inr ⟨size', rfl⟩
    have hlt := lt_of_le_of_ne hcur hend
    rw [if_neg (hlt.trans_le hlen).ne] at h
    rw [if_neg (show (st.resize size).cur ≠ block.length from hend)]
    cases hstep : S.step (block ++ more) st with
    | none =>
      rw [hstep] at h
      cases h
    | some r =>
      obtain ⟨t, ended⟩ := r
      have ht := step_advances (hlt.trans_le hlen) hgood hstep
      rw [hstep] at h
      cases ended with
      | true =>
        cases h
        rcases step_part size hlt hgood hstep (hL.imp id fun hL => ⟨hL, fun hended => by cases hended⟩) with
          hnone | ⟨size', hsome⟩
        · rw [hnone]
          exact Or.inl rfl
        · rw [hsome]
          exact Or.inr ⟨size', rfl⟩
      | false =>
        have hrest := (splitLoop_ge fuel t ht.le ht.good h).2
        have hpart : more = [] ∨ t.cur < block.length ∧ (false = false →
            t.cur + (S.matcher.getMatch ((block ++ more).drop t.cur)).2 ≤ block.length) :=
          hL.imp id fun hL => ⟨(Nat.le_add_right _ _).trans_lt (hrest.trans_lt hL), fun _ => hrest.trans hL.le⟩
        have hle : t.cur ≤ block.length := by
          rcases hpart with rfl | ⟨hlt', -⟩
          · exact ht.le.trans_eq (by rw [List.append_nil])
          · exact hlt'.le
        rcases step_part size hlt hgood hstep hpart with hnone | ⟨size', hsome⟩
        · rw [hnone]
          exact Or.inl rfl
        · rw [hsome]
          exact splitLoop_part fuel fuel' t size' hle ht.good h hL

end Part

end Settings

end CsvStream
