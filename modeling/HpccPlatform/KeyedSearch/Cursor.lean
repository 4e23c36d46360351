import HpccPlatform.KeyedSearch.Filter

/-!
# The cursor of a keyed search

`RowCursor` and `KeySearcher` of `rtl/eclrtl/rtlnewkey.hpp`.  The cursor remembers how many of the
leading fields of the current row are matched, and what comes next for the field behind them: a
range of its filter, or any greater value.  From that `compareNext` tells whether a row is still
before the place at which the search has to continue.

The rows are a list, and the position in the source is an index.  The source has to find the first
row for which `compareNext` is not negative.  An index that is out of range, or an assertion that
fails, is the result `none`.
-/

namespace HpccPlatform

universe u

variable {α : Type u} {n : ℕ} {types : Fin n → RtlTypeInfo α}

/-- `class RowCursor`, without the key filters, which never change. -/
structure RowCursor (n : ℕ) (α : Type u) where
  currentRow : Option (Fin n → α)
  numMatched : ℕ
  /-- `none` is the value `(unsigned)-1` -/
  nextUnmatchedRange : Option ℕ
  matchedRanges : List ℕ
  eos : Bool

namespace RowCursor

/-- `RowCursor(record, filter)`, for the key filters of the filter. -/
def create (filters : List (FieldFilter types)) : RowCursor n α where
  currentRow := none
  numMatched := 0
  nextUnmatchedRange := some 0
  matchedRanges := filters.map fun _ => 0
  eos := false

/-- `selectFirst()` -/
def selectFirst (cursor : RowCursor n α) : RowCursor n α :=
  { cursor with eos := false, numMatched := 0, nextUnmatchedRange := some 0 }

/-! ## Comparing a row with the place to continue at -/

/-- The first loop of `compareNext`: the first `count` fields are compared with the current row. -/
def compareMatched (candidate : Fin n → α) (current : Option (Fin n → α)) :
    List (FieldFilter types) → ℕ → Option ℤ
  | _, 0 => some 0
  | [], _ + 1 => none
  | filter :: filters, count + 1 =>
    current.bind fun row =>
      let c := filter.compareRow candidate row
      if c ≠ 0 then some c else compareMatched candidate current filters count

/-- The second loop of `compareNext`: the remaining fields are compared with the lowest value of a
range, the first of them with the range that comes next. -/
def compareLowests (candidate : Fin n → α) : List (FieldFilter types) → ℕ → Option ℤ
  | [], _ => some 0
  | filter :: filters, nextRange =>
    if nextRange < filter.values.numRanges then
      (filter.values.compareLowest (candidate filter.field) nextRange).bind fun c =>
        if c ≠ 0 then some c else compareLowests candidate filters 0
    else none

/-- `compareNext` when the place is above every row that starts like the current one. -/
def compareGreater (candidate : Fin n → α) (current : Option (Fin n → α))
    (filters : List (FieldFilter types)) (numMatched : ℕ) : Option ℤ :=
  (compareMatched candidate current filters (numMatched + 1)).map fun c => if c ≠ 0 then c else -1

/-- `compareNext` when the place is the start of a range of the field behind the matched ones. -/
def compareRange (candidate : Fin n → α) (current : Option (Fin n → α))
    (filters : List (FieldFilter types)) (numMatched nextRange : ℕ) : Option ℤ :=
  (compareMatched candidate current filters numMatched).bind fun c =>
    if c ≠ 0 then some c else compareLowests candidate (filters.drop numMatched) nextRange

/-- `compareNext(candidate)` -/
def compareNext (filters : List (FieldFilter types)) (cursor : RowCursor n α)
    (candidate : Fin n → α) : Option ℤ :=
  match cursor.nextUnmatchedRange with
  | none =>
    if cursor.numMatched = filters.length then none
    else compareGreater candidate cursor.currentRow filters cursor.numMatched
  | some nextRange =>
    compareRange candidate cursor.currentRow filters cursor.numMatched nextRange

/-! ## Moving on to a row -/

/-- `findNextRange(field)`: the filter of this field has no more ranges. -/
def findNextRange (filters : List (FieldFilter types)) (row : Fin n → α) :
    ℕ → RowCursor n α → Option (RowCursor n α)
  | 0, cursor => some { cursor with eos := true }
  | field + 1, cursor =>
    match filters[field]?, cursor.matchedRanges[field]? with
    | some filter, some matchRange =>
      (filter.values.compareHighest (row filter.field) matchRange).bind fun c =>
        if c < 0 then some { cursor with numMatched := field, nextUnmatchedRange := none }
        else if matchRange + 1 < filter.values.numRanges then
          -- `numMatched = field-1` on unsigned integers of 32 bits
          some { cursor with
            nextUnmatchedRange := some (matchRange + 1)
            numMatched := (field + (2 ^ 32 - 1)) % 2 ^ 32 }
        else findNextRange filters row field cursor
    | _, _ => none

/-- The loop of `setRowForward` over the filters from number `field` on.  Returns whether all the
filters match. -/
def matchFields (filters : List (FieldFilter types)) (row : Fin n → α) :
    List (FieldFilter types) → ℕ → RowCursor n α → Option (Bool × RowCursor n α)
  | [], field, cursor => some (true, { cursor with numMatched := field })
  | filter :: rest, field, cursor =>
    let found := filter.values.findForwardMatchRange (row filter.field)
    if found.1 then
      matchFields filters row rest (field + 1)
        { cursor with matchedRanges := cursor.matchedRanges.set field found.2 }
    else if filter.values.numRanges ≤ found.2 then
      (findNextRange filters row field cursor).map fun cursor => (false, cursor)
    else
      some (false, { cursor with nextUnmatchedRange := some found.2, numMatched := field })

/-- `setRowForward(row)` -/
def setRowForward (filters : List (FieldFilter types)) (cursor : RowCursor n α)
    (row : Fin n → α) : Option (Bool × RowCursor n α) :=
  matchFields filters row filters 0 { cursor with currentRow := some row }

end RowCursor

/-! ## The search -/

/-- `class KeySearcher`, with the position of its source of rows. -/
structure KeySearcher (n : ℕ) (α : Type u) where
  cursor : RowCursor n α
  cur : ℕ
  firstPending : Bool

namespace KeySearcher

/-- `KeySearcher(record, filter, rows)` -/
def create (filters : List (FieldFilter types)) : KeySearcher n α where
  cursor := .create filters
  cur := 0
  firstPending := true

/-- `findNext(cursor)`: the index of the first row with `compareNext >= 0`, if there is one.  The
indexes that `compareNext` uses have to be in range for every row. -/
def findNext (filters : List (FieldFilter types)) (rows : List (Fin n → α))
    (cursor : RowCursor n α) : Option (Option ℕ) :=
  (rows.mapM (cursor.compareNext filters)).map fun cs => cs.findIdx? (0 ≤ ·)

/-- `resolveValidRow()` -/
def resolveValidRow (filters : List (FieldFilter types)) (rows : List (Fin n → α)) :
    ℕ → KeySearcher n α → Option (Bool × KeySearcher n α)
  | 0, _ => none
  | fuel + 1, searcher =>
    if searcher.cursor.eos then some (false, searcher)
    else
      (findNext filters rows searcher.cursor).bind fun match? =>
        match match? with
        | none => some (false, searcher)
        | some cur =>
          (rows[cur]?).bind fun row =>
            (searcher.cursor.setRowForward filters row).bind fun r =>
              if r.1 then some (true, { searcher with cursor := r.2, cur := cur })
              else resolveValidRow filters rows fuel { searcher with cursor := r.2, cur := cur }

/-- `next()` -/
def next (filters : List (FieldFilter types)) (rows : List (Fin n → α)) (fuel : ℕ)
    (searcher : KeySearcher n α) : Option (Bool × KeySearcher n α) :=
  if searcher.firstPending then
    resolveValidRow filters rows fuel
      { searcher with cursor := searcher.cursor.selectFirst, firstPending := false }
  else
    match rows[searcher.cur + 1]? with
    | none => some (false, { searcher with cur := searcher.cur + 1 })
    | some row =>
      (searcher.cursor.setRowForward filters row).bind fun r =>
        if r.1 then some (true, { searcher with cursor := r.2, cur := searcher.cur + 1 })
        else
          resolveValidRow filters rows fuel
            { searcher with cursor := r.2, cur := searcher.cur + 1 }

/-- `while (searcher.next())`, collecting `searcher.queryRow()`. -/
def collect (filters : List (FieldFilter types)) (rows : List (Fin n → α)) :
    ℕ → KeySearcher n α → Option (List (Fin n → α))
  | 0, _ => none
  | fuel + 1, searcher =>
    (next filters rows (fuel + 1) searcher).bind fun r =>
      if r.1 then
        r.2.cursor.currentRow.bind fun row => (collect filters rows fuel r.2).map (row :: ·)
      else some []

end KeySearcher

/-- All the rows that a keyed search for the filter finds. -/
def keyedSearch (filter : List (FieldFilter types)) (rows : List (Fin n → α)) (fuel : ℕ) :
    Option (List (Fin n → α)) :=
  let filters := RowFilter.extractKeyFilter filter
  KeySearcher.collect filters rows fuel (.create filters)

end HpccPlatform
