import Mathlib.Algebra.Group.Nat.Defs
import Mathlib.Data.List.DropRight

/-!
# CSV lines

`CSVOutputStream` writes the fields of a line and `CSVSplitter` reads them back, both from
`thorhelper/csvsplitter.cpp`.  The splitter goes through a line with the items that its matcher
finds, for texts of one character each, and notes for each column where it starts and how long it
is.  A column whose doubled quotes are to be taken out is copied to a buffer, which may grow.
-/

namespace Csv

/-! ### `CSVOutputStream` -/

structure CSVOutputStream where
  separator : List UInt8
  terminator : List UInt8
  quote : List UInt8
  oldOutputFormat : Bool
  lastPrefix : List UInt8
  text : List UInt8

namespace CSVOutputStream

def init (quote separator terminator : List UInt8) (oldOutputFormat : Bool) : CSVOutputStream where
  separator := separator
  terminator := terminator
  quote := quote
  oldOutputFormat := oldOutputFormat || quote.isEmpty
  lastPrefix := []
  text := []

def beginLine (o : CSVOutputStream) : CSVOutputStream := { o with text := [], lastPrefix := [] }

def endLine (o : CSVOutputStream) : CSVOutputStream := { o with text := o.text ++ o.terminator }

/-- Only spaces are trimmed. -/
def trim (data : List UInt8) : List UInt8 := (data.dropWhile (· = 32)).rdropWhile (· = 32)

/-- Whether a separator, a terminator or a quote is found. -/
def needQuote (o : CSVOutputStream) : List UInt8 → Bool
  | [] => false
  | c :: data =>
    (!o.separator.isEmpty && o.separator.isPrefixOf (c :: data)) ||
      (!o.terminator.isEmpty && o.terminator.isPrefixOf (c :: data)) ||
      o.quote.isPrefixOf (c :: data) || needQuote o data

/-- The data with a quote before each quote. -/
def doubleQuotes (o : CSVOutputStream) : List UInt8 → List UInt8
  | [] => []
  | c :: data =>
    if o.quote.isPrefixOf (c :: data) then o.quote ++ c :: doubleQuotes o data
    else c :: doubleQuotes o data

def writeString (o : CSVOutputStream) (data : List UInt8) : CSVOutputStream :=
  let field :=
    if o.oldOutputFormat then o.quote ++ data ++ o.quote
    else if data.isEmpty then []
    else
      let data := trim data
      if o.needQuote data then o.quote ++ o.doubleQuotes data ++ o.quote else data
  { o with text := o.text ++ o.lastPrefix ++ field, lastPrefix := o.separator }

/-- `beginLine`, a `writeString` for each field, and `endLine`. -/
def writeLine (o : CSVOutputStream) (fields : List (List UInt8)) : List UInt8 :=
  (fields.foldl writeString o.beginLine).endLine.text

end CSVOutputStream

/-! ### `StringMatcher` -/

/-- What a text stands for.  Quotes are numbered. -/
inductive MatchItem
  | none
  | separator
  | terminator
  | whitespace
  | quote (index : ℕ)
  | escape
  deriving DecidableEq

/-- The first level of the table: with texts of one character there is no other. -/
abbrev StringMatcher := UInt8 → MatchItem

namespace StringMatcher

def empty : StringMatcher := fun _ => .none

def queryAddEntry (m : StringMatcher) (c : UInt8) (action : MatchItem) : Option StringMatcher :=
  if m c = action then some m
  else if m c ≠ .none then none
  else some (Function.update m c action)

/-- Spaces and tabs, if they have no other meaning. -/
def addWhitespace (m : StringMatcher) : StringMatcher :=
  let m := (m.queryAddEntry 32 .whitespace).getD m
  (m.queryAddEntry 9 .whitespace).getD m

end StringMatcher

/-! ### `CSVSplitter` -/

structure CSVSplitter where
  maxColumns : ℕ
  maxCsvSize : ℕ
  matcher : StringMatcher
  sizeInternal : ℕ

/-- Where the text of a column is: in the line or in the buffer. -/
inductive Column
  | line (start length : ℕ)
  | buffer (start length : ℕ)

/-- The variables of `splitLine`, with the columns that are set and the buffer as far as it is
used. -/
structure LineState where
  curColumn : ℕ
  quote : Option ℕ
  quoteToStrip : Option ℕ
  cur : ℕ
  firstGood : ℕ
  lastGood : ℕ
  lastEscape : Bool
  sizeInternal : ℕ
  internalBuffer : List UInt8
  columns : List Column

namespace CSVSplitter

/-- A splitter for one quote, one separator and one terminator. An entry may not be added twice. -/
def init (maxColumns maxCsvSize : ℕ) (quote separator terminator : UInt8) : Option CSVSplitter :=
  (StringMatcher.empty.queryAddEntry quote (.quote 0)).bind fun m =>
    (m.queryAddEntry separator .separator).bind fun m =>
      (m.queryAddEntry terminator .terminator).map fun m =>
        { maxColumns := maxColumns
          maxCsvSize := maxCsvSize
          matcher := m.addWhitespace
          sizeInternal := 0 }

/-- `while (sizeRequired > sizeInternal) sizeInternal *= 2`.  After 32 steps of 32 bits nothing is
left of the size. -/
def doubleSize : ℕ → ℕ → ℕ → Option ℕ
  | 0, _, _ => none
  | n + 1, sizeInternal, sizeRequired =>
    if sizeInternal < sizeRequired then doubleSize n (sizeInternal * 2 % 2 ^ 32) sizeRequired
    else some sizeInternal

/-- The size of the buffer after it has been enlarged, unless the line is too long. -/
def makeRoom (maxCsvSize sizeInternal sizeRequired : ℕ) : Option ℕ :=
  if sizeRequired ≤ sizeInternal then some sizeInternal
  else
    let sizeInternal := if sizeInternal = 0 then maxCsvSize else sizeInternal
    if sizeRequired ≤ sizeInternal then some sizeInternal
    else if sizeInternal = 0 then doubleSize 32 2048 sizeRequired
    else if 0x200000 < sizeRequired then none
    else doubleSize 32 sizeInternal sizeRequired

/-- What is copied of a field: not the escapes, and one of two quotes. -/
def copyField (m : StringMatcher) (quoteToStrip : Option ℕ) : List UInt8 → List UInt8
  | [] => []
  | [c] => [c]
  | c :: d :: text =>
    match m c with
    | .escape => d :: copyField m quoteToStrip text
    | .quote i =>
      if quoteToStrip = some i ∧ m d = .quote i then c :: copyField m quoteToStrip text
      else c :: copyField m quoteToStrip (d :: text)
    | _ => c :: copyField m quoteToStrip (d :: text)

def setFieldRange (s : CSVSplitter) (line : List UInt8) (st : LineState) : Option LineState :=
  let sizeOriginal := st.lastGood - st.firstGood
  if st.quoteToStrip = none ∧ st.lastEscape = false then
    some { st with columns := st.columns ++ [.line st.firstGood sizeOriginal] }
  else
    (makeRoom s.maxCsvSize st.sizeInternal (st.internalBuffer.length + sizeOriginal)).map fun size =>
      let copied := copyField s.matcher st.quoteToStrip ((line.drop st.firstGood).take sizeOriginal)
      { st with
        sizeInternal := size
        internalBuffer := st.internalBuffer ++ copied
        columns := st.columns ++ [.buffer st.internalBuffer.length copied.length] }

/-- The rest of the columns is empty. -/
def fillColumns (s : CSVSplitter) (st : LineState) : LineState :=
  { st with
    columns := st.columns ++ List.replicate (s.maxColumns - (st.curColumn + 1)) (.line st.cur 0) }

/-- The loop of `splitLine`, for the text from `cur` on.  The result is the length of the line. -/
def splitFrom (s : CSVSplitter) (line : List UInt8) : List UInt8 → LineState → Option (ℕ × LineState)
  | [], st => (s.setFieldRange line st).map fun st => (st.cur, s.fillColumns st)
  | c :: text, st =>
    match s.matcher c with
    | .none => splitFrom s line text { st with cur := st.cur + 1, lastGood := st.cur + 1 }
    | .whitespace =>
      splitFrom s line text
        (if st.quote ≠ none then { st with cur := st.cur + 1, lastGood := st.cur + 1 }
        else if st.cur = st.firstGood then
          { st with cur := st.cur + 1, firstGood := st.cur + 1, lastGood := st.cur + 1 }
        else { st with cur := st.cur + 1 })
    | .separator =>
      if st.curColumn < s.maxColumns ∧ st.quote = none then
        (s.setFieldRange line st).bind fun st =>
          splitFrom s line text
            { st with
              cur := st.cur + 1
              curColumn := st.curColumn + 1
              quoteToStrip := none
              lastEscape := false
              firstGood := st.cur + 1
              lastGood := st.cur + 1 }
      else splitFrom s line text { st with cur := st.cur + 1, lastGood := st.cur + 1 }
    | .terminator =>
      if st.quote = none then
        (s.setFieldRange line st).map fun st => (st.cur + 1, s.fillColumns st)
      else splitFrom s line text { st with cur := st.cur + 1, lastGood := st.cur + 1 }
    | .quote i =>
      if st.quote = none then
        splitFrom s line text
          (if st.cur = st.firstGood then
            { st with
              cur := st.cur + 1
              quote := some i
              firstGood := st.cur + 1
              lastGood := st.cur + 1 }
          else { st with cur := st.cur + 1, lastGood := st.cur + 1 })
      else if st.quote = some i then
        match text with
        | [] => splitFrom s line [] { st with cur := st.cur + 1, quote := none }
        | d :: text =>
          if s.matcher d = .quote i then
            splitFrom s line text
              { st with cur := st.cur + 2, quoteToStrip := some i, lastGood := st.cur + 2 }
          else splitFrom s line (d :: text) { st with cur := st.cur + 1, quote := none }
      else splitFrom s line text { st with cur := st.cur + 1, lastGood := st.cur + 1 }
    | .escape =>
      match text with
      | [] =>
        splitFrom s line [] { st with cur := st.cur + 1, lastEscape := true, lastGood := st.cur + 1 }
      | _ :: text =>
        splitFrom s line text
          { st with cur := st.cur + 2, lastEscape := true, lastGood := st.cur + 2 }

def start (s : CSVSplitter) : LineState where
  curColumn := 0
  quote := none
  quoteToStrip := none
  cur := 0
  firstGood := 0
  lastGood := 0
  lastEscape := false
  sizeInternal := s.sizeInternal
  internalBuffer := []
  columns := []

/-- The length of the line and its columns, with the splitter for the next line. There is no result
if an exception is thrown. -/
def splitLine (s : CSVSplitter) (line : List UInt8) : Option (ℕ × LineState) :=
  s.splitFrom line line s.start

end CSVSplitter

/-- The text of a column. -/
def Column.read (line internalBuffer : List UInt8) : Column → List UInt8
  | .line start length => (line.drop start).take length
  | .buffer start length => (internalBuffer.drop start).take length

end Csv
