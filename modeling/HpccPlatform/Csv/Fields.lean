import HpccPlatform.Csv.Splitter

/-!
# Fields of a line

What the splitter makes of one field that the stream has written, for a quote, a separator and a
terminator of one character each.  Inside quotes everything is kept, with the quotes doubled.
Without quotes the spaces and tabs at both ends are dropped.
-/

namespace Csv

/-- The three characters have different meanings, and none is a space or a tab. -/
structure Format (quote separator terminator : UInt8) : Prop where
  quote_ne_separator : quote ≠ separator
  quote_ne_terminator : quote ≠ terminator
  separator_ne_terminator : separator ≠ terminator
  quote_not_blank : quote ≠ 32 ∧ quote ≠ 9
  separator_not_blank : separator ≠ 32 ∧ separator ≠ 9
  terminator_not_blank : terminator ≠ 32 ∧ terminator ≠ 9

/-- What the splitter skips around a field. -/
def isBlank (c : UInt8) : Bool := c = 32 || c = 9

/-- What makes the stream put a field into quotes. -/
def isSpecial (quote separator terminator : UInt8) (c : UInt8) : Bool :=
  c = quote || c = separator || c = terminator

def double (quote : UInt8) (data : List UInt8) : List UInt8 :=
  data.flatMap fun c => if c = quote then [quote, quote] else [c]

/-- A field as it is written, after it has been trimmed. -/
def encode (quote separator terminator : UInt8) (data : List UInt8) : List UInt8 :=
  if data.any (isSpecial quote separator terminator) then
    quote :: (double quote data ++ [quote])
  else data

def dropBlanks (data : List UInt8) : List UInt8 := (data.dropWhile isBlank).rdropWhile isBlank

/-- A field as it is read. -/
def readBack (quote separator terminator : UInt8) (data : List UInt8) : List UInt8 :=
  if data.any (isSpecial quote separator terminator) then data else dropBlanks data

variable {q s t : UInt8}

/-! ### Lists -/

theorem rdropWhile_cons {α : Type*} (p : α → Bool) (c : α) (xs : List α) :
    (c :: xs).rdropWhile p =
      if xs.rdropWhile p = [] then if p c then [] else [c] else c :: xs.rdropWhile p := by
  unfold List.rdropWhile
  rw [List.reverse_cons, List.dropWhile_append]
  by_cases hempty : (List.dropWhile p xs.reverse) = []
  · rw [hempty]
    cases hc : p c <;> simp [hc]
  · have hne : (List.dropWhile p xs.reverse).isEmpty = false := by simpa using hempty
    rw [hne]
    simp [hempty]

theorem double_of_not_mem {data : List UInt8} (h : q ∉ data) : double q data = data := by
  unfold double
  induction data with
  | nil => rfl
  | cons c data ih =>
    rw [List.mem_cons, not_or] at h
    rw [List.flatMap_cons, ih h.2, if_neg (Ne.symm h.1), List.singleton_append]

theorem double_cons_self (data : List UInt8) : double q (q :: data) = q :: q :: double q data := by
  unfold double
  rw [List.flatMap_cons, if_pos rfl]
  rfl

theorem double_cons_of_ne {c : UInt8} (hc : c ≠ q) (data : List UInt8) :
    double q (c :: data) = c :: double q data := by
  unfold double
  rw [List.flatMap_cons, if_neg hc]
  rfl

/-! ### What is written -/

theorem isPrefixOf_singleton (c d : UInt8) (data : List UInt8) :
    [c].isPrefixOf (d :: data) = (c == d) := by
  rw [List.isPrefixOf_cons_cons, List.isPrefixOf_nil_left, Bool.and_true]

/-- A stream that writes the new format. -/
structure Writes (o : CSVOutputStream) (quote separator terminator : UInt8) : Prop where
  separator : o.separator = [separator]
  terminator : o.terminator = [terminator]
  quote : o.quote = [quote]
  newFormat : o.oldOutputFormat = false

theorem writes_init (q s t : UInt8) : Writes (CSVOutputStream.init [q] [s] [t] false) q s t :=
  ⟨rfl, rfl, rfl, rfl⟩

namespace Writes

variable {o : CSVOutputStream}

theorem needQuote_eq (h : Writes o q s t) (data : List UInt8) :
    o.needQuote data = data.any (isSpecial q s t) := by
  induction data with
  | nil => rfl
  | cons c data ih =>
    have hcomm : ∀ d : UInt8, (d == c) = decide (c = d) := fun d => by
      rw [Bool.beq_eq_decide_eq, decide_eq_decide]
      exact eq_comm
    rw [CSVOutputStream.needQuote, List.any_cons, ih, h.separator, h.terminator, h.quote,
      isPrefixOf_singleton, isPrefixOf_singleton, isPrefixOf_singleton, hcomm, hcomm, hcomm]
    unfold isSpecial
    cases decide (c = q) <;> cases decide (c = s) <;> cases decide (c = t) <;> rfl

theorem doubleQuotes_eq (h : Writes o q s t) (data : List UInt8) :
    o.doubleQuotes data = double q data := by
  induction data with
  | nil => rfl
  | cons c data ih =>
    rw [CSVOutputStream.doubleQuotes, ih, h.quote, isPrefixOf_singleton]
    by_cases hc : c = q
    · rw [hc, double_cons_self, if_pos (beq_self_eq_true q)]
      rfl
    · rw [double_cons_of_ne hc, if_neg (by simpa using Ne.symm hc)]

theorem writeString_text (h : Writes o q s t) (data : List UInt8) :
    (o.writeString data).text =
      o.text ++ o.lastPrefix ++ encode q s t (CSVOutputStream.trim data) := by
  unfold CSVOutputStream.writeString encode
  dsimp only
  rw [h.newFormat, if_neg Bool.false_ne_true, h.needQuote_eq, h.doubleQuotes_eq, h.quote]
  cases data with
  | nil => rfl
  | cons c data => rfl

theorem writeString (h : Writes o q s t) (data : List UInt8) :
    Writes (o.writeString data) q s t := ⟨h.separator, h.terminator, h.quote, h.newFormat⟩

theorem foldl_text (h : Writes o q s t) (hlead : o.lastPrefix = [s])
    (fields : List (List UInt8)) :
    (fields.foldl CSVOutputStream.writeString o).text =
      o.text ++ fields.flatMap fun f => s :: encode q s t (CSVOutputStream.trim f) := by
  induction fields generalizing o with
  | nil => exact (List.append_nil _).symm
  | cons f fields ih =>
    have hnext : (o.writeString f).lastPrefix = [s] := h.separator
    rw [List.foldl_cons, ih (h.writeString f) hnext, h.writeString_text, hlead,
      List.flatMap_cons]
    simp only [List.append_assoc, List.cons_append, List.nil_append]

theorem foldl_terminator (h : Writes o q s t) (fields : List (List UInt8)) :
    (fields.foldl CSVOutputStream.writeString o).terminator = [t] := by
  induction fields generalizing o with
  | nil => exact h.terminator
  | cons f fields ih => exact ih (h.writeString f)

/-- The line of one field and more. -/
theorem writeLine_cons (h : Writes o q s t) (f : List UInt8) (fields : List (List UInt8)) :
    o.writeLine (f :: fields) = encode q s t (CSVOutputStream.trim f) ++
      (fields.flatMap (fun f => s :: encode q s t (CSVOutputStream.trim f)) ++ [t]) := by
  have hbegin : Writes o.beginLine q s t := ⟨h.separator, h.terminator, h.quote, h.newFormat⟩
  have hlead : (o.beginLine.writeString f).lastPrefix = [s] := h.separator
  have hterminator := (hbegin.writeString f).foldl_terminator fields
  unfold CSVOutputStream.writeLine CSVOutputStream.endLine
  dsimp only
  rw [List.foldl_cons, hterminator, (hbegin.writeString f).foldl_text hlead,
    hbegin.writeString_text, List.append_assoc]
  rfl

end Writes

/-! ### What is matched -/

/-- A matcher for the three characters and the blanks. -/
structure Matches (m : StringMatcher) (q s t : UInt8) : Prop where
  quote : m q = .quote 0
  separator : m s = .separator
  terminator : m t = .terminator
  blank : ∀ c, isBlank c = true → m c = .whitespace
  plain : ∀ c, isBlank c = false → isSpecial q s t c = false → m c = .none

theorem queryAddEntry_new {m : StringMatcher} {c : UInt8} {action : MatchItem} (hm : m c = .none)
    (haction : action ≠ .none) :
    m.queryAddEntry c action = some (Function.update m c action) := by
  unfold StringMatcher.queryAddEntry
  rw [hm, if_neg haction.symm, if_neg (not_not.2 rfl)]

theorem init_spec (h : Format q s t) (maxColumns maxCsvSize : ℕ) :
    ∃ m, CSVSplitter.init maxColumns maxCsvSize q s t = some
        { maxColumns := maxColumns, maxCsvSize := maxCsvSize, matcher := m, sizeInternal := 0 } ∧
      Matches m q s t := by
  have hqs := h.quote_ne_separator
  have hqt := h.quote_ne_terminator
  have hst := h.separator_ne_terminator
  obtain ⟨hq, hq'⟩ := h.quote_not_blank
  obtain ⟨hs, hs'⟩ := h.separator_not_blank
  obtain ⟨ht, ht'⟩ := h.terminator_not_blank
  have hempty : ∀ c, StringMatcher.empty c = .none := fun _ => rfl
  have hsep : Function.update StringMatcher.empty q (.quote 0) s = .none := by
    rw [Function.update_of_ne hqs.symm, hempty]
  have hterm : Function.update (Function.update StringMatcher.empty q (.quote 0)) s .separator t =
      .none := by
    rw [Function.update_of_ne hst.symm, Function.update_of_ne hqt.symm, hempty]
  generalize hm : Function.update (Function.update (Function.update StringMatcher.empty q (.quote 0))
    s .separator) t .terminator = m
  have hspace : m 32 = .none := by
    rw [← hm, Function.update_of_ne ht.symm, Function.update_of_ne hs.symm,
      Function.update_of_ne hq.symm, hempty]
  have htab : Function.update m 32 .whitespace 9 = .none := by
    rw [Function.update_of_ne (by decide), ← hm, Function.update_of_ne ht'.symm,
      Function.update_of_ne hs'.symm, Function.update_of_ne hq'.symm, hempty]
  refine ⟨Function.update (Function.update m 32 .whitespace) 9 .whitespace, ?_, ?_⟩
  · unfold CSVSplitter.init StringMatcher.addWhitespace
    rw [queryAddEntry_new (hempty q) (by decide), Option.bind_some,
      queryAddEntry_new hsep (by decide), Option.bind_some, queryAddEntry_new hterm (by decide), hm,
      Option.map_some, queryAddEntry_new hspace (by decide)]
    dsimp only [Option.getD_some]
    rw [queryAddEntry_new htab (by decide), Option.getD_some]
  · refine ⟨?_, ?_, ?_, fun c hc => ?_, fun c hc hc' => ?_⟩
    · rw [Function.update_of_ne hq', Function.update_of_ne hq, ← hm, Function.update_of_ne hqt,
        Function.update_of_ne hqs, Function.update_self]
    · rw [Function.update_of_ne hs', Function.update_of_ne hs, ← hm, Function.update_of_ne hst,
        Function.update_self]
    · rw [Function.update_of_ne ht', Function.update_of_ne ht, ← hm, Function.update_self]
    · rw [isBlank, Bool.or_eq_true, decide_eq_true_eq, decide_eq_true_eq] at hc
      rcases hc with rfl | rfl
      · rw [Function.update_of_ne (by decide), Function.update_self]
      · rw [Function.update_self]
    · rw [isBlank, Bool.or_eq_false_iff, decide_eq_false_iff_not, decide_eq_false_iff_not] at hc
      rw [isSpecial, Bool.or_eq_false_iff, Bool.or_eq_false_iff, decide_eq_false_iff_not,
        decide_eq_false_iff_not, decide_eq_false_iff_not] at hc'
      rw [Function.update_of_ne hc.2, Function.update_of_ne hc.1, ← hm,
        Function.update_of_ne hc'.2, Function.update_of_ne hc'.1.2, Function.update_of_ne hc'.1.1,
        hempty]

/-! ### A field is read -/

/-- The splitter is at the start of a field. -/
structure AtField (st : LineState) : Prop where
  quote : st.quote = none
  quoteToStrip : st.quoteToStrip = none
  lastEscape : st.lastEscape = false
  firstGood : st.firstGood = st.cur
  lastGood : st.lastGood = st.cur

section Read

variable {S : CSVSplitter} {line text : List UInt8} {st : LineState} {c : UInt8}

attribute [local simp] CSVSplitter.splitFrom

/-! One step, by what the character stands for. -/

theorem splitFrom_none (hc : S.matcher c = .none) :
    S.splitFrom line (c :: text) st =
      S.splitFrom line text { st with cur := st.cur + 1, lastGood := st.cur + 1 } := by
  rw [CSVSplitter.splitFrom.eq_def]
  simp only [hc]

theorem splitFrom_whitespace (hc : S.matcher c = .whitespace) (hquote : st.quote = none) :
    S.splitFrom line (c :: text) st = S.splitFrom line text
      (if st.cur = st.firstGood then
        { st with cur := st.cur + 1, firstGood := st.cur + 1, lastGood := st.cur + 1 }
      else { st with cur := st.cur + 1 }) := by
  rw [CSVSplitter.splitFrom.eq_def]
  simp only [hc]
  rw [if_neg (not_not.2 hquote)]

/-- Inside quotes every character but the quote is kept. -/
theorem splitFrom_inside {i : ℕ} (hquote : st.quote = some i) (hc : S.matcher c ≠ .quote i)
    (hescape : S.matcher c ≠ .escape) :
    S.splitFrom line (c :: text) st =
      S.splitFrom line text { st with cur := st.cur + 1, lastGood := st.cur + 1 } := by
  have hopen : st.quote ≠ none := by
    rw [hquote]
    exact Option.some_ne_none i
  rw [CSVSplitter.splitFrom.eq_def]
  cases hm : S.matcher c with
  | none => simp only [hm]
  | whitespace =>
    simp only [hm]
    rw [if_pos hopen]
  | separator =>
    simp only [hm]
    rw [if_neg fun h => hopen h.2]
  | terminator =>
    simp only [hm]
    rw [if_neg hopen]
  | quote k =>
    have hk : st.quote ≠ some k := by
      rw [hquote]
      exact fun h => hc (hm.trans (congrArg MatchItem.quote (Option.some.inj h).symm))
    simp only [hm]
    rw [if_neg hopen, if_neg hk]
  | escape => exact absurd hm hescape

theorem splitFrom_separator (hc : S.matcher c = .separator) (hquote : st.quote = none)
    (hcolumn : st.curColumn < S.maxColumns) :
    S.splitFrom line (c :: text) st = (S.setFieldRange line st).bind fun st =>
      S.splitFrom line text
        { st with
          cur := st.cur + 1
          curColumn := st.curColumn + 1
          quoteToStrip := none
          lastEscape := false
          firstGood := st.cur + 1
          lastGood := st.cur + 1 } := by
  rw [CSVSplitter.splitFrom.eq_def]
  simp only [hc]
  rw [if_pos ⟨hcolumn, hquote⟩]

theorem splitFrom_terminator (hc : S.matcher c = .terminator) (hquote : st.quote = none) :
    S.splitFrom line (c :: text) st =
      (S.setFieldRange line st).map fun st => (st.cur + 1, S.fillColumns st) := by
  rw [CSVSplitter.splitFrom.eq_def]
  simp only [hc]
  rw [if_pos hquote]

theorem splitFrom_open {i : ℕ} (hc : S.matcher c = .quote i) (hst : AtField st) :
    S.splitFrom line (c :: text) st = S.splitFrom line text
      { st with
        cur := st.cur + 1
        quote := some i
        firstGood := st.cur + 1
        lastGood := st.cur + 1 } := by
  rw [CSVSplitter.splitFrom.eq_def]
  simp only [hc]
  rw [if_pos hst.quote, if_pos hst.firstGood.symm]

theorem splitFrom_twoQuotes {i : ℕ} (hquote : st.quote = some i) (hc : S.matcher c = .quote i) :
    S.splitFrom line (c :: c :: text) st = S.splitFrom line text
      { st with cur := st.cur + 2, quoteToStrip := some i, lastGood := st.cur + 2 } := by
  have hopen : st.quote ≠ none := by
    rw [hquote]
    exact Option.some_ne_none i
  rw [CSVSplitter.splitFrom.eq_def]
  simp only [hc]
  rw [if_neg hopen, if_pos hquote, if_pos trivial]

theorem splitFrom_close {i : ℕ} {d : UInt8} (hquote : st.quote = some i)
    (hc : S.matcher c = .quote i) (hd : S.matcher d ≠ .quote i) :
    S.splitFrom line (c :: d :: text) st =
      S.splitFrom line (d :: text) { st with cur := st.cur + 1, quote := none } := by
  have hopen : st.quote ≠ none := by
    rw [hquote]
    exact Option.some_ne_none i
  rw [CSVSplitter.splitFrom.eq_def]
  simp only [hc]
  rw [if_neg hopen, if_pos hquote, if_neg hd]

/-! A whole field. -/

theorem splitFrom_blanks (h : Matches S.matcher q s t) {blanks : List UInt8}
    (hblanks : ∀ c ∈ blanks, isBlank c = true) (hst : AtField st) :
    S.splitFrom line (blanks ++ text) st = S.splitFrom line text
      { st with
        cur := st.cur + blanks.length
        firstGood := st.cur + blanks.length
        lastGood := st.cur + blanks.length } := by
  induction blanks generalizing st with
  | nil =>
    obtain ⟨_, _, _, hfirst, hlast⟩ := hst
    simp only [List.nil_append, List.length_nil, Nat.add_zero]
    cases st
    simp_all
  | cons c blanks ih =>
    have hrest : ∀ d ∈ blanks, isBlank d = true := fun d hd =>
      hblanks d (List.mem_cons_of_mem c hd)
    have hnext : AtField { st with
        cur := st.cur + 1
        firstGood := st.cur + 1
        lastGood := st.cur + 1 } :=
      ⟨hst.quote, hst.quoteToStrip, hst.lastEscape, rfl, rfl⟩
    rw [List.cons_append, splitFrom_whitespace (h.blank c (hblanks c List.mem_cons_self)) hst.quote,
      if_pos hst.firstGood.symm, ih hrest hnext]
    dsimp only
    rw [List.length_cons, Nat.add_assoc, Nat.add_comm 1]

/-- Behind the first good character, blanks are kept only if more follows. -/
theorem splitFrom_plain (h : Matches S.matcher q s t) {data : List UInt8}
    (hdata : ∀ c ∈ data, isSpecial q s t c = false) {st : LineState} (hquote : st.quote = none)
    (hlt : st.firstGood < st.cur) :
    S.splitFrom line (data ++ text) st = S.splitFrom line text
      { st with
        cur := st.cur + data.length
        lastGood := if data.rdropWhile isBlank = [] then st.lastGood
          else st.cur + (data.rdropWhile isBlank).length } := by
  induction data generalizing st with
  | nil => rfl
  | cons c data ih =>
    have hrest : ∀ d ∈ data, isSpecial q s t d = false := fun d hd =>
      hdata d (List.mem_cons_of_mem c hd)
    have hlength : st.cur + 1 + data.length = st.cur + (c :: data).length := by
      rw [List.length_cons, Nat.add_assoc, Nat.add_comm 1]
    rw [List.cons_append, rdropWhile_cons]
    cases hblank : isBlank c with
    | true =>
      rw [splitFrom_whitespace (h.blank c hblank) hquote, if_neg hlt.ne',
        @ih hrest { st with cur := st.cur + 1 } hquote (Nat.lt_succ_of_lt hlt)]
      dsimp only
      rw [hlength]
      by_cases hempty : data.rdropWhile isBlank = []
      · simp [hempty]
      · simp [hempty, Nat.add_assoc, Nat.add_comm 1]
    | false =>
      rw [splitFrom_none (h.plain c hblank (hdata c List.mem_cons_self)),
        @ih hrest { st with cur := st.cur + 1, lastGood := st.cur + 1 } hquote
          (Nat.lt_succ_of_lt hlt)]
      dsimp only
      rw [hlength]
      by_cases hempty : data.rdropWhile isBlank = []
      · simp [hempty]
      · simp [hempty, Nat.add_assoc, Nat.add_comm 1]

/-- A field without quotes. -/
theorem splitFrom_unquoted (h : Matches S.matcher q s t) {data : List UInt8}
    (hdata : ∀ c ∈ data, isSpecial q s t c = false) (hst : AtField st) :
    S.splitFrom line (data ++ text) st = S.splitFrom line text
      { st with
        cur := st.cur + data.length
        firstGood := st.cur + (data.takeWhile isBlank).length
        lastGood := st.cur + (data.takeWhile isBlank).length + (dropBlanks data).length } := by
  have hsplit := List.takeWhile_append_dropWhile (p := isBlank) (l := data)
  have hblanks : ∀ c ∈ data.takeWhile isBlank, isBlank c = true := fun c hc =>
    List.mem_takeWhile_imp hc
  have hlength : (data.takeWhile isBlank).length + (data.dropWhile isBlank).length = data.length :=
    by rw [← List.length_append, hsplit]
  have hgood : ∀ c ∈ data.dropWhile isBlank, isSpecial q s t c = false := fun c hc =>
    hdata c ((List.dropWhile_suffix isBlank).subset hc)
  conv_lhs => rw [← hsplit, List.append_assoc, splitFrom_blanks h hblanks hst]
  unfold dropBlanks
  rw [← hlength]
  cases hrest : data.dropWhile isBlank with
  | nil => simp
  | cons c rest =>
    rw [hrest] at hgood
    have hc : isBlank c = false := by
      have := List.head?_dropWhile_not isBlank data
      rw [hrest] at this
      simpa using this
    have hgood' : ∀ d ∈ rest, isSpecial q s t d = false := fun d hd =>
      hgood d (List.mem_cons_of_mem c hd)
    rw [List.cons_append, splitFrom_none (h.plain c hc (hgood c List.mem_cons_self)), rdropWhile_cons]
    refine (splitFrom_plain h hgood' ?_ ?_).trans ?_
    · exact hst.quote
    · exact Nat.lt_succ_self _
    dsimp only
    by_cases hempty : rest.rdropWhile isBlank = []
    · simp [hempty, hc, Nat.add_assoc, Nat.add_comm 1]
    · simp [hempty, Nat.add_assoc, Nat.add_comm 1]

theorem Matches.not_quote {m : StringMatcher} (h : Matches m q s t) {c : UInt8} (hne : c ≠ q)
    (i : ℕ) : m c ≠ .quote i := by
  intro hc
  cases hblank : isBlank c with
  | true => exact absurd ((h.blank c hblank).symm.trans hc) MatchItem.noConfusion
  | false =>
    by_cases hs : c = s
    · exact absurd (h.separator.symm.trans (hs ▸ hc)) MatchItem.noConfusion
    by_cases ht : c = t
    · exact absurd (h.terminator.symm.trans (ht ▸ hc)) MatchItem.noConfusion
    have hspecial : isSpecial q s t c = false := by
      unfold isSpecial
      rw [decide_eq_false hne, decide_eq_false hs, decide_eq_false ht]
      rfl
    exact absurd ((h.plain c hblank hspecial).symm.trans hc) MatchItem.noConfusion

theorem Matches.not_escape {m : StringMatcher} (h : Matches m q s t) (c : UInt8) :
    m c ≠ .escape := by
  intro hc
  cases hblank : isBlank c with
  | true => exact absurd ((h.blank c hblank).symm.trans hc) (by decide)
  | false =>
    cases hspecial : isSpecial q s t c with
    | false => exact absurd ((h.plain c hblank hspecial).symm.trans hc) (by decide)
    | true =>
      rw [isSpecial, Bool.or_eq_true, Bool.or_eq_true, decide_eq_true_eq, decide_eq_true_eq,
        decide_eq_true_eq] at hspecial
      rcases hspecial with (rfl | rfl) | rfl
      · exact absurd (h.quote.symm.trans hc) (by decide)
      · exact absurd (h.separator.symm.trans hc) (by decide)
      · exact absurd (h.terminator.symm.trans hc) (by decide)

/-- Inside quotes, up to the closing quote. -/
theorem splitFrom_body (h : Matches S.matcher q s t) {data : List UInt8} {d : UInt8} (hd : d ≠ q)
    (hquote : st.quote = some 0) (hlast : st.lastGood = st.cur) :
    S.splitFrom line (double q data ++ q :: d :: text) st = S.splitFrom line (d :: text)
      { st with
        cur := st.cur + (double q data).length + 1
        quote := none
        quoteToStrip := if q ∈ data then some 0 else st.quoteToStrip
        lastGood := st.cur + (double q data).length } := by
  induction data generalizing st with
  | nil =>
    have hne : S.matcher d ≠ .quote 0 := h.not_quote hd 0
    have hnil : double q [] = [] := rfl
    rw [hnil, List.nil_append, splitFrom_close hquote h.quote hne]
    cases st
    simp_all
  | cons c data ih =>
    by_cases hc : c = q
    · have hlength : st.cur + 2 + (double q data).length = st.cur + (double q (q :: data)).length := by
        rw [double_cons_self, List.length_cons, List.length_cons]
        omega
      rw [hc, double_cons_self, List.cons_append, List.cons_append,
        splitFrom_twoQuotes hquote h.quote,
        @ih { st with cur := st.cur + 2, quoteToStrip := some 0, lastGood := st.cur + 2 } hquote rfl,
        if_pos List.mem_cons_self, ite_self]
      dsimp only
      rw [hlength, double_cons_self]
    · have hne : S.matcher c ≠ .quote 0 := h.not_quote hc 0
      have hmem : q ∈ c :: data ↔ q ∈ data := by
        rw [List.mem_cons, or_iff_right (Ne.symm hc)]
      rw [double_cons_of_ne hc, List.cons_append, splitFrom_inside hquote hne (h.not_escape c),
        @ih { st with cur := st.cur + 1, lastGood := st.cur + 1 } hquote rfl]
      simp only [hmem, List.length_cons, Nat.add_assoc, Nat.add_comm 1]

/-- A field in quotes. -/
theorem splitFrom_quoted (h : Matches S.matcher q s t) {data : List UInt8} {d : UInt8} (hd : d ≠ q)
    (hst : AtField st) :
    S.splitFrom line (q :: (double q data ++ [q]) ++ d :: text) st = S.splitFrom line (d :: text)
      { st with
        cur := st.cur + (q :: (double q data ++ [q])).length
        quoteToStrip := if q ∈ data then some 0 else none
        firstGood := st.cur + 1
        lastGood := st.cur + 1 + (double q data).length } := by
  rw [List.cons_append, List.append_assoc, splitFrom_open h.quote hst, List.singleton_append]
  refine (splitFrom_body h hd ?_ ?_).trans ?_
  · rfl
  · rfl
  dsimp only
  have hlength : st.cur + 1 + (double q data).length + 1 =
      st.cur + (q :: (double q data ++ [q])).length := by
    rw [List.length_cons, List.length_append, List.length_singleton]
    omega
  rw [hlength, hst.quoteToStrip, ← hst.quote]

end Read

end Csv
