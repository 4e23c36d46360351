import HpccPlatform.Csv.Fields

/-!
# Lines read back

A line that the stream has written is split again, whatever follows it.  The splitter finds its end
and its fields, unless an unquoted field begins or ends with a tab, which the stream does not trim
and the splitter skips, or the buffer for the fields with doubled quotes may not grow as much as
they need.
-/

namespace Csv

variable {q s t : UInt8}

/-! ### A field is stored -/

/-- The size of the buffer and what is in it after a field has been read. -/
def storeField (quote : UInt8) (maxCsvSize : ℕ) (p : ℕ × List UInt8) (data : List UInt8) :
    Option (ℕ × List UInt8) :=
  if quote ∈ data then
    (CSVSplitter.makeRoom maxCsvSize p.1 (p.2.length + (double quote data).length)).map
      fun size => (size, p.2 ++ data)
  else some p

/-- The buffer after the fields have been read. -/
def storeFields (quote : UInt8) (maxCsvSize : ℕ) :
    ℕ × List UInt8 → List (List UInt8) → Option (ℕ × List UInt8)
  | p, [] => some p
  | p, data :: fields =>
    (storeField quote maxCsvSize p data).bind fun p => storeFields quote maxCsvSize p fields

theorem copyField_cons_of_ne {m : StringMatcher} (h : Matches m q s t) {c : UInt8} (hc : c ≠ q)
    (i : Option ℕ) (data : List UInt8) :
    CSVSplitter.copyField m i (c :: data) = c :: CSVSplitter.copyField m i data := by
  cases data with
  | nil => rfl
  | cons d data =>
    rw [CSVSplitter.copyField.eq_def]
    cases hm : m c with
    | quote j => exact absurd hm (h.not_quote hc j)
    | escape => exact absurd hm (h.not_escape c)
    | _ => simp only [hm]

/-- One of two quotes is taken out. -/
theorem copyField_double {m : StringMatcher} (h : Matches m q s t) (data : List UInt8) :
    CSVSplitter.copyField m (some 0) (double q data) = data := by
  induction data with
  | nil => rfl
  | cons c data ih =>
    by_cases hc : c = q
    · rw [hc, double_cons_self, CSVSplitter.copyField.eq_def]
      simp only [h.quote]
      rw [if_pos ⟨trivial, trivial⟩, ih]
    · rw [double_cons_of_ne hc, copyField_cons_of_ne h hc, ih]

theorem storeFields_grows {maxCsvSize : ℕ} {fields : List (List UInt8)} {p p' : ℕ × List UInt8}
    (h : storeFields q maxCsvSize p fields = some p') : ∃ more, p'.2 = p.2 ++ more := by
  induction fields generalizing p with
  | nil =>
    rw [storeFields, Option.some_inj] at h
    exact ⟨[], by rw [h, List.append_nil]⟩
  | cons data fields ih =>
    obtain ⟨p₁, hp₁, hrest⟩ := Option.bind_eq_some_iff.1 h
    obtain ⟨more, hmore⟩ := ih hrest
    unfold storeField at hp₁
    by_cases hq : q ∈ data
    · rw [if_pos hq] at hp₁
      obtain ⟨size, _, rfl⟩ := Option.map_eq_some_iff.1 hp₁
      exact ⟨data ++ more, by rw [hmore, List.append_assoc]⟩
    · rw [if_neg hq, Option.some_inj] at hp₁
      exact ⟨more, by rw [hmore, hp₁]⟩

section Field

variable {S : CSVSplitter} {line text : List UInt8} {st : LineState}

/-- Behind a field, before it is stored: what is stored then, and what is read of it. -/
structure FieldRead (S : CSVSplitter) (line : List UInt8) (q s t : UInt8) (st : LineState)
    (data : List UInt8) (st' : LineState) (column : Column) : Prop where
  quote : st'.quote = none
  cur : st'.cur = st.cur + (encode q s t data).length
  curColumn : st'.curColumn = st.curColumn
  stored : S.setFieldRange line st' =
    (storeField q S.maxCsvSize (st.sizeInternal, st.internalBuffer) data).map fun p =>
      { st' with
        sizeInternal := p.1
        internalBuffer := p.2
        columns := st.columns ++ [column] }
  read : ∀ p ∈ storeField q S.maxCsvSize (st.sizeInternal, st.internalBuffer) data, ∀ more,
    column.read line (p.2 ++ more) = readBack q s t data

theorem take_length_of_prefix {α : Type*} {xs ys : List α} (h : xs <+: ys) :
    ys.take xs.length = xs := (List.prefix_iff_eq_take.1 h).symm

/-- The text of a field without quotes. -/
theorem take_drop_plain {data tail : List UInt8} {k : ℕ} (hline : line.drop k = data ++ tail) :
    (line.drop (k + (data.takeWhile isBlank).length)).take (dropBlanks data).length =
      dropBlanks data := by
  have hsplit := List.takeWhile_append_dropWhile (p := isBlank) (l := data)
  have hstart : line.drop (k + (data.takeWhile isBlank).length) =
      data.dropWhile isBlank ++ tail := by
    rw [← List.drop_drop, hline]
    conv_lhs => rw [← hsplit]
    rw [List.append_assoc, hsplit, List.drop_left]
  rw [hstart]
  exact take_length_of_prefix ((List.rdropWhile_prefix isBlank _).trans (List.prefix_append _ _))

theorem fieldRead_unquoted {data tail : List UInt8} (hst : AtField st)
    (hspecial : data.any (isSpecial q s t) = false) (hq : q ∉ data)
    (hline : line.drop st.cur = data ++ tail) :
    FieldRead S line q s t st data
      { st with
        cur := st.cur + data.length
        firstGood := st.cur + (data.takeWhile isBlank).length
        lastGood := st.cur + (data.takeWhile isBlank).length + (dropBlanks data).length }
      (.line (st.cur + (data.takeWhile isBlank).length) (dropBlanks data).length) where
  quote := hst.quote
  cur := by rw [encode, hspecial, if_neg Bool.false_ne_true]
  curColumn := rfl
  stored := by
    have hnone : st.quoteToStrip = none ∧ st.lastEscape = false :=
      ⟨hst.quoteToStrip, hst.lastEscape⟩
    simp only [CSVSplitter.setFieldRange, if_pos hnone, storeField, if_neg hq, Option.map_some,
      Nat.add_sub_cancel_left]
  read := fun p _ more => by
    rw [Column.read, readBack, hspecial, if_neg Bool.false_ne_true, take_drop_plain hline]

theorem fieldRead_quoted (h : Matches S.matcher q s t) {data tail : List UInt8} (hst : AtField st)
    (hspecial : data.any (isSpecial q s t) = true)
    (hline : line.drop (st.cur + 1) = double q data ++ tail) :
    FieldRead S line q s t st data
      { st with
        cur := st.cur + (q :: (double q data ++ [q])).length
        quoteToStrip := if q ∈ data then some 0 else none
        firstGood := st.cur + 1
        lastGood := st.cur + 1 + (double q data).length }
      (if q ∈ data then .buffer st.internalBuffer.length data.length
        else .line (st.cur + 1) data.length) where
  quote := hst.quote
  cur := by rw [encode, hspecial, if_pos rfl]
  curColumn := rfl
  stored := by
    by_cases hq : q ∈ data
    · have htext : (line.drop (st.cur + 1)).take (double q data).length = double q data := by
        rw [hline, List.take_left]
      have hstrip : ¬ (some 0 = none ∧ st.lastEscape = false) := fun hnone =>
        Option.some_ne_none 0 hnone.1
      simp only [if_pos hq, CSVSplitter.setFieldRange, Nat.add_sub_cancel_left, htext,
        copyField_double h, storeField, if_neg hstrip, Option.map_map, Function.comp_def]
    · simp only [if_neg hq, CSVSplitter.setFieldRange, hst.lastEscape, and_self, if_true, storeField,
        Option.map_some, Nat.add_sub_cancel_left, double_of_not_mem hq]
  read := fun p hp more => by
    rw [readBack, hspecial, if_pos rfl]
    unfold storeField at hp
    by_cases hq : q ∈ data
    · rw [if_pos hq] at hp ⊢
      obtain ⟨size, _, rfl⟩ := Option.map_eq_some_iff.1 hp
      rw [Column.read, List.append_assoc, List.drop_left, List.take_left]
    · rw [if_neg hq, Column.read, hline, double_of_not_mem hq, List.take_left]

theorem splitFrom_field (h : Matches S.matcher q s t) {data : List UInt8} {d : UInt8} (hd : d ≠ q)
    (hst : AtField st) (hline : line.drop st.cur = encode q s t data ++ d :: text) :
    ∃ st' column, S.splitFrom line (encode q s t data ++ d :: text) st =
        S.splitFrom line (d :: text) st' ∧ FieldRead S line q s t st data st' column := by
  unfold encode at hline ⊢
  cases hspecial : data.any (isSpecial q s t) with
  | true =>
    rw [hspecial, if_pos rfl] at hline
    rw [if_pos rfl]
    have hstart : line.drop (st.cur + 1) = double q data ++ (q :: d :: text) := by
      rw [← List.drop_drop, hline, List.cons_append, List.append_assoc]
      rfl
    exact ⟨_, _, splitFrom_quoted h hd hst, fieldRead_quoted h hst hspecial hstart⟩
  | false =>
    rw [hspecial, if_neg Bool.false_ne_true] at hline
    rw [if_neg Bool.false_ne_true]
    have hplain : ∀ c ∈ data, isSpecial q s t c = false := fun c hc =>
      Bool.eq_false_iff.2 (List.any_eq_false.1 hspecial c hc)
    have hq : q ∉ data := fun hmem => by
      have := hplain q hmem
      simp [isSpecial] at this
    exact ⟨_, _, splitFrom_unquoted h hplain hst, fieldRead_unquoted hst hspecial hq hline⟩

/-- The rest of a line, behind a field. -/
def lineFrom (q s t : UInt8) (rest : List UInt8) (fields : List (List UInt8)) : List UInt8 :=
  (fields.flatMap fun data => s :: encode q s t data) ++ t :: rest

theorem lineFrom_cons (rest data : List UInt8) (fields : List (List UInt8)) :
    lineFrom q s t rest (data :: fields) =
      s :: (encode q s t data ++ lineFrom q s t rest fields) := by
  unfold lineFrom
  rw [List.flatMap_cons, List.append_assoc]
  rfl

/-- The next field starts at `k`. -/
def LineState.next (st : LineState) (k : ℕ) (column : Column) (p : ℕ × List UInt8) : LineState where
  curColumn := st.curColumn + 1
  quote := none
  quoteToStrip := none
  cur := k
  firstGood := k
  lastGood := k
  lastEscape := false
  sizeInternal := p.1
  internalBuffer := p.2
  columns := st.columns ++ [column]

theorem atField_next (st : LineState) (k : ℕ) (column : Column) (p : ℕ × List UInt8) :
    AtField (st.next k column p) := ⟨rfl, rfl, rfl, rfl, rfl⟩

theorem splitFrom_next (hf : Format q s t) (h : Matches S.matcher q s t) {data : List UInt8}
    (hst : AtField st) (hcolumn : st.curColumn < S.maxColumns)
    (hline : line.drop st.cur = encode q s t data ++ s :: text) :
    ∃ column, S.splitFrom line (encode q s t data ++ s :: text) st =
        (storeField q S.maxCsvSize (st.sizeInternal, st.internalBuffer) data).bind (fun p =>
          S.splitFrom line text (st.next (st.cur + (encode q s t data).length + 1) column p)) ∧
      ∀ p ∈ storeField q S.maxCsvSize (st.sizeInternal, st.internalBuffer) data, ∀ more,
        column.read line (p.2 ++ more) = readBack q s t data := by
  obtain ⟨st', column, hsplit, hread⟩ := splitFrom_field h hf.quote_ne_separator.symm hst hline
  rw [← hread.curColumn] at hcolumn
  refine ⟨column, hsplit.trans ?_, hread.read⟩
  rw [splitFrom_separator h.separator hread.quote hcolumn, hread.stored, Option.bind_map]
  simp only [Function.comp_def, LineState.next, hread.cur, hread.curColumn, hread.quote]

/-- At the end of a line, of which some fields were still to be read. -/
structure LineRead (S : CSVSplitter) (line : List UInt8) (q s t : UInt8) (st : LineState)
    (fields : List (List UInt8)) (p : ℕ × List UInt8) (final : LineState) : Prop where
  internalBuffer : final.internalBuffer = p.2
  columns : ∃ columns k, columns.map (Column.read line p.2) = fields.map (readBack q s t) ∧
    final.columns = st.columns ++ columns ++
      List.replicate (S.maxColumns - (st.curColumn + fields.length)) (.line k 0)

theorem splitFrom_last (hf : Format q s t) (h : Matches S.matcher q s t) {data : List UInt8}
    (hst : AtField st) (hline : line.drop st.cur = encode q s t data ++ t :: text) :
    ∃ final : ℕ × List UInt8 → LineState,
      S.splitFrom line (encode q s t data ++ t :: text) st =
        (storeField q S.maxCsvSize (st.sizeInternal, st.internalBuffer) data).map (fun p =>
          (st.cur + (encode q s t data).length + 1, final p)) ∧
      ∀ p ∈ storeField q S.maxCsvSize (st.sizeInternal, st.internalBuffer) data,
        LineRead S line q s t st [data] p (final p) := by
  obtain ⟨st', column, hsplit, hread⟩ := splitFrom_field h hf.quote_ne_terminator.symm hst hline
  refine ⟨fun p => S.fillColumns { st' with
      sizeInternal := p.1
      internalBuffer := p.2
      columns := st.columns ++ [column] }, hsplit.trans ?_, fun p hp => ?_⟩
  · rw [splitFrom_terminator h.terminator hread.quote, hread.stored, Option.map_map]
    simp only [Function.comp_def, hread.cur]
  · have hcolumn := hread.read p hp []
    rw [List.append_nil] at hcolumn
    refine ⟨rfl, [column], st'.cur, ?_, ?_⟩
    · rw [List.map_singleton, List.map_singleton, hcolumn]
    · rw [← hread.curColumn]
      rfl

theorem lineRead_cons {k : ℕ} {column : Column} {data : List UInt8} {fields : List (List UInt8)}
    {p₁ p : ℕ × List UInt8} {final : LineState}
    (hcolumn : column.read line p.2 = readBack q s t data)
    (h : LineRead S line q s t (st.next k column p₁) fields p final) :
    LineRead S line q s t st (data :: fields) p final := by
  obtain ⟨hbuffer, columns, j, hcolumns, hfinal⟩ := h
  have hcount : st.curColumn + 1 + fields.length = st.curColumn + (data :: fields).length := by
    rw [List.length_cons, Nat.add_assoc, Nat.add_comm 1]
  refine ⟨hbuffer, column :: columns, j, ?_, ?_⟩
  · rw [List.map_cons, List.map_cons, hcolumn, hcolumns]
  · rw [hfinal, ← hcount]
    unfold LineState.next
    dsimp only
    rw [List.append_assoc st.columns, List.singleton_append]

/-- Behind a field and its separator the next field starts. -/
theorem drop_next {data : List UInt8} {k : ℕ}
    (hline : line.drop k = encode q s t data ++ s :: text) :
    line.drop (k + (encode q s t data).length + 1) = text := by
  rw [Nat.add_assoc, ← List.drop_drop, hline, ← List.drop_drop, List.drop_left]
  rfl

/-- From the start of a field to the end of the line, if there is room for the fields. -/
theorem splitFrom_fields (hf : Format q s t) (h : Matches S.matcher q s t) {rest data : List UInt8}
    {fields : List (List UInt8)} {p : ℕ × List UInt8} (hst : AtField st)
    (hcolumns : st.curColumn + fields.length < S.maxColumns)
    (hline : line.drop st.cur = encode q s t data ++ lineFrom q s t rest fields)
    (hp : storeFields q S.maxCsvSize (st.sizeInternal, st.internalBuffer) (data :: fields) =
      some p) :
    ∃ final, S.splitFrom line (encode q s t data ++ lineFrom q s t rest fields) st =
        some (st.cur + (encode q s t data ++ lineFrom q s t [] fields).length, final) ∧
      LineRead S line q s t st (data :: fields) p final := by
  obtain ⟨p₁, hp₁, hrest⟩ := Option.bind_eq_some_iff.1 hp
  induction fields generalizing data st p₁ with
  | nil =>
    obtain ⟨final, hsplit, hread⟩ := splitFrom_last hf h hst hline
    rw [storeFields, Option.some_inj] at hrest
    rw [← hrest]
    refine ⟨final p₁, hsplit.trans ?_, hread p₁ hp₁⟩
    rw [hp₁, Option.map_some, List.length_append, ← Nat.add_assoc]
    rfl
  | cons next fields ih =>
    rw [lineFrom_cons] at hline
    have hcolumn : st.curColumn < S.maxColumns :=
      Nat.lt_of_le_of_lt (Nat.le_add_right _ _) hcolumns
    obtain ⟨column, hsplit, hread⟩ := splitFrom_next hf h hst hcolumn hline
    obtain ⟨more, hmore⟩ := storeFields_grows hrest
    have hcolumn := hread p₁ hp₁ more
    rw [← hmore] at hcolumn
    have hcolumns' : st.curColumn + 1 + fields.length < S.maxColumns := by
      rw [Nat.add_assoc, Nat.add_comm 1]
      exact hcolumns
    obtain ⟨p₂, hp₂, hrest'⟩ := Option.bind_eq_some_iff.1 hrest
    obtain ⟨final, hfinal, hlast⟩ := ih (atField_next st _ column p₁) hcolumns' (drop_next hline)
      hrest p₂ hp₂ hrest'
    rw [lineFrom_cons, lineFrom_cons]
    refine ⟨final, ?_, lineRead_cons hcolumn hlast⟩
    rw [hsplit, hp₁, Option.bind_some, hfinal]
    simp only [LineState.next, List.length_append, List.length_cons]
    congr 2
    omega

/-- If there is no room for the fields, an exception is thrown. -/
theorem splitFrom_noRoom (hf : Format q s t) (h : Matches S.matcher q s t) {rest data : List UInt8}
    {fields : List (List UInt8)} (hst : AtField st)
    (hcolumns : st.curColumn + fields.length < S.maxColumns)
    (hline : line.drop st.cur = encode q s t data ++ lineFrom q s t rest fields)
    (hp : storeFields q S.maxCsvSize (st.sizeInternal, st.internalBuffer) (data :: fields) = none) :
    S.splitFrom line (encode q s t data ++ lineFrom q s t rest fields) st = none := by
  induction fields generalizing data st with
  | nil =>
    obtain ⟨final, hsplit, _⟩ := splitFrom_last hf h hst hline
    refine hsplit.trans ?_
    rw [storeFields] at hp
    cases hfirst : storeField q S.maxCsvSize (st.sizeInternal, st.internalBuffer) data with
    | none => rfl
    | some p =>
      rw [hfirst, Option.bind_some, storeFields] at hp
      exact absurd hp (Option.some_ne_none p)
  | cons next fields ih =>
    rw [lineFrom_cons] at hline ⊢
    have hcolumn : st.curColumn < S.maxColumns :=
      Nat.lt_of_le_of_lt (Nat.le_add_right _ _) hcolumns
    have hcolumns' : st.curColumn + 1 + fields.length < S.maxColumns := by
      rw [Nat.add_assoc, Nat.add_comm 1]
      exact hcolumns
    obtain ⟨column, hsplit, _⟩ := splitFrom_next hf h hst hcolumn hline
    rw [hsplit]
    rw [storeFields] at hp
    cases hp₁ : storeField q S.maxCsvSize (st.sizeInternal, st.internalBuffer) data with
    | none => rw [Option.bind_none]
    | some p₁ =>
      rw [hp₁, Option.bind_some] at hp
      rw [Option.bind_some]
      exact ih (atField_next st _ column p₁) hcolumns' (drop_next hline) hp

end Field

/-! ### A whole line -/

/-- The line of the fields, followed by anything, is split at its own end into the fields, and the
remaining columns are empty. -/
def RoundTrips (S : CSVSplitter) (o : CSVOutputStream) (fields : List (List UInt8))
    (rest : List UInt8) : Prop :=
  ∃ final, S.splitLine (o.writeLine fields ++ rest) = some ((o.writeLine fields).length, final) ∧
    final.columns.map (Column.read (o.writeLine fields ++ rest) final.internalBuffer) =
      fields.map CSVOutputStream.trim ++ List.replicate (S.maxColumns - fields.length) []

/-- Without quotes a field keeps its ends if they are not tabs. -/
def KeepsEnds (q s t : UInt8) (data : List UInt8) : Prop :=
  (data.any (isSpecial q s t) = true) ∨ (data.head? ≠ some 9 ∧ data.getLast? ≠ some 9)

/-- The buffer can be made large enough for all fields that contain quotes. -/
def HasRoom (S : CSVSplitter) (q : UInt8) (fields : List (List UInt8)) : Prop :=
  (storeFields q S.maxCsvSize (S.sizeInternal, []) fields).isSome = true

theorem dropWhile_eq_self_iff_head {α : Type*} (p : α → Bool) (xs : List α) :
    xs.dropWhile p = xs ↔ ∀ c ∈ xs.head?, p c = false := by
  rw [List.dropWhile_eq_self_iff]
  cases xs <;> simp

theorem rdropWhile_eq_self_iff_last {α : Type*} (p : α → Bool) (xs : List α) :
    xs.rdropWhile p = xs ↔ ∀ c ∈ xs.getLast?, p c = false := by
  unfold List.rdropWhile
  rw [← List.head?_reverse, ← dropWhile_eq_self_iff_head, List.reverse_eq_iff]

theorem dropBlanks_eq_self_iff (data : List UInt8) :
    dropBlanks data = data ↔ (∀ c ∈ data.head?, isBlank c = false) ∧
      ∀ c ∈ data.getLast?, isBlank c = false := by
  rw [← dropWhile_eq_self_iff_head, ← rdropWhile_eq_self_iff_last]
  refine ⟨fun h => ?_, fun h => by rw [dropBlanks, h.1, h.2]⟩
  have hprefix := List.rdropWhile_prefix isBlank (data.dropWhile isBlank)
  have hsuffix := List.dropWhile_suffix isBlank (l := data)
  have hlength : (data.dropWhile isBlank).length = data.length := by
    refine Nat.le_antisymm hsuffix.length_le ?_
    conv_lhs => rw [← h]
    exact hprefix.length_le
  have hdrop := hsuffix.eq_of_length hlength
  refine ⟨hdrop, ?_⟩
  rw [dropBlanks, hdrop] at h
  exact h

/-- The writer leaves no space at an end. -/
theorem trim_ends (data : List UInt8) : (CSVOutputStream.trim data).head? ≠ some 32 ∧
    (CSVOutputStream.trim data).getLast? ≠ some 32 := by
  have hdrop := (dropWhile_eq_self_iff_head (fun c : UInt8 => decide (c = 32))
    (data.dropWhile fun c => decide (c = 32))).1
    (List.dropWhile_idempotent _ _)
  have hrdrop := (rdropWhile_eq_self_iff_last (fun c : UInt8 => decide (c = 32))
    (CSVOutputStream.trim data)).1 (List.rdropWhile_idempotent _ _)
  refine ⟨fun hhead => ?_, fun hlast => ?_⟩
  · obtain ⟨tail, htail⟩ := List.head?_eq_some_iff.1 hhead
    obtain ⟨more, hmore⟩ := List.rdropWhile_prefix (fun c : UInt8 => decide (c = 32))
      (data.dropWhile fun c => decide (c = 32))
    have hfirst : (data.dropWhile fun c => decide (c = 32)).head? = some 32 := by
      rw [← hmore]
      unfold CSVOutputStream.trim at htail
      rw [htail]
      rfl
    exact absurd (hdrop 32 hfirst) (by decide)
  · exact absurd (hrdrop 32 hlast) (by decide)

theorem blank_ends_iff {o : Option UInt8} (h : o ≠ some 32) :
    (∀ c ∈ o, isBlank c = false) ↔ o ≠ some 9 := by
  cases o with
  | none => simp
  | some c =>
    have hc : c ≠ 32 := fun hc => h (congrArg some hc)
    simp [isBlank, hc]

theorem readBack_trim_iff (data : List UInt8) :
    readBack q s t (CSVOutputStream.trim data) = CSVOutputStream.trim data ↔
      KeepsEnds q s t (CSVOutputStream.trim data) := by
  obtain ⟨hhead, hlast⟩ := trim_ends data
  generalize CSVOutputStream.trim data = text at hhead hlast
  unfold readBack KeepsEnds
  cases hspecial : text.any (isSpecial q s t) with
  | true => simp
  | false =>
    rw [if_neg Bool.false_ne_true, dropBlanks_eq_self_iff, blank_ends_iff hhead,
      blank_ends_iff hlast, or_iff_right Bool.false_ne_true]

theorem lineRead_start {S : CSVSplitter} {line : List UInt8} {fields : List (List UInt8)}
    {p : ℕ × List UInt8} {final : LineState} (h : LineRead S line q s t S.start fields p final) :
    final.columns.map (Column.read line final.internalBuffer) =
      fields.map (readBack q s t) ++ List.replicate (S.maxColumns - fields.length) [] := by
  obtain ⟨hbuffer, columns, k, hcolumns, hfinal⟩ := h
  have hcount : S.start.curColumn + fields.length = fields.length := Nat.zero_add _
  rw [hfinal, hbuffer, hcount, List.map_append, List.map_append, hcolumns, List.map_replicate]
  simp [CSVSplitter.start, Column.read]

theorem map_append_replicate_inj {α : Type*} {xs ys : List α} {n : ℕ} {c : α} :
    xs ++ List.replicate n c = ys ++ List.replicate n c ↔ xs = ys := List.append_left_inj _

/-- The line as it is read. -/
theorem writeLine_eq (f : List UInt8) (fields : List (List UInt8)) (rest : List UInt8) :
    (CSVOutputStream.init [q] [s] [t] false).writeLine (f :: fields) ++ rest =
      encode q s t (CSVOutputStream.trim f) ++
        lineFrom q s t rest (fields.map CSVOutputStream.trim) := by
  rw [(writes_init q s t).writeLine_cons]
  simp [lineFrom, List.flatMap_map]

theorem written_roundTrips_iff_of_matches (hf : Format q s t) {S : CSVSplitter}
    (hmatches : Matches S.matcher q s t) {fields : List (List UInt8)} (hne : fields ≠ [])
    (hcolumns : fields.length ≤ S.maxColumns) (rest : List UInt8) :
    RoundTrips S (CSVOutputStream.init [q] [s] [t] false) fields rest ↔
      (∀ f ∈ fields, KeepsEnds q s t (CSVOutputStream.trim f)) ∧
        HasRoom S q (fields.map CSVOutputStream.trim) := by
  obtain ⟨f, tail, rfl⟩ := List.exists_cons_of_ne_nil hne
  have hstart : AtField S.start := ⟨rfl, rfl, rfl, rfl, rfl⟩
  have hroom : S.start.curColumn + (tail.map CSVOutputStream.trim).length < S.maxColumns := by
    rw [List.length_map]
    exact Nat.lt_of_lt_of_le (by simp [CSVSplitter.start]) hcolumns
  have hline := writeLine_eq (q := q) (s := s) (t := t) f tail rest
  have hlength := congrArg List.length (writeLine_eq (q := q) (s := s) (t := t) f tail [])
  rw [List.append_nil] at hlength
  have hcounted : S.start.cur + (encode q s t (CSVOutputStream.trim f) ++
      lineFrom q s t [] (tail.map CSVOutputStream.trim)).length =
        ((CSVOutputStream.init [q] [s] [t] false).writeLine (f :: tail)).length := by
    rw [hlength]
    exact Nat.zero_add _
  unfold RoundTrips HasRoom CSVSplitter.splitLine
  rw [hline]
  have hdrop : (encode q s t (CSVOutputStream.trim f) ++
      lineFrom q s t rest (tail.map CSVOutputStream.trim)).drop S.start.cur =
        encode q s t (CSVOutputStream.trim f) ++
          lineFrom q s t rest (tail.map CSVOutputStream.trim) := rfl
  have hkeeps : ((f :: tail).map CSVOutputStream.trim).map (readBack q s t) =
      (f :: tail).map CSVOutputStream.trim ↔
        ∀ g ∈ f :: tail, KeepsEnds q s t (CSVOutputStream.trim g) := by
    rw [List.map_map, List.map_inj_left]
    exact forall₂_congr fun g _ => readBack_trim_iff g
  cases hp : storeFields q S.maxCsvSize (S.sizeInternal, []) ((f :: tail).map CSVOutputStream.trim) with
  | none =>
    have hfails := splitFrom_noRoom hf hmatches hstart hroom hdrop hp
    refine iff_of_false ?_ fun h => Bool.false_ne_true h.2
    rintro ⟨final, hsplit, _⟩
    rw [hfails] at hsplit
    exact absurd hsplit.symm (Option.some_ne_none _)
  | some p =>
    obtain ⟨final, hsplit, hread⟩ := splitFrom_fields hf hmatches hstart hroom hdrop hp
    have hcount : ((f :: tail).map CSVOutputStream.trim).length = (f :: tail).length :=
      List.length_map _
    have hcolumns := @lineRead_start q s t S _ ((f :: tail).map CSVOutputStream.trim) p final hread
    rw [hcount] at hcolumns
    rw [hcounted] at hsplit
    rw [Option.isSome_some, and_iff_left rfl, ← hkeeps, ← map_append_replicate_inj, ← hcolumns]
    refine ⟨?_, fun h => ⟨final, hsplit, h⟩⟩
    rintro ⟨final', hsplit', hread'⟩
    rw [hsplit, Option.some_inj, Prod.mk.injEq] at hsplit'
    rw [hsplit'.2]
    exact hread'

theorem format_comma : Format 34 44 10 := by
  constructor <;> decide

end Csv
