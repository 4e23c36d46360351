import HpccPlatform.BitSet.Operations

/-!
# Writing a bit set and reading it back

A thread safe bit set that is written and read as such comes back.  The three other pairs of
writer and reader lose the items: `CBitSet` writes the number of bits where `CBitSetThreadSafe`
reads the number of items, and `CBitSet::deserialize` never reads an item.  They agree on a bit
set without items only, and `roundTrips_iff` says which runs lead there.

The number of items is bounded by the 32-bit numbers of the bits; this is what keeps the count
that `CBitSetThreadSafe` writes from wrapping.
-/

namespace BitSets

/-- The four bytes of a number give it back, as far as 32 bits hold it. -/
theorem readUnsigned_append (n : ℕ) (rest : List UInt8) :
    readUnsigned (appendUnsigned n ++ rest) = some (n % 2 ^ 32, rest) := by
  have hbytes : n % 256 + n / 256 % 256 * 256 + n / 65536 % 256 * 65536 +
      n / 16777216 % 256 * 16777216 = n % 2 ^ 32 := by omega
  unfold appendUnsigned
  simp only [List.cons_append, List.nil_append, readUnsigned, UInt8.toNat_ofNat']
  rw [hbytes]

theorem length_appendUnsigned (n : ℕ) : (appendUnsigned n).length = 4 := rfl

theorem length_appendItems (items : List Item) : (appendItems items).length = 4 * items.length := by
  unfold appendItems
  induction items with
  | nil => rfl
  | cons m items ih =>
    rw [List.flatMap_cons, List.length_append, ih, length_appendUnsigned, List.length_cons]
    omega

theorem readItems_append (items : List Item) (rest : List UInt8) :
    readItems items.length (appendItems items ++ rest) = some (items, rest) := by
  induction items with
  | nil => rfl
  | cons m items ih =>
    have hcons : appendItems (m :: items) ++ rest =
        appendUnsigned m.toNat ++ (appendItems items ++ rest) := by
      unfold appendItems
      rw [List.flatMap_cons, List.append_assoc]
    rw [List.length_cons, hcons]
    unfold readItems
    simp only [readUnsigned_append, Nat.mod_eq_of_lt m.isLt, Option.bind_eq_bind,
      Option.bind_some, ih, BitVec.ofNat_toNat, BitVec.setWidth_eq]
    rfl

/-- Reading takes four bytes for each item. -/
theorem length_of_readItems :
    ∀ count (buffer : List UInt8) items rest, readItems count buffer = some (items, rest) →
      buffer.length = 4 * count + rest.length := by
  intro count
  induction count with
  | zero =>
    intro buffer items rest hread
    cases hread
    omega
  | succ count ih =>
    intro buffer items rest hread
    unfold readItems at hread
    simp only [Option.bind_eq_bind, Option.bind_eq_some_iff] at hread
    obtain ⟨⟨b, buffer'⟩, hb, ⟨items', rest'⟩, hitems, hreturn⟩ := hread
    cases hreturn
    have hlen := ih buffer' items' rest' hitems
    rcases buffer with _ | ⟨a, _ | ⟨b', _ | ⟨c, _ | ⟨d, buffer⟩⟩⟩⟩ <;>
      simp only [readUnsigned, reduceCtorEq] at hb
    cases hb
    simp only [List.length_cons]
    omega

/-- The bits left after the loop over one item. -/
theorem fillItem_left (val : Bool) :
    ∀ fuel j m nb, 0 < nb → nb < 2 ^ 32 → (fillItem val fuel j m nb).2 = nb - fuel := by
  intro fuel
  induction fuel with
  | zero =>
    intro j m nb _ _
    rfl
  | succ fuel ih =>
    intro j m nb hpos hlt
    have hpred : (nb + (2 ^ 32 - 1)) % 2 ^ 32 = nb - 1 := by
      have hsum : nb + (2 ^ 32 - 1) = (nb - 1) + 2 ^ 32 := by omega
      rw [hsum, Nat.add_mod_right]
      exact Nat.mod_eq_of_lt (by omega)
    unfold fillItem
    simp only [hpred]
    split
    · simp only
      omega
    · rw [ih _ _ _ (by omega) (by omega)]
      omega

/-- The whole 32-bit range has `2 ^ 32` bits, which wraps to zero and counts down from there. -/
theorem fillItem_left_zero (val : Bool) (fuel j : ℕ) (m : Item) :
    (fillItem val (fuel + 1) j m 0).2 = 2 ^ 32 - 1 - fuel := by
  unfold fillItem
  have hpred : (0 + (2 ^ 32 - 1)) % 2 ^ 32 = 2 ^ 32 - 1 := by decide
  simp only [hpred]
  rw [if_neg (by decide)]
  exact fillItem_left val fuel (j + 1) _ (2 ^ 32 - 1) (by decide) (by decide)

theorem inclItem_left (val : Bool) {j nb : ℕ} (m : Item) (hpos : 0 < nb) (hlt : nb < 2 ^ 32) :
    (inclItem val j m nb).2 = nb - (32 - j) := by
  unfold inclItem
  split
  next hwhole => rw [hwhole.2]
  next => exact fillItem_left val (32 - j) j m nb hpos hlt

theorem length_inclItems (val : Bool) :
    ∀ (items : List Item) j nb, (inclItems val items j nb).1.length = items.length := by
  intro items
  induction items with
  | nil =>
    intro j nb
    rfl
  | cons m items ih =>
    intro j nb
    unfold inclItems
    simp only
    split
    · rfl
    · simp only [List.length_cons, ih]

/-- The bits left after the items that exist. -/
theorem inclItems_left (val : Bool) :
    ∀ (items : List Item) j nb, 0 < nb → nb < 2 ^ 32 → j < 32 →
      (inclItems val items j nb).2 = if items = [] then nb else nb - (32 * items.length - j) := by
  intro items
  induction items with
  | nil =>
    intro j nb _ _ _
    rfl
  | cons m items ih =>
    intro j nb hpos hlt hj
    rw [if_neg (List.cons_ne_nil m items)]
    have hstep := inclItem_left val (j := j) m hpos hlt
    unfold inclItems
    simp only
    split
    next hzero =>
      rw [hstep] at hzero
      simp only [hstep, List.length_cons]
      omega
    next hzero =>
      rw [hstep] at hzero
      simp only [hstep]
      rw [ih 0 _ (by omega) (by omega) (by decide)]
      split
      next hnil =>
        rw [hnil]
        simp only [List.length_cons, List.length_nil]
      next =>
        simp only [List.length_cons]
        omega

theorem length_tailItems (nb : ℕ) :
    (tailItems nb).length = nb / 32 + if nb % 32 = 0 then 0 else 1 := by
  unfold tailItems
  rw [List.length_append, List.length_replicate]
  split
  · rfl
  · rfl

theorem getWidth_addBitSets (s : BitSet) (items : List Item) :
    getWidth (addBitSets s items) = if s.fixedMemory then getWidth s
      else getWidth s + items.length := by
  unfold addBitSets getWidth
  split
  · rfl
  · exact List.length_append

theorem length_padTo (s : BitSet) (i : ℕ) (t : Item) :
    (padTo s i t).length = i - getWidth s + 1 := by
  unfold padTo
  rw [List.length_append, List.length_replicate]
  rfl

/-- The operation adds an item to a bit set that has none. -/
def Stores : Operation → Prop
  | .set _ val => val = true
  | .incl lo hi => lo.val ≤ hi.val ∧ ¬ (lo.val = 0 ∧ hi.val = 2 ^ 32 - 1)
  | .excl _ _ => False
  | .invert _ => True
  | .testSet _ val => val = true
  | .scanInvert _ tst => tst = false

/-- What an operation does to the number of items: it never takes one away, it stays within the
32-bit numbers of bits, and it adds to none as `Stores` says. -/
structure Grows (s s' : BitSet) (stores : Prop) : Prop where
  fixed : s'.fixedMemory = s.fixedMemory
  mono : getWidth s ≤ getWidth s'
  bound : getWidth s' ≤ max (getWidth s) (2 ^ 27)
  empty : getWidth s = 0 → (getWidth s' = 0 ↔ s.fixedMemory = true ∨ ¬ stores)

theorem Grows.congr {s s' : BitSet} {p q : Prop} (hg : Grows s s' p) (hpq : p ↔ q) :
    Grows s s' q := by
  refine ⟨hg.fixed, hg.mono, hg.bound, ?_⟩
  rw [← hpq]
  exact hg.empty

/-- An operation on the items that exist. -/
theorem grows_same {s s' : BitSet} {stores : Prop} (hfixed : s'.fixedMemory = s.fixedMemory)
    (hwidth : getWidth s' = getWidth s) (hempty : getWidth s = 0 → ¬ stores) :
    Grows s s' stores := by
  refine ⟨hfixed, hwidth.ge, ?_, ?_⟩
  · rw [hwidth]
    exact le_max_left _ _
  · intro hzero
    rw [hwidth]
    exact ⟨fun _ => .inr (hempty hzero), fun _ => hzero⟩

/-- An operation that adds items up to the number `i` of one. -/
theorem grows_added {s : BitSet} {stores : Prop} {items : List Item}
    (hle : getWidth s + items.length ≤ max (getWidth s) (2 ^ 27))
    (hempty : getWidth s = 0 → (items = [] ↔ ¬ stores)) :
    Grows s (addBitSets s items) stores := by
  have hwidth := getWidth_addBitSets s items
  have hfixed : (addBitSets s items).fixedMemory = s.fixedMemory := by
    unfold addBitSets
    split
    · rfl
    · rfl
  cases hmem : s.fixedMemory with
  | true =>
    rw [hmem, if_pos rfl] at hwidth
    refine ⟨hfixed, hwidth.ge, hwidth.le.trans (le_max_left _ _), ?_⟩
    intro hzero
    rw [hwidth, hmem]
    exact ⟨fun _ => .inl rfl, fun _ => hzero⟩
  | false =>
    rw [hmem, if_neg (by decide)] at hwidth
    refine ⟨hfixed, by omega, by omega, ?_⟩
    intro hzero
    rw [hwidth, hzero, Nat.zero_add, hmem, List.length_eq_zero_iff, hempty hzero]
    constructor
    · exact .inr
    · rintro (hf | hnot)
      · exact absurd hf (by decide)
      · exact hnot

theorem grows_padded {s : BitSet} {n : ℕ} (hn : n < 2 ^ 32) (hnone : s.bits[n / 32]? = none)
    (t : Item) {stores : Prop} (hstores : stores) :
    Grows s (addBitSets s (padTo s (n / 32) t)) stores := by
  have hge : getWidth s ≤ n / 32 := List.getElem?_eq_none_iff.mp hnone
  have hlen := length_padTo s (n / 32) t
  apply grows_added
  · rw [hlen]
    omega
  · intro _
    constructor
    · intro hnil
      rw [hnil] at hlen
      simp only [List.length_nil] at hlen
      omega
    · intro hnot
      exact absurd hstores hnot

/-- An item that exists is not in an empty bit set. -/
theorem getWidth_ne_zero {s : BitSet} {i : ℕ} {m : Item} (hget : s.bits[i]? = some m) :
    getWidth s ≠ 0 := by
  have hlt := (List.getElem?_eq_some_iff.mp hget).1
  unfold getWidth
  omega

theorem set_grows (s : BitSet) {n : ℕ} (hn : n < 2 ^ 32) (val : Bool) :
    Grows s (set s n val) (val = true) := by
  unfold set
  simp only
  cases hget : s.bits[n / 32]? with
  | none =>
    simp only
    cases val with
    | true => exact grows_padded hn hget _ rfl
    | false => exact grows_same rfl rfl (fun _ => by decide)
  | some m =>
    simp only
    refine grows_same rfl List.length_set ?_
    intro hzero
    exact absurd hzero (getWidth_ne_zero hget)

theorem invert_grows (s : BitSet) {n : ℕ} (hn : n < 2 ^ 32) : Grows s (invert s n) True := by
  unfold invert
  simp only
  cases hget : s.bits[n / 32]? with
  | none => exact grows_padded hn hget _ trivial
  | some m =>
    simp only
    refine grows_same rfl List.length_set ?_
    intro hzero
    exact absurd hzero (getWidth_ne_zero hget)

theorem testSet_grows (s : BitSet) {n : ℕ} (hn : n < 2 ^ 32) (val : Bool) :
    Grows s (testSet s n val) (val = true) := by
  unfold testSet
  simp only
  cases hget : s.bits[n / 32]? with
  | none =>
    simp only
    cases val with
    | true => exact grows_padded hn hget _ rfl
    | false => exact grows_same rfl rfl (fun _ => by decide)
  | some m =>
    have hne : getWidth s = 0 → ¬ (val = true) := fun hzero => absurd hzero (getWidth_ne_zero hget)
    simp only
    split
    · split
      · exact grows_same rfl rfl hne
      · exact grows_same rfl List.length_set hne
    · split
      · exact grows_same rfl List.length_set hne
      · exact grows_same rfl rfl hne

theorem scanInvert_grows (s : BitSet) {start : ℕ} (hstart : start < 2 ^ 32) (tst : Bool) :
    Grows s (scanInvert s start tst) (tst = false) := by
  unfold scanInvert
  cases hmatch : scanMatch s start tst with
  | some found =>
    refine grows_same rfl (List.length_modify _ _ _) ?_
    intro hzero
    have hnil : s.bits = [] := List.eq_nil_of_length_eq_zero hzero
    unfold scanMatch at hmatch
    rw [hnil] at hmatch
    simp only [List.drop_nil, List.getElem?_nil, scanItems, ite_self, reduceCtorEq] at hmatch
  | none =>
    simp only
    cases tst with
    | true => exact grows_same rfl rfl (fun _ => by decide)
    | false =>
      simp only [Bool.false_eq_true, if_false]
      have hlt : (if getWidth s * 32 % 2 ^ 32 < start then start
          else getWidth s * 32 % 2 ^ 32) < 2 ^ 32 := by
        split
        · exact hstart
        · exact Nat.mod_lt _ (by decide)
      exact (set_grows s hlt true).congr (by simp)

/-- The bits left after the items that exist, for the whole range. -/
theorem inclItems_left_zero (val : Bool) (m : Item) (items : List Item) :
    (inclItems val (m :: items) 0 0).2 = 2 ^ 32 - 32 * (items.length + 1) := by
  have hstep : (inclItem val 0 m 0).2 = 2 ^ 32 - 32 := by
    unfold inclItem
    rw [if_neg (by decide)]
    exact fillItem_left_zero val 31 0 m
  unfold inclItems
  simp only [hstep]
  rw [if_neg (by decide)]
  simp only
  rw [inclItems_left val items 0 (2 ^ 32 - 32) (by decide) (by decide) (by decide)]
  split
  next hnil =>
    rw [hnil]
    rfl
  next => omega

/-- The bits of a range that are left behind the last item. -/
theorem inclItems_left_range (val : Bool) {s : BitSet} {lo hi : ℕ} (hlo : lo ≤ hi)
    (hhi : hi < 2 ^ 32) (hin : lo / 32 < getWidth s) :
    (inclItems val (s.bits.drop (lo / 32)) (lo % 32) ((hi - lo + 1) % 2 ^ 32)).2 =
      hi + 1 - 32 * getWidth s := by
  have hlen : (s.bits.drop (lo / 32)).length = getWidth s - lo / 32 := List.length_drop
  by_cases hwhole : hi - lo + 1 = 2 ^ 32
  · have hlo0 : lo = 0 := by omega
    subst hlo0
    rw [hwhole, Nat.mod_self, Nat.zero_div, List.drop_zero, Nat.zero_mod]
    obtain ⟨m, items, hbits⟩ : ∃ m items, s.bits = m :: items := by
      cases hbits : s.bits with
      | nil =>
        unfold getWidth at hin
        rw [hbits] at hin
        exact absurd hin (Nat.not_lt_zero _)
      | cons m items => exact ⟨m, items, rfl⟩
    have hwidth : getWidth s = items.length + 1 := by
      unfold getWidth
      rw [hbits, List.length_cons]
    rw [hbits, inclItems_left_zero, hwidth]
    omega
  · have hnb : (hi - lo + 1) % 2 ^ 32 = hi - lo + 1 := Nat.mod_eq_of_lt (by omega)
    rw [hnb, inclItems_left val _ _ _ (by omega) (by omega) (by omega), if_neg, hlen]
    · omega
    · intro hnil
      rw [hnil, List.length_nil] at hlen
      omega

theorem inclRange_grows (s : BitSet) {lo hi : ℕ} (hhi : hi < 2 ^ 32) (val : Bool) :
    Grows s (inclRange s lo hi val)
      (val = true ∧ lo ≤ hi ∧ ¬ (lo = 0 ∧ hi = 2 ^ 32 - 1)) := by
  unfold inclRange
  by_cases hempty : hi < lo
  · rw [if_pos hempty]
    exact grows_same rfl rfl (fun _ hst => absurd hst.2.1 (Nat.not_le.mpr hempty))
  · rw [if_neg hempty]
    have hle : lo ≤ hi := Nat.le_of_not_lt hempty
    simp only
    by_cases hwidth : getWidth s ≤ lo / 32
    · rw [if_pos hwidth]
      cases val with
      | false => exact grows_same rfl rfl (fun _ hst => absurd hst.1 (by decide))
      | true =>
        simp only [if_true]
        by_cases hj : 0 < lo % 32
        · -- the range starts inside an item, which is added first
          have hnb : (hi - lo + 1) % 2 ^ 32 = hi - lo + 1 := Nat.mod_eq_of_lt (by omega)
          rw [if_pos hj, hnb]
          have hleft := fillItem_left true (32 - lo % 32) (lo % 32) 0#32 (hi - lo + 1) (by omega)
            (by omega)
          apply grows_added
          · simp only [List.length_append, List.length_replicate, List.length_cons,
              List.length_nil, hleft, length_tailItems]
            split <;> omega
          · intro _
            constructor
            · intro hnil
              exact absurd hnil (by simp)
            · intro hnot
              exact absurd ⟨trivial, hle, fun h => by omega⟩ hnot
        · rw [if_neg hj]
          apply grows_added
          · simp only [List.length_append, List.length_replicate, length_tailItems]
            split <;> omega
          · intro hzero
            rw [List.append_eq_nil_iff, ← List.length_eq_zero_iff, ← List.length_eq_zero_iff,
              List.length_replicate, length_tailItems]
            constructor
            · rintro ⟨hpad, htail⟩ ⟨-, -, hnot⟩
              apply hnot
              split at htail <;> omega
            · intro hnot
              have hwhole : lo = 0 ∧ hi = 2 ^ 32 - 1 := by
                by_contra hne
                exact hnot ⟨trivial, hle, hne⟩
              rw [hwhole.1, hwhole.2]
              exact ⟨by omega, by decide⟩
    · rw [if_neg hwidth]
      have hin : lo / 32 < getWidth s := Nat.lt_of_not_le hwidth
      have hleft := inclItems_left_range val hle hhi hin
      generalize hres : inclItems val (s.bits.drop (lo / 32)) (lo % 32)
        ((hi - lo + 1) % 2 ^ 32) = res at hleft ⊢
      have hlen := length_inclItems val (s.bits.drop (lo / 32)) (lo % 32)
        ((hi - lo + 1) % 2 ^ 32)
      rw [hres, List.length_drop] at hlen
      have hw : getWidth { s with bits := s.bits.take (lo / 32) ++ res.1 } = getWidth s := by
        unfold getWidth at hin ⊢
        simp only [List.length_append, List.length_take, hlen]
        omega
      have hpos : getWidth s ≠ 0 := by omega
      cases val with
      | false => exact grows_same rfl hw (fun hzero => absurd hzero hpos)
      | true =>
        simp only [if_true]
        have hadd : Grows { s with bits := s.bits.take (lo / 32) ++ res.1 }
            (addBitSets { s with bits := s.bits.take (lo / 32) ++ res.1 } (tailItems res.2))
            True := by
          apply grows_added
          · rw [hw, length_tailItems, hleft]
            split <;> omega
          · intro hzero
            rw [hw] at hzero
            exact absurd hzero hpos
        refine ⟨hadd.fixed, hw ▸ hadd.mono, hw ▸ hadd.bound, fun hzero => absurd hzero hpos⟩

/-- Every operation. -/
theorem step_grows (s : BitSet) (op : Operation) : Grows s (step s op) (Stores op) := by
  cases op with
  | set n val => exact set_grows s n.isLt val
  | incl lo hi =>
    have hincl := @inclRange_grows s lo.val hi.val hi.isLt true
    exact hincl.congr ⟨fun hst => hst.2, fun hst => ⟨rfl, hst⟩⟩
  | excl lo hi =>
    have hexcl := @inclRange_grows s lo.val hi.val hi.isLt false
    exact hexcl.congr ⟨fun hst => absurd hst.1 (by decide), fun hst => absurd hst id⟩
  | invert n => exact invert_grows s n.isLt
  | testSet n val => exact testSet_grows s n.isLt val
  | scanInvert start tst => exact scanInvert_grows s start.isLt tst

/-- A run keeps the bound, and ends without items when it starts so and stores none. -/
theorem run_grows (ops : List Operation) :
    ∀ s : BitSet, (run s ops).fixedMemory = s.fixedMemory ∧
      getWidth s ≤ getWidth (run s ops) ∧
      getWidth (run s ops) ≤ max (getWidth s) (2 ^ 27) ∧
      (getWidth (run s ops) = 0 ↔
        getWidth s = 0 ∧ (s.fixedMemory = true ∨ ∀ op ∈ ops, ¬ Stores op)) := by
  induction ops with
  | nil =>
    intro s
    refine ⟨rfl, le_rfl, le_max_left _ _, ?_⟩
    constructor
    · intro hzero
      exact ⟨hzero, .inr (fun op hop => absurd hop List.not_mem_nil)⟩
    · exact fun hzero => hzero.1
  | cons op ops ih =>
    intro s
    have hrun : run s (op :: ops) = run (step s op) ops := rfl
    obtain ⟨hfixed, hmono, hbound, hzero⟩ := ih (step s op)
    have hstep := step_grows s op
    rw [hrun]
    refine ⟨hfixed.trans hstep.fixed, hstep.mono.trans hmono, ?_, ?_⟩
    · have hb := hstep.bound
      omega
    · rw [hzero, hstep.fixed]
      constructor
      · rintro ⟨hstep0, hops⟩
        have hs0 : getWidth s = 0 := Nat.le_zero.mp (hstep0 ▸ hstep.mono)
        refine ⟨hs0, ?_⟩
        rcases (hstep.empty hs0).mp hstep0 with hmem | hop
        · exact .inl hmem
        · rcases hops with hmem | hops
          · exact .inl hmem
          · exact .inr (List.forall_mem_cons.mpr ⟨hop, hops⟩)
      · rintro ⟨hs0, hops⟩
        refine ⟨(hstep.empty hs0).mpr (hops.imp_right fun hall => hall op List.mem_cons_self), ?_⟩
        exact hops.imp_right fun hall => (List.forall_mem_cons.mp hall).2

/-- What is read back tells every bit as before, and nothing but what was written is read. -/
def RoundTrips (reserved : ℕ → Item) (writer : Kind) (s : BitSet) (reader : Kind) : Prop :=
  ∀ rest, ∃ s', deserialize reserved reader (serialize writer s ++ rest) = some (s', rest) ∧
    ∀ n : Fin (2 ^ 32), test s' n.val = test s n.val

variable {reserved : ℕ → Item} {s : BitSet}

/-- The number that the writer puts before the items. -/
def writtenCount (kind : Kind) (s : BitSet) : ℕ :=
  match kind with
  | .threadSafe => s.bits.length
  | .bitSet => 32 * getWidth s % 2 ^ 32

theorem serialize_eq (kind : Kind) (s : BitSet) (rest : List UInt8) :
    serialize kind s ++ rest =
      appendUnsigned (writtenCount kind s) ++ (appendItems s.bits ++ rest) := by
  cases kind with
  | threadSafe => exact List.append_assoc _ _ _
  | bitSet => exact List.append_assoc _ _ _

/-- A thread safe bit set read as such. -/
theorem roundTrips_threadSafe (hwidth : getWidth s < 2 ^ 32) :
    RoundTrips reserved .threadSafe s .threadSafe := by
  intro rest
  have hcount : writtenCount .threadSafe s % 2 ^ 32 = s.bits.length := Nat.mod_eq_of_lt hwidth
  refine ⟨{ bits := s.bits, fixedMemory := false }, ?_, fun n => rfl⟩
  unfold deserialize deserializeThreadSafeBitSet
  rw [serialize_eq, readUnsigned_append, hcount]
  simp only [Option.bind_eq_bind, Option.bind_some, readItems_append]
  rfl

/-- Nothing is written of a bit set without items but a zero, which every reader understands. -/
theorem roundTrips_empty (hwidth : getWidth s = 0) (writer reader : Kind) :
    RoundTrips reserved writer s reader := by
  have hnil : s.bits = [] := List.eq_nil_of_length_eq_zero hwidth
  have hcount : writtenCount writer s % 2 ^ 32 = 0 := by
    unfold writtenCount
    rw [hwidth, hnil]
    cases writer with
    | threadSafe => rfl
    | bitSet => rfl
  intro rest
  refine ⟨{ bits := [], fixedMemory := false }, ?_, ?_⟩
  · rw [serialize_eq, hnil]
    unfold deserialize deserializeThreadSafeBitSet deserializeBitSet
    cases reader with
    | threadSafe =>
      rw [readUnsigned_append, hcount]
      rfl
    | bitSet =>
      simp only [readUnsigned_append, hcount, Option.bind_eq_bind, Option.bind_some,
        Nat.zero_div, List.range_zero, List.map_nil]
      rfl
  · intro n
    unfold test
    rw [hnil]

/-- `CBitSet` reads none of the items. -/
theorem not_roundTrips_bitSet (hwidth : getWidth s ≠ 0) (writer : Kind) :
    ¬ RoundTrips reserved writer s .bitSet := by
  intro hround
  obtain ⟨s', hread, -⟩ := hround []
  unfold deserialize deserializeBitSet at hread
  simp only [serialize_eq, readUnsigned_append, Option.bind_eq_bind, Option.bind_some] at hread
  have hnil : appendItems s.bits ++ [] = [] := congrArg Prod.snd (Option.some.inj hread)
  have hlen := length_appendItems s.bits
  rw [List.append_nil] at hnil
  rw [hnil, List.length_nil] at hlen
  unfold getWidth at hwidth
  omega

/-- `CBitSetThreadSafe` takes the number of bits for the number of items. -/
theorem not_roundTrips_threadSafe (hwidth : getWidth s ≠ 0) (hbound : getWidth s < 2 ^ 32) :
    ¬ RoundTrips reserved .bitSet s .threadSafe := by
  intro hround
  obtain ⟨s', hread, -⟩ := hround []
  unfold deserialize deserializeThreadSafeBitSet at hread
  simp only [serialize_eq, readUnsigned_append, Option.bind_eq_bind, Option.bind_some,
    Option.bind_eq_some_iff] at hread
  obtain ⟨⟨items, rest⟩, hitems, hreturn⟩ := hread
  cases hreturn
  have hlen := length_of_readItems _ _ _ _ hitems
  rw [List.append_nil, length_appendItems, List.length_nil] at hlen
  have hcount : writtenCount .bitSet s % 2 ^ 32 = 32 * getWidth s % 2 ^ 32 := Nat.mod_mod _ _
  have hw : s.bits.length = getWidth s := rfl
  rw [hcount, hw] at hlen
  omega

/-- The items a bit set starts with are fewer than `2 ^ 30`. -/
theorem Created.getWidth_bitSet (c : Created) : getWidth c.bitSet < 2 ^ 30 := by
  cases c with
  | createThreadSafeBitSet => exact Nat.two_pow_pos 30
  | createBitSet initialBits =>
    unfold getWidth Created.bitSet bitSetUnits
    rw [List.length_replicate]
    omega
  | createFixedBitSet mem hmem =>
    unfold getWidth Created.bitSet
    simp only
    omega

/-- A bit set that a run has led to comes back exactly when both its ends are thread safe, or
when it has no items: when it started with none, and its memory is fixed or no operation stored
one. -/
theorem roundTrips_iff (c : Created) (ops : List Operation) (reader : Kind)
    (reserved : ℕ → Item) :
    RoundTrips reserved c.kind (run c.bitSet ops) reader ↔
      (c.kind = .threadSafe ∧ reader = .threadSafe) ∨
        (getWidth c.bitSet = 0 ∧
          (c.bitSet.fixedMemory = true ∨ ∀ op ∈ ops, ¬ Stores op)) := by
  obtain ⟨-, -, hbound, hzero⟩ := run_grows ops c.bitSet
  have hstart := c.getWidth_bitSet
  have hlt : getWidth (run c.bitSet ops) < 2 ^ 32 := by omega
  rw [← hzero]
  by_cases hempty : getWidth (run c.bitSet ops) = 0
  · exact ⟨fun _ => .inr hempty, fun _ => roundTrips_empty hempty _ _⟩
  · constructor
    · intro hround
      left
      cases reader with
      | bitSet => exact absurd hround (not_roundTrips_bitSet hempty _)
      | threadSafe =>
        cases hkind : c.kind with
        | threadSafe => exact ⟨rfl, rfl⟩
        | bitSet =>
          rw [hkind] at hround
          exact absurd hround (not_roundTrips_threadSafe hempty hlt)
    · rintro (⟨hkind, rfl⟩ | hzero')
      · rw [hkind]
        exact roundTrips_threadSafe hlt
      · exact absurd hzero' hempty

/-- A thread safe bit set with bit 3, read back as a `CBitSet`: the bit is gone and the item is
left in the buffer. -/
theorem threadSafe_lost_in_bitSet :
    deserializeBitSet (fun _ => 0#32)
        (serialize .threadSafe (run Created.createThreadSafeBitSet.bitSet [.set 3 true])) =
      some ({ bits := [], fixedMemory := false }, [8, 0, 0, 0]) ∧
    ¬ RoundTrips (fun _ => 0#32) .threadSafe
      (run Created.createThreadSafeBitSet.bitSet [.set 3 true]) .bitSet := by
  refine ⟨by rfl, ?_⟩
  exact not_roundTrips_bitSet (by decide) _

end BitSets
