import HpccPlatform.BitSet.Serialization
import HpccPlatform.Library.PackedBits

/-!
# A bit set as an infinite vector of bits

What the operations of `CBitSetBase` in `jlib/jset.cpp` return, and what they do to the bits of a
set that can grow: the bits behind the last item are clear.
-/

namespace BitSets

open PackedBits

/-! ### The results -/

/-- The result of `invert`. -/
def invertResult (s : BitSet) (n : ℕ) : Bool :=
  match s.bits[n / 32]? with
  | none => true
  | some m => decide (0#32 = m &&& bit (n % 32))

/-- The result of `testSet`. -/
def testSetResult (s : BitSet) (n : ℕ) : Bool :=
  match s.bits[n / 32]? with
  | none => false
  | some m => decide (m &&& bit (n % 32) ≠ 0#32)

/-- The result of `_scan`, with or without the inversion. -/
def scan (s : BitSet) (start : ℕ) (tst : Bool) : ℕ :=
  match scanMatch s start tst with
  | some (i, pos) => (i * 32 + pos) % 2 ^ 32
  | none =>
    if tst then 2 ^ 32 - 1
    else
      let ret := getWidth s * 32 % 2 ^ 32
      if ret < start then start else ret

inductive Call where
  | set (n : Fin (2 ^ 32)) (val : Bool)
  | invert (n : Fin (2 ^ 32))
  | test (n : Fin (2 ^ 32))
  | testSet (n : Fin (2 ^ 32)) (val : Bool)
  | incl (lo hi : Fin (2 ^ 32))
  | excl (lo hi : Fin (2 ^ 32))
  | scan (start : Fin (2 ^ 32)) (tst : Bool)
  | scanInvert (start : Fin (2 ^ 32)) (tst : Bool)

inductive Reply where
  | done
  | flag (b : Bool)
  | index (n : ℕ)
  deriving DecidableEq

def call (s : BitSet) : Call → Reply × BitSet
  | .set n val => (.done, set s n.val val)
  | .invert n => (.flag (invertResult s n.val), invert s n.val)
  | .test n => (.flag (test s n.val), s)
  | .testSet n val => (.flag (testSetResult s n.val), testSet s n.val val)
  | .incl lo hi => (.done, incl s lo.val hi.val)
  | .excl lo hi => (.done, excl s lo.val hi.val)
  | .scan start tst => (.index (scan s start.val tst), s)
  | .scanInvert start tst => (.index (scan s start.val tst), scanInvert s start.val tst)

/-! ### One item -/

variable {s : BitSet} {m : Item} {i j k n lo hi start c fuel : ℕ} {val tst : Bool}

theorem getLsbD_bit (hj : j < 32) (k : ℕ) : (bit j).getLsbD k = decide (k = j) := by
  rw [bit, BitVec.getLsbD_shiftLeft, BitVec.getLsbD_one]
  by_cases hkj : k = j
  · subst hkj
    simp [hj]
  · rw [decide_eq_false hkj]
    by_cases hlt : k < j
    · simp [hlt]
    · have hne : k - j ≠ 0 := by omega
      simp [hne]

theorem and_bit_eq_zero (hj : j < 32) : m &&& bit j = 0#32 ↔ m.getLsbD j = false := by
  constructor
  · intro h
    have hbit := congrArg (fun x => x.getLsbD j) h
    simpa [getLsbD_bit hj] using hbit
  · intro h
    refine BitVec.eq_of_getLsbD_eq fun k _ => ?_
    rw [BitVec.getLsbD_and, getLsbD_bit hj, BitVec.getLsbD_zero]
    by_cases hkj : k = j
    · rw [hkj, h, Bool.false_and]
    · rw [decide_eq_false hkj, Bool.and_false]

/-- One bit of an item is written. -/
theorem getLsbD_write (hj : j < 32) (hk : k < 32) :
    (if val then m ||| bit j else m &&& ~~~(bit j)).getLsbD k =
      if k = j then val else m.getLsbD k := by
  cases val with
  | true =>
    rw [if_pos rfl, BitVec.getLsbD_or, getLsbD_bit hj]
    by_cases hkj : k = j <;> simp [hkj]
  | false =>
    rw [if_neg Bool.false_ne_true, BitVec.getLsbD_and, BitVec.getLsbD_not, getLsbD_bit hj,
      decide_eq_true hk]
    by_cases hkj : k = j <;> simp [hkj]

/-- The loop over an item writes `c` bits from `j` on, and the counter is what is left of them. -/
theorem fillItem_getLsbD (hj : j + fuel ≤ 32) (hc : 0 < c) (hc' : c ≤ 2 ^ 32) (hk : k < 32) :
    (fillItem val fuel j m (c % 2 ^ 32)).1.getLsbD k =
      if j ≤ k ∧ k < j + fuel ∧ k < j + c then val else m.getLsbD k := by
  induction fuel generalizing j m c with
  | zero => rw [fillItem, if_neg (by omega)]
  | succ fuel ih =>
    have hpred : (c % 2 ^ 32 + (2 ^ 32 - 1)) % 2 ^ 32 = c - 1 := by omega
    rw [fillItem, hpred]
    by_cases hone : c - 1 = 0
    · rw [if_pos hone, getLsbD_write (by omega) hk]
      exact if_congr (by omega) rfl rfl
    · have hnext := ih (j := j + 1) (c := c - 1)
        (m := if val then m ||| bit j else m &&& ~~~(bit j)) (by omega) (Nat.pos_of_ne_zero hone)
        (by omega)
      rw [Nat.mod_eq_of_lt (by omega), getLsbD_write (by omega) hk] at hnext
      rw [if_neg hone, hnext]
      split_ifs <;> first | rfl | omega

theorem fillItem_count (hfuel : 0 < fuel) (hc : 0 < c) (hc' : c ≤ 2 ^ 32) (hle : fuel ≤ 2 ^ 32) :
    (fillItem val fuel j m (c % 2 ^ 32)).2 = c - fuel := by
  rcases Nat.lt_or_eq_of_le hc' with hlt | rfl
  · rw [Nat.mod_eq_of_lt hlt, fillItem_left val fuel j m c hc hlt]
  · obtain ⟨fuel, rfl⟩ := Nat.exists_eq_add_of_lt hfuel
    rw [Nat.mod_self, Nat.zero_add, fillItem_left_zero]
    omega

theorem inclItem_getLsbD (hj : j < 32) (hc : 0 < c) (hc' : c ≤ 2 ^ 32) (hk : k < 32) :
    (inclItem val j m (c % 2 ^ 32)).1.getLsbD k =
      if j ≤ k ∧ k < j + c then val else m.getLsbD k := by
  rw [inclItem]
  split_ifs with hwhole hval h h
  · rw [hval, BitVec.getLsbD_allOnes, decide_eq_true hk]
  · have := Nat.mod_le c (2 ^ 32)
    omega
  · rw [BitVec.getLsbD_zero, Bool.eq_false_iff.2 hval]
  · have := Nat.mod_le c (2 ^ 32)
    omega
  · rw [fillItem_getLsbD (by omega) hc hc' hk, if_pos (by omega)]
  · rw [fillItem_getLsbD (by omega) hc hc' hk, if_neg (by omega)]

theorem inclItem_count (hj : j < 32) (hc : 0 < c) (hc' : c ≤ 2 ^ 32) :
    (inclItem val j m (c % 2 ^ 32)).2 = c - (32 - j) := by
  rw [inclItem]
  by_cases hwhole : 32 ≤ c % 2 ^ 32 ∧ j = 0
  · have hlt : c < 2 ^ 32 := by
      rcases Nat.lt_or_eq_of_le hc' with hlt | rfl
      · exact hlt
      · exact absurd hwhole.1 (by decide)
    rw [if_pos hwhole, Nat.mod_eq_of_lt hlt, hwhole.2]
  · rw [if_neg hwhole]
    exact fillItem_count (by omega) hc hc' (by omega)

/-! ### Rows of items -/

/-- The loop over the items that exist writes `c` bits from `j` on. -/
theorem bitAt_inclItems (items : List Item) (hj : j < 32) (hc : 0 < c) (hc' : c ≤ 2 ^ 32)
    (p : ℕ) : bitAt (inclItems val items j (c % 2 ^ 32)).1 p =
      if j ≤ p ∧ p < j + c ∧ p < 32 * items.length then val else bitAt items p := by
  induction items generalizing j c p with
  | nil => rw [inclItems, List.length_nil, if_neg (by omega)]
  | cons m items ih =>
    rw [inclItems]
    dsimp only
    rw [inclItem_count hj hc hc', List.length_cons]
    by_cases hdone : c - (32 - j) = 0
    · rw [if_pos hdone, bitAt_cons (by decide), bitAt_cons (by decide)]
      by_cases hp : p < 32
      · rw [if_pos hp, if_pos hp, inclItem_getLsbD hj hc hc' hp]
        exact if_congr (by omega) rfl rfl
      · rw [if_neg hp, if_neg hp, if_neg (by omega)]
    · have hmod : c - (32 - j) = (c - (32 - j)) % 2 ^ 32 := (Nat.mod_eq_of_lt (by omega)).symm
      rw [if_neg hdone, bitAt_cons (by decide), bitAt_cons (by decide)]
      by_cases hp : p < 32
      · rw [if_pos hp, if_pos hp, inclItem_getLsbD hj hc hc' hp]
        exact if_congr (by omega) rfl rfl
      · rw [if_neg hp, if_neg hp, hmod, ih (by decide) (by omega) (by omega)]
        exact if_congr (by omega) rfl rfl

theorem bitAt_singleton (m : Item) (p : ℕ) :
    bitAt [m] p = if p < 32 then m.getLsbD p else false := by
  rw [bitAt_cons (by decide)]
  exact if_congr Iff.rfl rfl (bitAt_nil _)

theorem bitAt_tailItems (nb p : ℕ) : bitAt (tailItems nb) p = decide (p < nb) := by
  rw [tailItems, bitAt_append (by decide), List.length_replicate,
    bitAt_replicate_allOnes (by decide)]
  by_cases hp : p < 32 * (nb / 32)
  · rw [if_pos hp, decide_eq_true hp, decide_eq_true (by omega)]
  · rw [if_neg hp]
    by_cases hrest : nb % 32 = 0
    · rw [if_pos hrest, bitAt_nil, decide_eq_false (by omega)]
    · rw [if_neg hrest, bitAt_singleton]
      have hmod : nb % 32 = nb % 32 % 2 ^ 32 := (Nat.mod_eq_of_lt (by omega)).symm
      split_ifs with hp'
      · rw [hmod, fillItem_getLsbD (by omega) (by omega) (by omega) hp', BitVec.getLsbD_zero]
        by_cases hin : p < nb
        · rw [if_pos (by omega), decide_eq_true hin]
        · rw [if_neg (by omega), decide_eq_false hin]
      · rw [decide_eq_false (by omega)]

/-! ### The operations on bits -/

theorem test_eq (s : BitSet) (n : ℕ) : test s n = bitAt s.bits n := by
  rw [test]
  cases hget : s.bits[n / 32]? with
  | none =>
    have hle := List.getElem?_eq_none_iff.1 hget
    exact (bitAt_of_le (by omega) (by decide)).symm
  | some m =>
    have hbit := getLsbD_of_getElem? hget
    rw [← hbit]
    cases h : m.getLsbD (n % 32) with
    | false => exact decide_eq_false fun hne => hne ((and_bit_eq_zero (Nat.mod_lt _ (by decide))).2 h)
    | true =>
      refine decide_eq_true fun hzero => ?_
      rw [and_bit_eq_zero (Nat.mod_lt _ (by decide)), h] at hzero
      cases hzero

theorem test_of_width_le (h : 32 * getWidth s ≤ n) : test s n = false := by
  rw [test_eq]
  exact bitAt_of_le h (by decide)

/-- Items are added to a set that can grow. -/
theorem test_addBitSets (hs : s.fixedMemory = false) (items : List Item) (k : ℕ) :
    test (addBitSets s items) k =
      if k < 32 * getWidth s then test s k else bitAt items (k - 32 * getWidth s) := by
  rw [addBitSets, hs, if_neg Bool.false_ne_true, test_eq, test_eq]
  exact bitAt_append (by decide) s.bits items k

theorem bitAt_padTo (hn : getWidth s ≤ n / 32) (k : ℕ) :
    bitAt (padTo s (n / 32) (bit (n % 32))) k = decide (k + 32 * getWidth s = n) := by
  rw [padTo, bitAt_append (by decide), List.length_replicate, bitAt_replicate_zero,
    bitAt_singleton]
  split_ifs with h h'
  · exact (decide_eq_false (by omega)).symm
  · rw [getLsbD_bit (Nat.mod_lt _ (by decide))]
    exact decide_eq_decide.2 (by omega)
  · exact (decide_eq_false (by omega)).symm

/-- A bit behind the last item is set. -/
theorem test_pad (hs : s.fixedMemory = false) (hn : s.bits[n / 32]? = none) (k : ℕ) :
    test (addBitSets s (padTo s (n / 32) (bit (n % 32)))) k = if k = n then true else test s k := by
  have hwidth : getWidth s ≤ n / 32 := List.getElem?_eq_none_iff.1 hn
  rw [test_addBitSets hs]
  split_ifs with h h'
  · omega
  · rfl
  · rw [bitAt_padTo hwidth, decide_eq_true (by omega)]
  · rw [bitAt_padTo hwidth, decide_eq_false (by omega), test_of_width_le (Nat.not_lt.1 h)]

/-- One item is replaced by another that differs in one bit. -/
theorem test_setItem (hget : s.bits[n / 32]? = some m) {m' : Item} {b : Bool}
    (hm' : ∀ k < 32, m'.getLsbD k = if k = n % 32 then b else m.getLsbD k) (k : ℕ) :
    test { s with bits := s.bits.set (n / 32) m' } k = if k = n then b else test s k := by
  have hlt := (List.getElem?_eq_some_iff.1 hget).1
  rw [test_eq, test_eq, bitAt_set hlt]
  by_cases hk : k / 32 = n / 32
  · rw [if_pos hk, hm' _ (Nat.mod_lt _ (by decide)), getLsbD_of_getElem? (hk ▸ hget)]
    exact if_congr (by omega) rfl rfl
  · rw [if_neg hk, if_neg (by omega)]

theorem test_set (hs : s.fixedMemory = false) (n : ℕ) (val : Bool) (k : ℕ) :
    test (set s n val) k = if k = n then val else test s k := by
  rw [set]
  cases hget : s.bits[n / 32]? with
  | none =>
    cases val with
    | true => exact test_pad hs hget k
    | false =>
      have hwidth : getWidth s ≤ n / 32 := List.getElem?_eq_none_iff.1 hget
      change test s k = _
      split_ifs with hk
      · exact test_of_width_le (by omega)
      · rfl
  | some m => exact test_setItem hget (fun k hk => getLsbD_write (Nat.mod_lt _ (by decide)) hk) k

theorem decide_and_bit (hget : s.bits[n / 32]? = some m) :
    m &&& bit (n % 32) = 0#32 ↔ test s n = false := by
  rw [and_bit_eq_zero (Nat.mod_lt _ (by decide)), getLsbD_of_getElem? hget, ← test_eq]

theorem test_invert (hs : s.fixedMemory = false) (n k : ℕ) :
    test (invert s n) k = if k = n then !test s n else test s k := by
  rw [invert]
  cases hget : s.bits[n / 32]? with
  | none =>
    have hwidth : getWidth s ≤ n / 32 := List.getElem?_eq_none_iff.1 hget
    rw [test_of_width_le (n := n) (by omega)]
    exact test_pad hs hget k
  | some m =>
    dsimp only
    by_cases hbit : m &&& bit (n % 32) = 0#32
    · rw [if_pos hbit, (decide_and_bit hget).1 hbit]
      exact test_setItem hget
        (fun k hk => @getLsbD_write m (n % 32) k true (Nat.mod_lt _ (by decide)) hk) k
    · rw [if_neg hbit, Bool.eq_true_of_not_eq_false fun h => hbit ((decide_and_bit hget).2 h)]
      exact test_setItem hget
        (fun k hk => @getLsbD_write m (n % 32) k false (Nat.mod_lt _ (by decide)) hk) k

theorem invertResult_eq (s : BitSet) (n : ℕ) : invertResult s n = !test s n := by
  rw [invertResult]
  cases hget : s.bits[n / 32]? with
  | none =>
    have hwidth : getWidth s ≤ n / 32 := List.getElem?_eq_none_iff.1 hget
    rw [test_of_width_le (n := n) (by omega)]
    rfl
  | some m =>
    have hiff := decide_and_bit hget
    dsimp only
    cases h : test s n with
    | false => exact decide_eq_true (hiff.2 h).symm
    | true =>
      refine decide_eq_false fun hzero => ?_
      rw [hiff.1 hzero.symm] at h
      cases h

theorem testSetResult_eq (s : BitSet) (n : ℕ) : testSetResult s n = test s n := rfl

theorem test_testSet (hs : s.fixedMemory = false) (n : ℕ) (val : Bool) (k : ℕ) :
    test (testSet s n val) k = if k = n then val else test s k := by
  rw [← test_set hs, testSet, set]
  cases hget : s.bits[n / 32]? with
  | none => rfl
  | some m =>
    have hiff := decide_and_bit hget
    have hsame : ∀ b, test s n = b → test s k = if k = n then b else test s k := by
      rintro b rfl
      split_ifs with hk
      · rw [hk]
      · rfl
    have hset := test_set hs n val k
    rw [set, hget] at hset
    dsimp only at hset ⊢
    rw [hset]
    cases val with
    | true =>
      by_cases hbit : m &&& bit (n % 32) = 0#32
      · rw [if_neg (fun h => h hbit), if_pos rfl]
        exact test_setItem hget
          (fun k hk => @getLsbD_write m (n % 32) k true (Nat.mod_lt _ (by decide)) hk) k
      · rw [if_pos hbit, if_pos rfl]
        exact hsame true (Bool.eq_true_of_not_eq_false fun h => hbit (hiff.2 h))
    | false =>
      by_cases hbit : m &&& bit (n % 32) = 0#32
      · rw [if_neg (fun h => h hbit), if_neg Bool.false_ne_true]
        exact hsame false (hiff.1 hbit)
      · rw [if_pos hbit, if_neg Bool.false_ne_true]
        exact test_setItem hget
          (fun k hk => @getLsbD_write m (n % 32) k false (Nat.mod_lt _ (by decide)) hk) k

/-! ### Ranges -/

/-- A range behind the last item. -/
theorem test_incl_behind (hs : s.fixedMemory = false) (hle : lo ≤ hi) (hhi : hi < 2 ^ 32)
    (hwidth : getWidth s ≤ lo / 32) (hok : ¬ (lo = 0 ∧ hi = 2 ^ 32 - 1)) (k : ℕ) :
    test (inclRange s lo hi true) k = if lo ≤ k ∧ k ≤ hi then true else test s k := by
  have hnb : (hi - lo + 1) % 2 ^ 32 = hi - lo + 1 := Nat.mod_eq_of_lt (by omega)
  have hlast : 32 * getWidth s ≤ k → test s k = false := fun h => test_of_width_le h
  rw [inclRange, if_neg (Nat.not_lt.2 hle)]
  dsimp only
  rw [if_pos hwidth, if_pos rfl, hnb]
  by_cases hj : 0 < lo % 32
  · -- the first item starts inside the range
    have hcount : (fillItem true (32 - lo % 32) (lo % 32) 0#32 (hi - lo + 1)).2 =
        hi - lo + 1 - (32 - lo % 32) :=
      fillItem_left true _ _ _ _ (Nat.succ_pos _) (by omega)
    have hbits : ∀ p < 32, (fillItem true (32 - lo % 32) (lo % 32) 0#32 (hi - lo + 1)).1.getLsbD p =
        decide (lo % 32 ≤ p ∧ p < lo % 32 + (hi - lo + 1)) := by
      intro p hp
      rw [← hnb, fillItem_getLsbD (by omega) (Nat.succ_pos _) (by omega) hp, BitVec.getLsbD_zero]
      split_ifs with h
      · exact (decide_eq_true (by omega)).symm
      · exact (decide_eq_false (by omega)).symm
    rw [if_pos hj, test_addBitSets hs, bitAt_append (by decide), bitAt_append (by decide),
      List.length_append, List.length_replicate, List.length_singleton, bitAt_replicate_zero,
      bitAt_singleton, bitAt_tailItems, hcount]
    by_cases hk : k < 32 * getWidth s
    · rw [if_pos hk, if_neg (by omega)]
    rw [if_neg hk, hlast (Nat.not_lt.1 hk)]
    split_ifs with h₁ h₂ h₃ h₄ h₅ h₆ h₇
    all_goals first | rfl | omega | skip
    · rw [hbits _ (by omega), decide_eq_true (by omega)]
    · rw [hbits _ (by omega), decide_eq_false (by omega)]
    · exact decide_eq_true (by omega)
    · exact decide_eq_false (by omega)
  · rw [if_neg hj, test_addBitSets hs, bitAt_append (by decide), List.length_replicate,
      bitAt_replicate_zero, bitAt_tailItems]
    by_cases hk : k < 32 * getWidth s
    · rw [if_pos hk, if_neg (by omega)]
    rw [if_neg hk, hlast (Nat.not_lt.1 hk)]
    split_ifs with h₁ h₂ h₃
    all_goals first | rfl | omega | skip
    · exact decide_eq_true (by omega)
    · exact decide_eq_false (by omega)

/-- A range that begins in an item that exists. -/
theorem test_incl_inside (hs : s.fixedMemory = false) (hle : lo ≤ hi) (hhi : hi < 2 ^ 32)
    (hwidth : lo / 32 < getWidth s) (val : Bool) (k : ℕ) :
    test (inclRange s lo hi val) k = if lo ≤ k ∧ k ≤ hi then val else test s k := by
  have hleft := inclItems_left_range val hle hhi hwidth
  have hitems : ∀ p, bitAt (inclItems val (s.bits.drop (lo / 32)) (lo % 32)
      ((hi - lo + 1) % 2 ^ 32)).1 p = if lo % 32 ≤ p ∧ p < lo % 32 + (hi - lo + 1) ∧
        p < 32 * (getWidth s - lo / 32) then val else test s (32 * (lo / 32) + p) := by
    intro p
    rw [bitAt_inclItems _ (Nat.mod_lt _ (by decide)) (Nat.succ_pos _) (by omega), test_eq,
      ← bitAt_drop (by decide), List.length_drop]
    rfl
  have hlen := length_inclItems val (s.bits.drop (lo / 32)) (lo % 32) ((hi - lo + 1) % 2 ^ 32)
  rw [inclRange, if_neg (Nat.not_lt.2 hle)]
  dsimp only
  rw [if_neg (Nat.not_le.2 hwidth)]
  generalize inclItems val (s.bits.drop (lo / 32)) (lo % 32) ((hi - lo + 1) % 2 ^ 32) = r at *
  obtain ⟨items, nb⟩ := r
  dsimp only at hleft hitems hlen ⊢
  rw [List.length_drop] at hlen
  have htake : (s.bits.take (lo / 32)).length = lo / 32 := List.length_take_of_le hwidth.le
  have hw : getWidth { s with bits := s.bits.take (lo / 32) ++ items } = getWidth s := by
    change (s.bits.take (lo / 32) ++ items).length = s.bits.length
    rw [List.length_append, htake, hlen]
    exact Nat.add_sub_cancel' hwidth.le
  have hold : k < 32 * getWidth s →
      test { s with bits := s.bits.take (lo / 32) ++ items } k =
        if lo ≤ k ∧ k ≤ hi then val else test s k := by
    intro hk
    rw [test_eq, bitAt_append (by decide), htake, bitAt_take (by decide) _ hwidth.le, ← test_eq]
    by_cases hfront : k < 32 * (lo / 32)
    · rw [if_pos hfront, if_pos hfront, if_neg (by omega)]
    · rw [if_neg hfront, hitems, Nat.add_sub_cancel' (Nat.not_lt.1 hfront)]
      exact if_congr (by omega) rfl rfl
  cases val with
  | false =>
    change test { s with bits := s.bits.take (lo / 32) ++ items } k = _
    by_cases hk : k < 32 * getWidth s
    · exact hold hk
    · rw [test_of_width_le (hw.symm ▸ Nat.not_lt.1 hk), test_of_width_le (Nat.not_lt.1 hk), ite_self]
  | true =>
    rw [if_pos rfl, test_addBitSets (by exact hs), hw, bitAt_tailItems, hleft]
    by_cases hk : k < 32 * getWidth s
    · rw [if_pos hk, hold hk]
    · rw [if_neg hk, test_of_width_le (Nat.not_lt.1 hk)]
      split_ifs with h
      · exact decide_eq_true (by omega)
      · exact decide_eq_false (by omega)

/-- Only for the whole range and no items does `incl` do nothing. -/
theorem test_inclRange (hs : s.fixedMemory = false) (hhi : hi < 2 ^ 32)
    (hok : ¬ (val = true ∧ lo = 0 ∧ hi = 2 ^ 32 - 1 ∧ getWidth s = 0)) (k : ℕ) :
    test (inclRange s lo hi val) k = if lo ≤ k ∧ k ≤ hi then val else test s k := by
  by_cases hle : lo ≤ hi
  swap
  · rw [inclRange, if_pos (Nat.not_le.1 hle), if_neg fun h => hle (h.1.trans h.2)]
  by_cases hwidth : lo / 32 < getWidth s
  · exact test_incl_inside hs hle hhi hwidth val k
  rw [Nat.not_lt] at hwidth
  cases val with
  | true => exact test_incl_behind hs hle hhi hwidth (fun h => hok ⟨rfl, h.1, h.2, by omega⟩) k
  | false =>
    rw [inclRange, if_neg (Nat.not_lt.2 hle)]
    dsimp only
    rw [if_pos hwidth, if_neg Bool.false_ne_true]
    split_ifs with h
    · exact test_of_width_le (by omega)
    · rfl

theorem inclRange_whole_empty (hwidth : getWidth s = 0) (hs : s.fixedMemory = false) :
    inclRange s 0 (2 ^ 32 - 1) true = s := by
  have hbits : s.bits = [] := List.length_eq_zero_iff.1 hwidth
  obtain ⟨bits, fixedMemory⟩ := s
  obtain rfl := hbits
  obtain rfl := hs
  rfl

/-! ### Scans -/

/-- `r` is the first place from `start` on with the bit `tst`. -/
structure IsFirst (v : ℕ → Bool) (tst : Bool) (start r : ℕ) : Prop where
  le : start ≤ r
  bit : v r = tst
  before : ∀ k, start ≤ k → k < r → v k ≠ tst

theorem countTrailingUnsetBits_spec (h : m ≠ 0#32) :
    countTrailingUnsetBits m < 32 ∧ m.getLsbD (countTrailingUnsetBits m) = true ∧
      ∀ k < countTrailingUnsetBits m, m.getLsbD k = false := by
  rw [countTrailingUnsetBits]
  cases hfind : (List.range 32).find? fun i => m.getLsbD i with
  | none =>
    rw [List.find?_eq_none] at hfind
    refine absurd (BitVec.eq_of_getLsbD_eq fun k hk => ?_) h
    rw [BitVec.getLsbD_zero]
    exact Bool.eq_false_iff.2 (hfind k (List.mem_range.2 hk))
  | some r =>
    rw [List.find?_range_eq_some] at hfind
    obtain ⟨hr, hmem, hbefore⟩ := hfind
    refine ⟨List.mem_range.1 hmem, hr, fun k hk => ?_⟩
    have := hbefore k hk
    rwa [Bool.not_eq_true'] at this

def noMatchMask (tst : Bool) : Item := if tst then 0#32 else BitVec.allOnes 32

theorem getLsbD_xor_mask (tst : Bool) (m : Item) (hk : k < 32) :
    (m ^^^ noMatchMask tst).getLsbD k = decide (m.getLsbD k = tst) := by
  rw [BitVec.getLsbD_xor, noMatchMask]
  cases tst with
  | true =>
    rw [if_pos rfl, BitVec.getLsbD_zero, Bool.xor_false]
    cases m.getLsbD k <;> rfl
  | false =>
    rw [if_neg Bool.false_ne_true, BitVec.getLsbD_allOnes, decide_eq_true hk]
    cases m.getLsbD k <;> rfl

theorem xor_mask_ne_zero (h : m ≠ noMatchMask tst) : m ^^^ noMatchMask tst ≠ 0#32 := by
  intro hzero
  exact h (BitVec.xor_eq_zero_iff.1 hzero)

theorem getLsbD_noMatchMask (hk : k < 32) : (noMatchMask tst).getLsbD k ≠ tst := by
  cases tst with
  | true =>
    rw [noMatchMask, if_pos rfl, BitVec.getLsbD_zero]
    exact Bool.false_ne_true
  | false =>
    rw [noMatchMask, if_neg Bool.false_ne_true, BitVec.getLsbD_allOnes, decide_eq_true hk]
    exact Bool.false_ne_true.symm

/-- The main loop of `_scan`. -/
theorem scanItems_spec (items : List Item) (i : ℕ) :
    match scanItems (noMatchMask tst) items i with
    | some (r, pos) => ∃ a < items.length, r = i + a ∧ pos < 32 ∧
        IsFirst (bitAt items) tst 0 (32 * a + pos)
    | none => ∀ p < 32 * items.length, bitAt items p ≠ tst := by
  induction items generalizing i with
  | nil => exact fun p hp => absurd hp (Nat.not_lt_zero p)
  | cons m items ih =>
    rw [scanItems]
    by_cases hm : m = noMatchMask tst
    · have hfirst : ∀ p < 32, bitAt (m :: items) p ≠ tst := by
        intro p hp
        rw [bitAt_cons (by decide), if_pos hp, hm]
        exact getLsbD_noMatchMask hp
      have htail : ∀ p, bitAt (m :: items) (32 + p) = bitAt items p := by
        intro p
        rw [bitAt_cons (by decide), if_neg (by omega), Nat.add_sub_cancel_left]
      have hall : ∀ p, (∀ q, p = 32 + q → bitAt items q ≠ tst) → bitAt (m :: items) p ≠ tst := by
        intro p hp
        by_cases hlt : p < 32
        · exact hfirst p hlt
        · obtain ⟨q, rfl⟩ := Nat.exists_eq_add_of_le (Nat.not_lt.1 hlt)
          rw [htail]
          exact hp q rfl
      rw [if_neg (fun hne => hne hm)]
      have hrest := ih (i + 1)
      cases hscan : scanItems (noMatchMask tst) items (i + 1) with
      | none =>
        rw [hscan] at hrest
        refine fun p hp => hall p fun q hq => hrest q ?_
        rw [List.length_cons] at hp
        omega
      | some r =>
        obtain ⟨r, pos⟩ := r
        rw [hscan] at hrest
        obtain ⟨a, ha, rfl, hpos, hbit⟩ := hrest
        have hplace : 32 * (a + 1) + pos = 32 + (32 * a + pos) := by omega
        refine ⟨a + 1, Nat.succ_lt_succ ha, by omega, hpos, Nat.zero_le _, ?_, fun k _ hk => ?_⟩
        · rw [hplace, htail]
          exact hbit.bit
        · exact hall k fun q hq => hbit.before q (Nat.zero_le q) (by omega)
    · obtain ⟨hlt, hbit, hbefore⟩ := countTrailingUnsetBits_spec (xor_mask_ne_zero hm)
      rw [getLsbD_xor_mask tst m hlt] at hbit
      rw [if_pos hm]
      refine ⟨0, Nat.succ_pos _, rfl, hlt, Nat.zero_le _, ?_, fun k _ hk => ?_⟩
      · rw [Nat.mul_zero, Nat.zero_add, bitAt_cons (by decide), if_pos hlt]
        exact of_decide_eq_true hbit
      · rw [Nat.mul_zero, Nat.zero_add] at hk
        have hno := hbefore k hk
        rw [getLsbD_xor_mask tst m (hk.trans hlt)] at hno
        rw [bitAt_cons (by decide), if_pos (hk.trans hlt)]
        exact of_decide_eq_false hno

/-- What the loops of `_scan` find. -/
def Scanned (s : BitSet) (start : ℕ) (tst : Bool) : Option (ℕ × ℕ) → Prop
  | some (i, pos) => i < getWidth s ∧ pos < 32 ∧ IsFirst (test s) tst start (32 * i + pos)
  | none => ∀ k, start ≤ k → k < 32 * getWidth s → test s k ≠ tst

/-- The main loop from an item on, where no bit before it matches. -/
theorem scanned_scanItems (i : ℕ) (hbefore : ∀ k, start ≤ k → k < 32 * i → test s k ≠ tst)
    (hstart : start ≤ 32 * i) :
    Scanned s start tst (scanItems (noMatchMask tst) (s.bits.drop i) i) := by
  have hbits : ∀ p, bitAt (s.bits.drop i) p = test s (32 * i + p) := by
    intro p
    rw [bitAt_drop (by decide), test_eq]
  have hall : ∀ p, (∀ q < p, bitAt (s.bits.drop i) q ≠ tst) → ∀ k, start ≤ k → k < 32 * i + p →
      test s k ≠ tst := by
    intro p hp k hk hlt
    by_cases hfront : k < 32 * i
    · exact hbefore k hk hfront
    · obtain ⟨q, rfl⟩ := Nat.exists_eq_add_of_le (Nat.not_lt.1 hfront)
      rw [← hbits]
      exact hp q (by omega)
  have hspec := @scanItems_spec tst (s.bits.drop i) i
  cases hscan : scanItems (noMatchMask tst) (s.bits.drop i) i with
  | none =>
    rw [hscan, List.length_drop] at hspec
    have hwidth : getWidth s = s.bits.length := rfl
    exact fun k hk hlt => hall _ hspec k hk (by omega)
  | some r =>
    obtain ⟨r, pos⟩ := r
    rw [hscan, List.length_drop] at hspec
    obtain ⟨a, ha, rfl, hpos, hfirst⟩ := hspec
    have hplace : 32 * (i + a) + pos = 32 * i + (32 * a + pos) := by omega
    refine ⟨Nat.add_lt_of_lt_sub' ha, hpos, by omega, ?_, ?_⟩
    · rw [hplace, ← hbits]
      exact hfirst.bit
    · rw [hplace]
      exact hall _ fun q hq => hfirst.before q (Nat.zero_le q) hq

theorem bit_sub_one_mask (hj : j < 32) (hk : k < 32) (x : Item) :
    (x &&& ~~~(bit j - 1#32)).getLsbD k = (x.getLsbD k && decide (j ≤ k)) := by
  have hmask : bit j - 1#32 = BitVec.ofNat 32 (2 ^ j - 1) := by
    have hpow : 2 ^ j < 2 ^ 32 := Nat.pow_lt_pow_right (by decide) hj
    have hpos : 0 < 2 ^ j := Nat.two_pow_pos j
    refine BitVec.eq_of_toNat_eq ?_
    rw [bit, BitVec.toNat_sub, BitVec.toNat_shiftLeft, BitVec.toNat_ofNat, BitVec.toNat_ofNat,
      Nat.shiftLeft_eq]
    omega
  rw [BitVec.getLsbD_and, BitVec.getLsbD_not, hmask, BitVec.getLsbD_ofNat,
    Nat.testBit_two_pow_sub_one, decide_eq_true hk, Bool.true_and, Bool.true_and]
  by_cases hjk : j ≤ k
  · rw [decide_eq_true hjk, decide_eq_false (Nat.not_lt.2 hjk), Bool.not_false]
  · rw [decide_eq_false hjk, decide_eq_true (Nat.not_le.1 hjk), Bool.not_true]

theorem scanMatch_spec (s : BitSet) (start : ℕ) (tst : Bool) :
    Scanned s start tst (scanMatch s start tst) := by
  rw [scanMatch]
  change Scanned s start tst (if start % 32 = 0 then
    scanItems (noMatchMask tst) (s.bits.drop (start / 32)) (start / 32) else
      match s.bits[start / 32]? with
      | none => scanItems (noMatchMask tst) (s.bits.drop (start / 32)) (start / 32)
      | some m =>
        if m ≠ noMatchMask tst ∧ (m ^^^ noMatchMask tst) &&& ~~~(bit (start % 32) - 1#32) ≠ 0#32 then
          some (start / 32, countTrailingUnsetBits
            ((m ^^^ noMatchMask tst) &&& ~~~(bit (start % 32) - 1#32)))
        else scanItems (noMatchMask tst) (s.bits.drop (start / 32 + 1)) (start / 32 + 1))
  have hj : start % 32 < 32 := Nat.mod_lt _ (by decide)
  by_cases hzero : start % 32 = 0
  · rw [if_pos hzero]
    exact scanned_scanItems _ (fun k hk hlt => by omega) (by omega)
  rw [if_neg hzero]
  cases hget : s.bits[start / 32]? with
  | none =>
    have hwidth : getWidth s ≤ start / 32 := List.getElem?_eq_none_iff.1 hget
    rw [List.drop_of_length_le hwidth]
    exact fun k hk hlt => by omega
  | some m =>
    have hlt := (List.getElem?_eq_some_iff.1 hget).1
    -- the bits of the first item from `start` on
    have hbit : ∀ k, start ≤ k → k < 32 * (start / 32 + 1) →
        (((m ^^^ noMatchMask tst) &&& ~~~(bit (start % 32) - 1#32)).getLsbD (k % 32) = true ↔
          test s k = tst) := by
      intro k hk hklt
      have hget' : s.bits[k / 32]? = some m := by rw [← hget]; congr 1; omega
      have hmod : k % 32 < 32 := Nat.mod_lt _ (by decide)
      rw [bit_sub_one_mask hj hmod, getLsbD_xor_mask tst m hmod, getLsbD_of_getElem? hget',
        ← test_eq, decide_eq_true (show start % 32 ≤ k % 32 by omega), Bool.and_true,
        decide_eq_true_iff]
    dsimp only
    by_cases hfound : m ≠ noMatchMask tst ∧
        (m ^^^ noMatchMask tst) &&& ~~~(bit (start % 32) - 1#32) ≠ 0#32
    · rw [if_pos hfound]
      obtain ⟨hpos, hset, hbefore⟩ := countTrailingUnsetBits_spec hfound.2
      generalize countTrailingUnsetBits
        ((m ^^^ noMatchMask tst) &&& ~~~(bit (start % 32) - 1#32)) = pos at *
      have hge : start % 32 ≤ pos := by
        rw [bit_sub_one_mask hj hpos, Bool.and_eq_true, decide_eq_true_iff] at hset
        exact hset.2
      refine ⟨hlt, hpos, by omega, ?_, fun k hk hkpos => ?_⟩
      · have hiff := hbit (32 * (start / 32) + pos) (by omega) (by omega)
        rw [Nat.mul_add_mod, Nat.mod_eq_of_lt hpos] at hiff
        exact hiff.1 hset
      · intro heq
        have hno := hbefore (k % 32) (by omega)
        rw [(hbit k hk (by omega)).2 heq] at hno
        cases hno
    · rw [if_neg hfound]
      refine scanned_scanItems _ (fun k hk hklt heq => ?_) (by omega)
      have hset := (hbit k hk hklt).2 heq
      refine hfound ⟨?_, ?_⟩
      · rintro rfl
        rw [BitVec.xor_self, BitVec.zero_and, BitVec.getLsbD_zero] at hset
        cases hset
      · intro hzero
        rw [hzero, BitVec.getLsbD_zero] at hset
        cases hset

theorem test_flip (hi : i < getWidth s) {pos : ℕ} (hpos : pos < 32) (k : ℕ) :
    test { s with bits := s.bits.modify i (· ^^^ bit pos) } k =
      if k = 32 * i + pos then !test s k else test s k := by
  have hdiv : (32 * i + pos) / 32 = i := by omega
  have hmod : (32 * i + pos) % 32 = pos := by omega
  have hget : s.bits[(32 * i + pos) / 32]? = some s.bits[i] := by
    rw [hdiv]
    exact List.getElem?_eq_getElem hi
  have hflip : ∀ q < 32, (s.bits[i] ^^^ bit pos).getLsbD q =
      if q = (32 * i + pos) % 32 then !test s (32 * i + pos) else s.bits[i].getLsbD q := by
    intro q hq
    rw [hmod, BitVec.getLsbD_xor, getLsbD_bit hpos, test_eq, ← getLsbD_of_getElem? hget, hmod]
    by_cases hqp : q = pos
    · rw [if_pos hqp, decide_eq_true hqp, hqp, Bool.xor_true]
    · rw [if_neg hqp, decide_eq_false hqp, Bool.xor_false]
  have hset := test_setItem hget hflip k
  rw [hdiv] at hset
  rw [List.modify_eq_set, List.getElem?_eq_getElem hi, Option.getD_some, hset]
  by_cases hk : k = 32 * i + pos
  · rw [if_pos hk, if_pos hk, hk]
  · rw [if_neg hk, if_neg hk]

/-! ### Runs -/

/-- The vector `v` with the bits from `lo` to `hi` written. -/
def written (v : ℕ → Bool) (lo hi : ℕ) (val : Bool) (k : ℕ) : Bool :=
  if lo ≤ k ∧ k ≤ hi then val else v k

/-- No bit is set from `start` on, and `r` says so. -/
structure NoneSet (v : ℕ → Bool) (tst : Bool) (start r : ℕ) : Prop where
  tst : tst = true
  result : r = 2 ^ 32 - 1
  clear : ∀ k, start ≤ k → v k = false

/-- What a call answers for an infinite vector of bits, and the vector after it. -/
def Expected (v : ℕ → Bool) : Call → Reply → (ℕ → Bool) → Prop
  | .set n val, reply, v' => reply = .done ∧ v' = written v n n val
  | .invert n, reply, v' => reply = .flag (!v n) ∧ v' = written v n n (!v n)
  | .test n, reply, v' => reply = .flag (v n) ∧ v' = v
  | .testSet n val, reply, v' => reply = .flag (v n) ∧ v' = written v n n val
  | .incl lo hi, reply, v' => reply = .done ∧ v' = written v lo hi true
  | .excl lo hi, reply, v' => reply = .done ∧ v' = written v lo hi false
  | .scan start tst, reply, v' => ∃ r, reply = .index r ∧
      (IsFirst v tst start r ∧ v' = v ∨ NoneSet v tst start r ∧ v' = v)
  | .scanInvert start tst, reply, v' => ∃ r, reply = .index r ∧
      (IsFirst v tst start r ∧ v' = written v r r (!tst) ∨ NoneSet v tst start r ∧ v' = v)

/-- The run answers as the vector does, and has its bits at every time. -/
def Correct (s : BitSet) (v : ℕ → Bool) : List Call → Prop
  | [] => ∀ n, test s n = v n
  | c :: calls => (∀ n, test s n = v n) ∧
      ∃ v', Expected v c (call s c).1 v' ∧ Correct (call s c).2 v' calls

/-- The call is not one of the two that go wrong: the whole range on a set without items, and the
search of a clear bit where every bit that an index can tell is set. -/
def Allowed (s : BitSet) : Call → Prop
  | .incl lo hi => ¬ (lo.val = 0 ∧ hi.val = 2 ^ 32 - 1 ∧ getWidth s = 0)
  | .scan start tst => tst = false → ∃ k, start.val ≤ k ∧ k < 2 ^ 32 ∧ test s k = false
  | .scanInvert start tst => tst = false → ∃ k, start.val ≤ k ∧ k < 2 ^ 32 ∧ test s k = false
  | _ => True

def AllAllowed (s : BitSet) : List Call → Prop
  | [] => True
  | c :: calls => Allowed s c ∧ AllAllowed (call s c).2 calls

/-- A set that can grow, with no more items than a bit number can tell. -/
structure Growing (s : BitSet) : Prop where
  grows : s.fixedMemory = false
  width : getWidth s ≤ 2 ^ 27

theorem Growing.of_grows {s' : BitSet} {p : Prop} (h : Growing s) (hg : Grows s s' p) :
    Growing s' :=
  ⟨hg.fixed.trans h.grows, hg.bound.trans (max_le h.width le_rfl)⟩

theorem Growing.call (h : Growing s) (c : Call) : Growing (call s c).2 := by
  cases c with
  | set n val => exact h.of_grows (set_grows s n.isLt val)
  | invert n => exact h.of_grows (invert_grows s n.isLt)
  | test n => exact h
  | testSet n val => exact h.of_grows (testSet_grows s n.isLt val)
  | incl lo hi => exact h.of_grows (inclRange_grows s hi.isLt true)
  | excl lo hi => exact h.of_grows (inclRange_grows s hi.isLt false)
  | scan start tst => exact h
  | scanInvert start tst => exact h.of_grows (scanInvert_grows s start.isLt tst)

/-- A scan finds a place, or there is none before the end of the items. -/
theorem scan_cases (h : Growing s) (start : ℕ) (tst : Bool) :
    (∃ i pos, scanMatch s start tst = some (i, pos) ∧ i < getWidth s ∧ pos < 32 ∧
      scan s start tst = 32 * i + pos ∧ IsFirst (test s) tst start (scan s start tst)) ∨
    scanMatch s start tst = none ∧ ∀ k, start ≤ k → k < 32 * getWidth s → test s k ≠ tst := by
  have hspec := scanMatch_spec s start tst
  cases hscan : scanMatch s start tst with
  | none =>
    rw [hscan] at hspec
    exact Or.inr ⟨rfl, hspec⟩
  | some r =>
    obtain ⟨i, pos⟩ := r
    rw [hscan] at hspec
    obtain ⟨hi, hpos, hfirst⟩ := hspec
    have hwidth := h.width
    have hret : scan s start tst = 32 * i + pos := by
      rw [scan, hscan]
      change (i * 32 + pos) % 2 ^ 32 = _
      rw [Nat.mod_eq_of_lt (by omega), Nat.mul_comm]
    exact Or.inl ⟨i, pos, rfl, hi, hpos, hret, hret ▸ hfirst⟩

theorem scan_true_of_none (hnone : scanMatch s start true = none) :
    scan s start true = 2 ^ 32 - 1 := by
  rw [scan, hnone]
  rfl

/-- Without a match the first clear bit is the one behind the items, if its number does not wrap. -/
theorem scan_false_of_none (h : Growing s) (hstart : start < 2 ^ 32)
    (hnone : scanMatch s start false = none)
    (hall : ∀ k, start ≤ k → k < 32 * getWidth s → test s k ≠ false) :
    (∃ k, start ≤ k ∧ k < 2 ^ 32 ∧ test s k = false) ↔
      IsFirst (test s) false start (scan s start false) := by
  have hwidth := h.width
  have hret : scan s start false = if getWidth s * 32 % 2 ^ 32 < start then start
      else getWidth s * 32 % 2 ^ 32 := by
    rw [scan, hnone]
    rfl
  rw [hret]
  constructor
  · rintro ⟨k, hk, hlt, hclear⟩
    have hge : 32 * getWidth s ≤ k := Nat.not_lt.1 fun hin => hall k hk hin hclear
    rw [Nat.mod_eq_of_lt (by omega)]
    split_ifs with hless
    · exact ⟨le_rfl, test_of_width_le (by omega), fun q hq hlt => absurd hlt (Nat.not_lt.2 hq)⟩
    · exact ⟨Nat.not_lt.1 hless, test_of_width_le (by omega),
        fun q hq hlt => hall q hq (by omega)⟩
  · intro hfirst
    refine ⟨_, hfirst.le, ?_, hfirst.bit⟩
    split_ifs
    · exact hstart
    · exact Nat.mod_lt _ (by decide)

theorem scan_lt (s : BitSet) (hstart : start < 2 ^ 32) (tst : Bool) : scan s start tst < 2 ^ 32 := by
  rw [scan]
  cases scanMatch s start tst with
  | some r => exact Nat.mod_lt _ (by decide)
  | none =>
    dsimp only
    split_ifs
    · decide
    · exact hstart
    · exact Nat.mod_lt _ (by decide)

theorem test_eq_false_of_none (hall : ∀ k, start ≤ k → k < 32 * getWidth s → test s k ≠ true) :
    ∀ k, start ≤ k → test s k = false := by
  intro k hk
  by_cases hin : k < 32 * getWidth s
  · exact Bool.eq_false_iff.2 (hall k hk hin)
  · exact test_of_width_le (Nat.not_lt.1 hin)

theorem test_written {s' : BitSet} (h : ∀ k, test s' k = if k = n then val else test s k) (k : ℕ) :
    test s' k = written (test s) n n val k :=
  (h k).trans (if_congr ⟨fun hk => ⟨hk.ge, hk.le⟩, fun hk => Nat.le_antisymm hk.2 hk.1⟩ rfl rfl)

/-- A scan answers as the vector does, and `scanInvert` inverts the bit that was found. -/
theorem scan_answer (h : Growing s) (hstart : start < 2 ^ 32)
    (hok : tst = false → ∃ k, start ≤ k ∧ k < 2 ^ 32 ∧ test s k = false) :
    IsFirst (test s) tst start (scan s start tst) ∧
        (∀ k, test (scanInvert s start tst) k =
          written (test s) (scan s start tst) (scan s start tst) (!tst) k) ∨
      NoneSet (test s) tst start (scan s start tst) ∧
        ∀ k, test (scanInvert s start tst) k = test s k := by
  obtain ⟨i, pos, hscan, hi, hpos, hret, hfirst⟩ | ⟨hnone, hall⟩ := scan_cases h start tst
  · refine Or.inl ⟨hfirst, test_written fun k => ?_⟩
    rw [scanInvert, hscan]
    dsimp only
    rw [test_flip hi hpos, ← hret]
    by_cases hk : k = scan s start tst
    · rw [if_pos hk, if_pos hk, hk, hfirst.bit]
    · rw [if_neg hk, if_neg hk]
  · cases tst with
    | true =>
      refine Or.inr ⟨⟨rfl, scan_true_of_none hnone, test_eq_false_of_none hall⟩, fun k => ?_⟩
      rw [scanInvert, hnone]
      rfl
    | false =>
      have hset : scan s start false = if getWidth s * 32 % 2 ^ 32 < start then start
          else getWidth s * 32 % 2 ^ 32 := by
        rw [scan, hnone]
        rfl
      refine Or.inl ⟨(scan_false_of_none h hstart hnone hall).1 (hok rfl), test_written ?_⟩
      rw [scanInvert, hnone, hset]
      exact test_set h.grows _ true

/-- A call that is allowed does what it does to the vector. -/
theorem call_expected (h : Growing s) {c : Call} (hok : Allowed s c) :
    ∃ v', Expected (test s) c (call s c).1 v' ∧ ∀ n, test (call s c).2 n = v' n := by
  cases c with
  | set n val => exact ⟨_, ⟨rfl, rfl⟩, test_written (test_set h.grows n val)⟩
  | invert n =>
    exact ⟨_, ⟨congrArg Reply.flag (invertResult_eq s n), rfl⟩,
      test_written (test_invert h.grows n)⟩
  | test n => exact ⟨_, ⟨rfl, rfl⟩, fun k => rfl⟩
  | testSet n val =>
    exact ⟨_, ⟨congrArg Reply.flag (testSetResult_eq s n), rfl⟩,
      test_written (test_testSet h.grows n val)⟩
  | incl lo hi => exact ⟨_, ⟨rfl, rfl⟩, test_inclRange h.grows hi.isLt fun hbad => hok hbad.2⟩
  | excl lo hi =>
    exact ⟨_, ⟨rfl, rfl⟩, test_inclRange h.grows hi.isLt fun hbad => Bool.false_ne_true hbad.1⟩
  | scan start tst =>
    rcases scan_answer h start.isLt hok with ⟨hans, -⟩ | ⟨hans, -⟩
    · exact ⟨_, ⟨_, rfl, Or.inl ⟨hans, rfl⟩⟩, fun k => rfl⟩
    · exact ⟨_, ⟨_, rfl, Or.inr ⟨hans, rfl⟩⟩, fun k => rfl⟩
  | scanInvert start tst =>
    rcases scan_answer h start.isLt hok with ⟨hans, hbits⟩ | ⟨hans, hbits⟩
    · exact ⟨_, ⟨_, rfl, Or.inl ⟨hans, rfl⟩⟩, hbits⟩
    · exact ⟨_, ⟨_, rfl, Or.inr ⟨hans, rfl⟩⟩, hbits⟩

/-- One of the other calls gives a wrong answer or leaves the bits wrong. -/
theorem not_expected (h : Growing s) {c : Call} (hbad : ¬ Allowed s c) {v' : ℕ → Bool}
    (hexp : Expected (test s) c (call s c).1 v') : ¬ ∀ n, test (call s c).2 n = v' n := by
  have hscan : ∀ (start : Fin (2 ^ 32)) (tst : Bool) (r : ℕ),
      ¬ (tst = false → ∃ k, start.val ≤ k ∧ k < 2 ^ 32 ∧ test s k = false) →
        Reply.index (scan s start.val tst) = .index r →
          ¬ IsFirst (test s) tst start r ∧ ¬ NoneSet (test s) tst start r := by
    intro start tst r hno hr
    obtain rfl := Reply.index.inj hr
    refine ⟨fun hfirst => hno fun htst => ?_, fun hnone => hno fun htst => ?_⟩
    · exact ⟨_, hfirst.le, scan_lt s start.isLt tst, hfirst.bit.trans htst⟩
    · exact absurd (htst.symm.trans hnone.tst) Bool.false_ne_true
  cases c with
  | incl lo hi =>
    obtain ⟨hlo, hhi, hwidth⟩ := Classical.not_not.1 hbad
    obtain ⟨-, rfl⟩ := hexp
    intro hbits
    have hsame : inclRange s lo.val hi.val true = s := by
      rw [hlo, hhi, inclRange_whole_empty hwidth h.grows]
    have hclear : test s 0 = false := test_of_width_le (by rw [hwidth])
    have hzero : test (inclRange s lo.val hi.val true) 0 = written (test s) lo hi true 0 := hbits 0
    rw [hsame, hclear, written, if_pos ⟨hlo.le, Nat.zero_le _⟩] at hzero
    cases hzero
  | scan start tst =>
    obtain ⟨r, hr, ⟨hans, -⟩ | ⟨hans, -⟩⟩ := hexp
    · exact absurd hans (hscan start tst r hbad hr).1
    · exact absurd hans (hscan start tst r hbad hr).2
  | scanInvert start tst =>
    obtain ⟨r, hr, ⟨hans, -⟩ | ⟨hans, -⟩⟩ := hexp
    · exact absurd hans (hscan start tst r hbad hr).1
    · exact absurd hans (hscan start tst r hbad hr).2
  | set n val => exact absurd trivial hbad
  | invert n => exact absurd trivial hbad
  | test n => exact absurd trivial hbad
  | testSet n val => exact absurd trivial hbad
  | excl lo hi => exact absurd trivial hbad

theorem Correct.agrees {v : ℕ → Bool} {calls : List Call} (h : Correct s v calls) :
    ∀ n, test s n = v n := by
  cases calls with
  | nil => exact h
  | cons c calls => exact h.1

theorem correct_iff (calls : List Call) (h : Growing s) :
    Correct s (test s) calls ↔ AllAllowed s calls := by
  induction calls generalizing s with
  | nil => exact iff_of_true (fun n => rfl) trivial
  | cons c calls ih =>
    have hiff := ih (h.call c)
    constructor
    · rintro ⟨-, v', hexp, hrest⟩
      have hok : Allowed s c := by
        by_contra hbad
        exact not_expected h hbad hexp hrest.agrees
      obtain rfl : test (call s c).2 = v' := funext hrest.agrees
      exact ⟨hok, hiff.1 hrest⟩
    · rintro ⟨hok, hrest⟩
      obtain ⟨v', hexp, hv'⟩ := call_expected h hok
      obtain rfl : test (call s c).2 = v' := funext hv'
      exact ⟨fun n => rfl, _, hexp, hiff.2 hrest⟩

theorem growing_created (created : Created) (hgrows : created.bitSet.fixedMemory = false) :
    Growing created.bitSet ∧ ∀ n, test created.bitSet n = false := by
  cases created with
  | createThreadSafeBitSet => exact ⟨⟨rfl, Nat.zero_le _⟩, fun n => rfl⟩
  | createBitSet initialBits =>
    refine ⟨⟨rfl, ?_⟩, fun n => (test_eq _ n).trans (bitAt_replicate_zero _ n)⟩
    change (List.replicate _ _).length ≤ _
    rw [List.length_replicate, bitSetUnits]
    omega
  | createFixedBitSet mem hmem => exact absurd hgrows.symm Bool.false_ne_true

/-- A bit set that can grow is an infinite vector of bits, in the runs without the two calls that
go wrong and only in these. -/
theorem bitSet_isVector_iff (created : Created) (hgrows : created.bitSet.fixedMemory = false)
    (calls : List Call) :
    Correct created.bitSet (fun _ => false) calls ↔ AllAllowed created.bitSet calls := by
  obtain ⟨hgrowing, hzero⟩ := growing_created created hgrows
  rw [← correct_iff calls hgrowing]
  rw [show (fun _ => false) = test created.bitSet from funext fun n => (hzero n).symm]

theorem bitSet_isVector_threadSafe :
    Correct Created.createThreadSafeBitSet.bitSet (fun _ => false) [.invert 5, .scan 0 true] ↔
      AllAllowed Created.createThreadSafeBitSet.bitSet [.invert 5, .scan 0 true] :=
  bitSet_isVector_iff .createThreadSafeBitSet rfl _

/-- The whole range is not set in a set without items. -/
theorem incl_whole_empty : ¬ Correct Created.createThreadSafeBitSet.bitSet (fun _ => false)
    [.incl ⟨0, by decide⟩ ⟨2 ^ 32 - 1, by decide⟩] := by
  rintro ⟨-, v', ⟨-, rfl⟩, h⟩
  have hsame := @inclRange_whole_empty Created.createThreadSafeBitSet.bitSet rfl rfl
  have hzero : test (inclRange Created.createThreadSafeBitSet.bitSet 0 (2 ^ 32 - 1) true) 0 =
      written (fun _ => false) 0 (2 ^ 32 - 1) true 0 := h 0
  rw [hsame, written, if_pos ⟨le_rfl, Nat.zero_le _⟩] at hzero
  cases hzero

end BitSets
