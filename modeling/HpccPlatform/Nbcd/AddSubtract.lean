import HpccPlatform.Nbcd.Decimal

/-!
# Addition and subtraction

The range of the digits is extended so that it covers that of the other operand, whose digits are
then added or subtracted place by place; a carry goes on through the places above.  A difference
that comes out negative is complemented.
-/

namespace Nbcd

open DigitWindow

/-- The other operand of an operation: another object, or the one that is changed. -/
inductive Operand where
  | other (d : Decimal)
  | self

namespace Operand

/-- What `other` refers to, while the object is `s`. -/
def get (s : Decimal) : Operand → Decimal
  | other d => d
  | self => s

/-- `other.digits[idx]`, while `digits[idx]` is `digit`. -/
def digitAt (idx digit : ℕ) : Operand → ℕ
  | other d => d.digits idx
  | self => digit

end Operand

namespace Decimal

def addBody (o : Operand) (idx digit carry : ℕ) : ℕ × ℕ :=
  let sum := digit + o.digitAt idx digit + carry
  if 9 < sum then (sum - 10, 1) else (sum, 0)

/-- The loop ends when there is no carry. -/
def carryBody (_idx digit carry : ℕ) : ℕ × ℕ :=
  if carry = 0 then (digit, 0)
  else if 9 < digit + 1 then (digit + 1 - 10, 1)
  else (digit + 1, 0)

def addDigits (s : Decimal) (o : Operand) : Decimal :=
  let s := s.extendRange (o.get s).lsb (o.get s).msb
  let oLo := (o.get s).lsb
  let oHi := (o.get s).msb
  let hi := s.msb
  let added := ripple (addBody o) (oHi + 1 - oLo) oLo s.digits 0
  let carried := ripple carryBody (hi - oHi) (oHi + 1) added.1 added.2
  if carried.2 ≠ 0 ∧ hi ≠ 63 then
    { s with
      digits := Function.update carried.1 (hi + 1) carried.2
      msb := hi + 1 }
  else { s with digits := carried.1 }

def subtractBody (o : Operand) (idx digit carry : ℕ) : ℕ × ℕ :=
  if digit < o.digitAt idx digit + carry then (digit + 10 - (o.digitAt idx digit + carry), 1)
  else (digit - (o.digitAt idx digit + carry), 0)

/-- `digits[idx]--` of the digit 0 gives 255, to which 10 are added as a byte. -/
def borrowBody (_idx digit carry : ℕ) : ℕ × ℕ :=
  if carry = 0 then (digit, 0)
  else if digit = 0 then (9, 1)
  else (digit - 1, 0)

def complementBody (_idx digit carry : ℕ) : ℕ × ℕ :=
  if 9 - digit + carry = 10 then (0, 1) else (9 - digit + carry, 0)

/-- There is no result if `assertex(!carry)` fails. -/
def subtractDigits (s : Decimal) (o : Operand) : Option Decimal :=
  let s := s.extendRange (o.get s).lsb (o.get s).msb
  let oLo := (o.get s).lsb
  let oHi := (o.get s).msb
  let hi := s.msb
  let reduced := ripple (subtractBody o) (oHi + 1 - oLo) oLo s.digits 0
  let borrowed := ripple borrowBody (hi - oHi) (oHi + 1) reduced.1 reduced.2
  if borrowed.2 ≠ 0 then
    let complement := ripple complementBody (hi + 1 - s.lsb) s.lsb borrowed.1 1
    if complement.2 ≠ 0 then none
    else some { s with
      digits := complement.1
      negative := !s.negative }
  else some { s with digits := borrowed.1 }

def add (s : Decimal) (o : Operand) : Option Decimal :=
  if s.negative = (o.get s).negative then some (s.addDigits o) else s.subtractDigits o

def subtract (s : Decimal) (o : Operand) : Option Decimal :=
  if s.negative ≠ (o.get s).negative then some (s.addDigits o) else s.subtractDigits o

variable {s e : Decimal} {o : Operand}

/-! ### The range is extended -/

theorem extendRange_self (s : Decimal) : s.extendRange s.lsb s.msb = s := by
  unfold extendRange
  rw [if_neg (lt_irrefl _)]
  exact if_neg (lt_irrefl _)

/-- The extended object covers both ranges and is the same number. -/
structure Extends (s : Decimal) (oLsb oMsb : ℕ) (r : Decimal) : Prop where
  wellFormed : r.WellFormed
  lsb_le : r.lsb ≤ oLsb
  le_msb : oMsb ≤ r.msb
  magnitude_eq : r.magnitude = s.magnitude
  negative_eq : r.negative = s.negative

theorem extends_extendRange (h : s.WellFormed) (oLsb : ℕ) {oMsb : ℕ} (hmsb : oMsb ≤ 63) : s.Extends oLsb oMsb (s.extendRange oLsb oMsb) := by
  have hlow : s.Extends oLsb s.msb (if oLsb < s.lsb then
      { s with
        digits := fun i => if oLsb ≤ i ∧ i < s.lsb then 0 else s.digits i
        lsb := oLsb }
      else s) := by
    by_cases hlt : oLsb < s.lsb
    · rw [if_pos hlt]
      refine ⟨⟨?_, h.msb_le, (hlt.le.trans h.lsb_le)⟩, le_rfl, le_rfl, ?_, rfl⟩
      · intro i hlo hhi
        dsimp only
        split
        · exact Nat.zero_le _
        · rename_i hout
          exact h.digit i (Nat.not_lt.1 fun hi => hout ⟨hlo, hi⟩) hhi
      · unfold magnitude
        dsimp only
        rw [value_widen hlt.le le_rfl]
        · refine value_congr fun i hlo _ => ?_
          rw [if_neg fun hi => Nat.not_lt.2 hlo hi.2]
        · intro i hlo hhi hout
          rw [if_pos ⟨hlo, by omega⟩]
    · rw [if_neg hlt]
      exact ⟨h, Nat.not_lt.1 hlt, le_rfl, rfl, rfl⟩
  unfold extendRange
  dsimp only
  generalize (if oLsb < s.lsb then
      { s with
        digits := fun i => if oLsb ≤ i ∧ i < s.lsb then 0 else s.digits i
        lsb := oLsb }
      else s) = low at hlow ⊢
  obtain ⟨hwell, hlsb, hle', hmagnitude, hnegative⟩ := hlow
  by_cases hlt : low.msb < oMsb
  · rw [if_pos hlt]
    refine ⟨⟨?_, hmsb, hwell.lsb_le.trans (Nat.succ_le_succ hlt.le)⟩, hlsb, le_rfl, ?_, hnegative⟩
    · intro i hlo hhi
      dsimp only at hlo hhi ⊢
      split
      · exact Nat.zero_le _
      · rename_i hout
        exact hwell.digit i hlo (by omega)
    · rw [← hmagnitude]
      unfold magnitude
      dsimp only
      rw [value_widen le_rfl (Nat.succ_le_succ hlt.le)]
      · refine value_congr fun i _ hhi => ?_
        rw [if_neg (by omega)]
      · intro i hlo hhi hout
        rcases hout with hbelow | habove
        · exact absurd hbelow (Nat.not_lt.2 hlo)
        · rw [if_pos ⟨habove, Nat.le_of_lt_succ hhi⟩]
  · rw [if_neg hlt]
    exact ⟨hwell, hlsb, Nat.not_lt.1 hlt, hmagnitude, hnegative⟩

theorem get_extendRange (o : Operand) (s : Decimal) :
    o.get (s.extendRange (o.get s).lsb (o.get s).msb) = o.get s := by
  cases o with
  | other d => rfl
  | self => exact extendRange_self s

theorem digitAt_eq (o : Operand) (s : Decimal) (i : ℕ) :
    o.digitAt i (s.digits i) = (o.get s).digits i := by
  cases o <;> rfl

/-! ### The passes over the digits -/

/-- A step takes a carry of at most 1 and gives such a carry and a digit: what is added or
subtracted at the place, with the carries. -/
structure Steps (body : ℕ → ℕ → ℕ → ℕ × ℕ) (sign : ℤ) (i digit term : ℕ) : Prop where
  carry_le : ∀ c ≤ 1, (body i digit c).2 ≤ 1
  digit_le : ∀ c ≤ 1, (body i digit c).1 ≤ 9
  digit_eq : ∀ c ≤ 1,
    ((body i digit c).1 : ℤ) = digit + sign * term + sign * (c - 10 * (body i digit c).2)

theorem steps_addBody {i digit : ℕ} (hdigit : digit ≤ 9) (hother : o.digitAt i digit ≤ 9) :
    Steps (addBody o) 1 i digit (o.digitAt i digit) := by
  refine ⟨?_, ?_, ?_⟩ <;> intro c hc <;> unfold addBody <;> dsimp only <;> split <;> dsimp only <;>
    omega

theorem steps_subtractBody {i digit : ℕ} (hdigit : digit ≤ 9) (hother : o.digitAt i digit ≤ 9) :
    Steps (subtractBody o) (-1) i digit (o.digitAt i digit) := by
  refine ⟨?_, ?_, ?_⟩ <;> intro c hc <;> unfold subtractBody <;> split <;> dsimp only <;> omega

theorem steps_carryBody {i digit : ℕ} (hdigit : digit ≤ 9) : Steps carryBody 1 i digit 0 := by
  refine ⟨?_, ?_, ?_⟩ <;> intro c hc <;> unfold carryBody <;> split_ifs <;> dsimp only <;> omega

theorem steps_borrowBody {i digit : ℕ} (hdigit : digit ≤ 9) : Steps borrowBody (-1) i digit 0 := by
  refine ⟨?_, ?_, ?_⟩ <;> intro c hc <;> unfold borrowBody <;> split_ifs <;> dsimp only <;> omega

theorem steps_complementBody {i digit : ℕ} (hdigit : digit ≤ 9) :
    ∀ c ≤ 1, (complementBody i digit c).2 ≤ 1 ∧ (complementBody i digit c).1 ≤ 9 ∧
      ((complementBody i digit c).1 : ℤ) =
        (9 - digit) + 1 * (c - 10 * (complementBody i digit c).2) := by
  intro c hc
  unfold complementBody
  split <;> dsimp only <;> omega

/-- The digits of `other` are added or subtracted from place `oLo` on, and then the carry goes on
up to place `hi`. -/
theorem twoPasses {first second : ℕ → ℕ → ℕ → ℕ × ℕ} {sign : ℤ} {d other : ℕ → ℕ}
    {lsb oLo oHi hi : ℕ} (hlo : lsb ≤ oLo) (hmid : oLo ≤ oHi + 1) (hhi : oHi ≤ hi)
    (hd : ∀ i, lsb ≤ i → i ≤ hi → d i ≤ 9)
    (hfirst : ∀ i, oLo ≤ i → i < oHi + 1 → Steps first sign i (d i) (other i))
    (hsecond : ∀ i digit, digit ≤ 9 → Steps second sign i digit 0)
    {added carried : (ℕ → ℕ) × ℕ} (hadded : added = ripple first (oHi + 1 - oLo) oLo d 0)
    (hcarried : carried = ripple second (hi - oHi) (oHi + 1) added.1 added.2) :
    (value 10 carried.1 lsb (hi + 1) : ℤ) + sign * (carried.2 * 10 ^ (hi + 1)) =
        value 10 d lsb (hi + 1) + sign * value 10 other oLo (oHi + 1) ∧
      carried.2 ≤ 1 ∧ ∀ i, lsb ≤ i → i ≤ hi → carried.1 i ≤ 9 := by
  have hend : oLo + (oHi + 1 - oLo) = oHi + 1 := by omega
  have hend' : oHi + 1 + (hi - oHi) = hi + 1 := by omega
  -- the first pass
  have hrule := ripple_rule first (oHi + 1 - oLo) oLo d 0 (fun _ c => c ≤ 1) (fun _ x => x ≤ 9)
    (Nat.zero_le _) fun i c hlow hup hc =>
      ⟨(hfirst i hlow (by omega)).carry_le c hc, (hfirst i hlow (by omega)).digit_le c hc⟩
  have hvalue := ripple_value 10 first (oHi + 1 - oLo) oLo d 0 sign
    (fun i => d i + sign * other i) (fun _ c => c ≤ 1) (Nat.zero_le _) fun i c hlow hup hc =>
      ⟨(hfirst i hlow (by omega)).carry_le c hc, (hfirst i hlow (by omega)).digit_eq c hc⟩
  have houtside : ∀ i, i < oLo ∨ oHi + 1 ≤ i → added.1 i = d i := fun i hi => by
    rw [hadded, ripple_outside (by omega)]
  rw [hend, ← hadded] at hrule hvalue
  -- the second one
  have hdigit : ∀ i, oHi + 1 ≤ i → i < hi + 1 → added.1 i ≤ 9 := fun i hlow hup => by
    rw [houtside i (Or.inr hlow)]
    exact hd i (by omega) (by omega)
  have hrule' := ripple_rule second (hi - oHi) (oHi + 1) added.1 added.2 (fun _ c => c ≤ 1)
    (fun _ x => x ≤ 9) hrule.1 fun i c hlow hup hc =>
      ⟨(hsecond i _ (hdigit i hlow (by omega))).carry_le c hc,
        (hsecond i _ (hdigit i hlow (by omega))).digit_le c hc⟩
  have hvalue' := ripple_value 10 second (hi - oHi) (oHi + 1) added.1 added.2 sign
    (fun i => added.1 i) (fun _ c => c ≤ 1) hrule.1 fun i c hlow hup hc =>
      ⟨(hsecond i _ (hdigit i hlow (by omega))).carry_le c hc, by
        have heq := (hsecond i _ (hdigit i hlow (by omega))).digit_eq c hc
        rw [Nat.cast_zero, mul_zero, add_zero] at heq
        exact heq⟩
  have houtside' : ∀ i, i < oHi + 1 → carried.1 i = added.1 i := fun i hi => by
    rw [hcarried, ripple_outside (Or.inl hi)]
  rw [hend', ← hcarried] at hrule' hvalue'
  refine ⟨?_, hrule'.1, ?_⟩
  · have hparts : ∀ x : ℕ → ℕ, value 10 x lsb (hi + 1) =
        value 10 x lsb oLo + value 10 x oLo (oHi + 1) + value 10 x (oHi + 1) (hi + 1) := by
      intro x
      rw [value_append hlo hmid, value_append (by omega) (by omega)]
    have hbelow : value 10 carried.1 lsb oLo = value 10 d lsb oLo :=
      value_congr fun i _ hup => by rw [houtside' i (by omega), houtside i (Or.inl hup)]
    have hmiddle : value 10 carried.1 oLo (oHi + 1) = value 10 added.1 oLo (oHi + 1) :=
      value_congr fun i _ hup => houtside' i hup
    have habove : value 10 added.1 (oHi + 1) (hi + 1) = value 10 d (oHi + 1) (hi + 1) :=
      value_congr fun i hlow _ => houtside i (Or.inr hlow)
    have hsum : ∑ i ∈ Finset.Ico oLo (oHi + 1), ((d i : ℤ) + sign * other i) * 10 ^ i =
        value 10 d oLo (oHi + 1) + sign * value 10 other oLo (oHi + 1) := by
      unfold value
      push_cast
      rw [Finset.mul_sum, ← Finset.sum_add_distrib]
      exact Finset.sum_congr rfl fun i _ => by ring
    have hcast : ∑ i ∈ Finset.Ico (oHi + 1) (hi + 1), (added.1 i : ℤ) * 10 ^ i =
        value 10 added.1 (oHi + 1) (hi + 1) := by
      unfold value
      push_cast
      rfl
    push_cast at hvalue hvalue'
    rw [hsum] at hvalue
    rw [hcast, habove] at hvalue'
    rw [hparts, hparts d, hbelow, hmiddle]
    push_cast
    linear_combination hvalue + hvalue'
  · intro i hlow hup
    rcases Nat.lt_or_ge i (oHi + 1) with hlt | hge
    · rw [houtside' i hlt]
      rcases Nat.lt_or_ge i oLo with hlt' | hge'
      · rw [houtside i (Or.inl hlt')]
        exact hd i hlow hup
      · exact hrule.2 i hge' hlt
    · exact hrule'.2 i hge (Nat.lt_succ_of_le hup)

/-! ### The results -/

/-- A result with the sign of `s` or the opposite one. -/
structure Holds (t : Decimal) (magnitude : ℕ) (negative : Bool) : Prop where
  wellFormed : t.WellFormed
  magnitude_eq : t.magnitude = magnitude
  negative_eq : t.negative = negative

/-- What the passes over the digits of `r` start from. -/
theorem Extends.steps {r : Decimal} (hr : s.Extends (o.get s).lsb (o.get s).msb r)
    (hget : o.get r = o.get s) (ho : (o.get s).WellFormed) {body : ℕ → ℕ → ℕ → ℕ × ℕ} {sign : ℤ}
    (hbody : ∀ i digit, digit ≤ 9 → o.digitAt i digit ≤ 9 →
      Steps body sign i digit (o.digitAt i digit)) (i : ℕ) (hlow : (o.get s).lsb ≤ i)
    (hup : i < (o.get s).msb + 1) : Steps body sign i (r.digits i) ((o.get s).digits i) := by
  have hother : o.digitAt i (r.digits i) = (o.get s).digits i := by rw [digitAt_eq, hget]
  have hle := Nat.le_of_lt_succ hup
  rw [← hother]
  refine hbody i _ (hr.wellFormed.digit i (hr.lsb_le.trans hlow) (hle.trans hr.le_msb)) ?_
  rw [hother]
  exact ho.digit i hlow hle

theorem addDigits_spec (hs : s.WellFormed) (ho : (o.get s).WellFormed) :
    (s.addDigits o).Holds ((s.magnitude + (o.get s).magnitude) % 10 ^ 64) s.negative := by
  have hextends := extends_extendRange hs (o.get s).lsb ho.msb_le
  have hget := get_extendRange o s
  unfold addDigits
  dsimp only
  rw [hget]
  generalize s.extendRange (o.get s).lsb (o.get s).msb = r at hextends hget ⊢
  have hfirst := hextends.steps hget ho fun i digit => steps_addBody
  obtain ⟨hr, hlsb, hmsb, hmagnitude, hnegative⟩ := hextends
  obtain ⟨hvalue, hcarry, hdigits⟩ := twoPasses hlsb ho.lsb_le hmsb hr.digit hfirst
    (fun i digit hdigit => steps_carryBody hdigit) rfl rfl
  generalize ripple carryBody _ _ _ _ = carried at hvalue hcarry hdigits ⊢
  obtain ⟨digits, carry⟩ := carried
  dsimp only at hvalue hcarry hdigits ⊢
  have hsum : value 10 digits r.lsb (r.msb + 1) + carry * 10 ^ (r.msb + 1) =
      s.magnitude + (o.get s).magnitude := by
    rw [← hmagnitude, magnitude, magnitude]
    exact_mod_cast (by linarith : (value 10 digits r.lsb (r.msb + 1) : ℤ) +
      carry * 10 ^ (r.msb + 1) = value 10 r.digits r.lsb (r.msb + 1) +
        value 10 (o.get s).digits (o.get s).lsb ((o.get s).msb + 1))
  have hlt : value 10 digits r.lsb (r.msb + 1) < 10 ^ (r.msb + 1) :=
    value_lt (by decide) fun i hlow hup => Nat.lt_succ_of_le (hdigits i hlow (Nat.le_of_lt_succ hup))
  by_cases hextra : carry ≠ 0 ∧ r.msb ≠ 63
  · rw [if_pos hextra]
    have hmsb_lt : r.msb < 63 := lt_of_le_of_ne hr.msb_le hextra.2
    have hmagnitude' : value 10 (Function.update digits (r.msb + 1) carry) r.lsb (r.msb + 1 + 1) =
        s.magnitude + (o.get s).magnitude := by
      rw [value_succ hr.lsb_le, Function.update_self, ← hsum]
      congr 1
      refine value_congr fun i _ hup => ?_
      rw [Function.update_of_ne hup.ne]
    have hdigit' : ∀ i, r.lsb ≤ i → i ≤ r.msb + 1 →
        Function.update digits (r.msb + 1) carry i ≤ 9 := by
      intro i hlow hup
      rcases hup.eq_or_lt with rfl | hlt'
      · rw [Function.update_self]
        omega
      · rw [Function.update_of_ne hlt'.ne]
        exact hdigits i hlow (Nat.le_of_lt_succ hlt')
    refine ⟨⟨hdigit', hmsb_lt, Nat.le_succ_of_le hr.lsb_le⟩, ?_, hnegative⟩
    rw [magnitude, hmagnitude', Nat.mod_eq_of_lt]
    rw [← hmagnitude']
    refine (value_lt (by decide) fun i hlow hup => ?_).trans_le
      (Nat.pow_le_pow_right (by decide) (by omega : r.msb + 1 + 1 ≤ 64))
    exact Nat.lt_succ_of_le (hdigit' i hlow (Nat.le_of_lt_succ hup))
  · rw [if_neg hextra]
    refine ⟨⟨hdigits, hr.msb_le, hr.lsb_le⟩, ?_, hnegative⟩
    change value 10 digits r.lsb (r.msb + 1) = _
    rcases Nat.eq_zero_or_pos carry with rfl | hpos
    · rw [Nat.zero_mul] at hsum
      rw [← hsum]
      refine (Nat.mod_eq_of_lt ?_).symm
      exact hlt.trans_le (Nat.pow_le_pow_right (by decide) (Nat.succ_le_succ hr.msb_le))
    · -- the carry out of the last digit is lost
      have hlast : r.msb = 63 := by
        by_contra hne
        exact hextra ⟨hpos.ne', hne⟩
      rw [hlast] at hsum hlt ⊢
      rw [← hsum, Nat.add_mul_mod_self_right, Nat.mod_eq_of_lt hlt]

/-- The number is taken from the next power of 10. -/
theorem complementPass {d : ℕ → ℕ} {lsb hi : ℕ} (hle : lsb ≤ hi + 1)
    (hd : ∀ i, lsb ≤ i → i ≤ hi → d i ≤ 9) {complement : (ℕ → ℕ) × ℕ}
    (hcomplement : complement = ripple complementBody (hi + 1 - lsb) lsb d 1) :
    value 10 complement.1 lsb (hi + 1) + complement.2 * 10 ^ (hi + 1) + value 10 d lsb (hi + 1) =
        10 ^ (hi + 1) ∧
      complement.2 ≤ 1 ∧ ∀ i, lsb ≤ i → i ≤ hi → complement.1 i ≤ 9 := by
  have hend : lsb + (hi + 1 - lsb) = hi + 1 := by omega
  have hstep : ∀ i c, lsb ≤ i → i < lsb + (hi + 1 - lsb) → c ≤ 1 → _ := fun i c hlow hup hc =>
    steps_complementBody (i := i) (hd i hlow (by omega)) c hc
  have hrule := ripple_rule complementBody (hi + 1 - lsb) lsb d 1 (fun _ c => c ≤ 1)
    (fun _ x => x ≤ 9) le_rfl fun i c hlow hup hc =>
      ⟨(hstep i c hlow hup hc).1, (hstep i c hlow hup hc).2.1⟩
  have hvalue := ripple_value 10 complementBody (hi + 1 - lsb) lsb d 1 1 (fun i => 9 - d i)
    (fun _ c => c ≤ 1) le_rfl fun i c hlow hup hc =>
      ⟨(hstep i c hlow hup hc).1, (hstep i c hlow hup hc).2.2⟩
  rw [hend, ← hcomplement] at hrule hvalue
  refine ⟨?_, hrule.1, fun i hlow hup => hrule.2 i hlow (Nat.lt_succ_of_le hup)⟩
  have hnines := value_last_add (b := 10) (by decide) hle
  have hsum : ∑ i ∈ Finset.Ico lsb (hi + 1), ((9 : ℤ) - d i) * 10 ^ i =
      value 10 (fun _ => 10 - 1) lsb (hi + 1) - value 10 d lsb (hi + 1) := by
    unfold value
    push_cast
    rw [← Finset.sum_sub_distrib]
    exact Finset.sum_congr rfl fun i _ => by ring
  push_cast at hvalue
  rw [hsum] at hvalue
  zify at hnines ⊢
  linear_combination hvalue + hnines

theorem subtractDigits_spec (hs : s.WellFormed) (ho : (o.get s).WellFormed) :
    ∃ t, s.subtractDigits o = some t ∧
      t.Holds (max s.magnitude (o.get s).magnitude - min s.magnitude (o.get s).magnitude)
        (if s.magnitude < (o.get s).magnitude then !s.negative else s.negative) := by
  have hextends := extends_extendRange hs (o.get s).lsb ho.msb_le
  have hget := get_extendRange o s
  unfold subtractDigits
  dsimp only
  rw [hget]
  generalize s.extendRange (o.get s).lsb (o.get s).msb = r at hextends hget ⊢
  have hfirst := hextends.steps hget ho fun i digit => steps_subtractBody
  obtain ⟨hr, hlsb, hmsb, hmagnitude, hnegative⟩ := hextends
  obtain ⟨hvalue, hcarry, hdigits⟩ := twoPasses hlsb ho.lsb_le hmsb hr.digit hfirst
    (fun i digit hdigit => steps_borrowBody hdigit) rfl rfl
  generalize ripple borrowBody _ _ _ _ = borrowed at hvalue hcarry hdigits ⊢
  obtain ⟨digits, carry⟩ := borrowed
  dsimp only at hvalue hcarry hdigits ⊢
  have hdifference : value 10 digits r.lsb (r.msb + 1) + (o.get s).magnitude =
      s.magnitude + carry * 10 ^ (r.msb + 1) := by
    rw [← hmagnitude, magnitude, magnitude]
    exact_mod_cast (by linarith : (value 10 digits r.lsb (r.msb + 1) : ℤ) +
      value 10 (o.get s).digits (o.get s).lsb ((o.get s).msb + 1) =
        value 10 r.digits r.lsb (r.msb + 1) + carry * 10 ^ (r.msb + 1))
  have hlt : value 10 digits r.lsb (r.msb + 1) < 10 ^ (r.msb + 1) :=
    value_lt (by decide) fun i hlow hup => Nat.lt_succ_of_le (hdigits i hlow (Nat.le_of_lt_succ hup))
  by_cases hborrow : carry ≠ 0
  · rw [if_pos hborrow]
    have hone : carry = 1 := by omega
    subst hone
    obtain ⟨hvalue', hcarry', hdigits'⟩ := complementPass hr.lsb_le hdigits rfl
    generalize ripple complementBody _ _ _ _ = complement at hvalue' hcarry' hdigits' ⊢
    -- the difference is less than what was borrowed
    have hother : (o.get s).magnitude < 10 ^ (r.msb + 1) := by
      have htop : (o.get s).magnitude < 10 ^ ((o.get s).msb + 1) :=
        value_lt (by decide) fun i hlow hup => ho.digit_lt hlow hup
      exact htop.trans_le (Nat.pow_le_pow_right (by decide) (Nat.succ_le_succ hmsb))
    have hzero : complement.2 = 0 := by
      by_contra hne
      have hone' : complement.2 = 1 := by omega
      rw [hone'] at hvalue'
      omega
    rw [hzero] at hvalue'
    have hlt' : s.magnitude < (o.get s).magnitude := by omega
    rw [if_neg (not_not.2 hzero), if_pos hlt', max_eq_right hlt'.le, min_eq_left hlt'.le]
    refine ⟨_, rfl, ⟨hdigits', hr.msb_le, hr.lsb_le⟩, ?_, ?_⟩
    · change value 10 complement.1 r.lsb (r.msb + 1) = _
      omega
    · rw [← hnegative]
  · rw [if_neg hborrow]
    have hzero : carry = 0 := not_not.1 hborrow
    subst hzero
    have hle : (o.get s).magnitude ≤ s.magnitude := by omega
    refine ⟨_, rfl, ⟨hdigits, hr.msb_le, hr.lsb_le⟩, ?_, ?_⟩
    · change value 10 digits r.lsb (r.msb + 1) = _
      rw [max_eq_left hle, min_eq_right hle]
      omega
    · rw [if_neg (Nat.not_lt.2 hle)]
      exact hnegative

/-- `t` is the number `x`, or what is left of it below `10 ^ 32`. -/
structure Exact (t : Decimal) (x : ℚ) : Prop where
  wellFormed : t.WellFormed
  eq : |x| < 10 ^ 32 → t.val = x
  bound : |t.val| < 10 ^ 32
  modulo : ∃ k : ℕ, |x| = |t.val| + k * 10 ^ 32

theorem exact_of_scaled {t : Decimal} {n : ℤ} (ht : t.WellFormed)
    (hmagnitude : t.magnitude = n.natAbs % 10 ^ 64) (hscaled : n.natAbs < 10 ^ 64 → t.scaled = n) :
    t.Exact (n / 10 ^ 32) := by
  have habs : |(n : ℚ) / 10 ^ 32| = (n.natAbs : ℚ) / 10 ^ 32 := by
    rw [abs_div, abs_of_pos (by positivity : (0 : ℚ) < 10 ^ 32), ← Int.cast_abs,
      Int.abs_eq_natAbs, Int.cast_natCast]
  refine ⟨ht, ?_, ?_, n.natAbs / 10 ^ 64, ?_⟩
  · intro hlt
    rw [habs, div_lt_iff₀ (by positivity), ← pow_add] at hlt
    rw [val, hscaled (by exact_mod_cast hlt)]
  · rw [abs_val, div_lt_iff₀ (by positivity), ← pow_add]
    exact_mod_cast ht.magnitude_lt
  · have hdiv := Nat.mod_add_div' n.natAbs (10 ^ 64)
    rw [← hmagnitude] at hdiv
    have hcast : (n.natAbs : ℚ) = t.magnitude + (n.natAbs / 10 ^ 64 : ℕ) * 10 ^ 64 := by
      exact_mod_cast hdiv.symm
    rw [habs, abs_val, hcast, add_div]
    ring

theorem exact_addDigits (hs : s.WellFormed) (ho : (o.get s).WellFormed) :
    (s.addDigits o).Exact
      ((if s.negative then -(s.magnitude + (o.get s).magnitude : ℤ)
        else s.magnitude + (o.get s).magnitude : ℤ) / 10 ^ 32) := by
  obtain ⟨ht, hmagnitude, hnegative⟩ := addDigits_spec hs ho
  have habs : (if s.negative then -(s.magnitude + (o.get s).magnitude : ℤ)
      else s.magnitude + (o.get s).magnitude : ℤ).natAbs = s.magnitude + (o.get s).magnitude := by
    split <;> omega
  refine exact_of_scaled ht ?_ ?_
  · rw [habs, hmagnitude]
  · intro hlt
    rw [habs] at hlt
    rw [scaled, hnegative, hmagnitude, Nat.mod_eq_of_lt hlt]
    push_cast
    rfl

theorem exact_subtractDigits (hs : s.WellFormed) (ho : (o.get s).WellFormed) :
    ∃ t, s.subtractDigits o = some t ∧ t.Exact
      ((if s.negative then -(s.magnitude - (o.get s).magnitude : ℤ)
        else s.magnitude - (o.get s).magnitude : ℤ) / 10 ^ 32) := by
  obtain ⟨t, hresult, ht, hmagnitude, hnegative⟩ := subtractDigits_spec hs ho
  have hs' := hs.magnitude_lt
  have ho' := ho.magnitude_lt
  refine ⟨t, hresult, exact_of_scaled ht ?_ fun _ => ?_⟩
  · rw [hmagnitude, Nat.mod_eq_of_lt]
    · split <;> omega
    · split <;> omega
  · rw [scaled, hnegative, hmagnitude]
    cases s.negative <;> split_ifs <;> simp_all <;> omega

theorem negative_eq_not (hsign : s.negative ≠ (o.get s).negative) :
    (o.get s).negative = !s.negative := by
  cases hs' : s.negative <;> cases ho' : (o.get s).negative <;> simp_all

theorem add_exact (hs : s.WellFormed) (ho : (o.get s).WellFormed) :
    ∃ t, s.add o = some t ∧ t.Exact (s.val + (o.get s).val) := by
  have hsum : s.val + (o.get s).val = (s.scaled + (o.get s).scaled : ℤ) / 10 ^ 32 := by
    rw [val, val, ← add_div]
    push_cast
    rfl
  rw [hsum]
  unfold add scaled
  by_cases hsign : s.negative = (o.get s).negative
  · rw [if_pos hsign, ← hsign]
    refine ⟨_, rfl, ?_⟩
    convert exact_addDigits hs ho using 3
    split <;> ring
  · obtain ⟨t, hresult, hsubtract⟩ := exact_subtractDigits hs ho
    rw [if_neg hsign, negative_eq_not hsign]
    refine ⟨t, hresult, ?_⟩
    convert hsubtract using 3
    cases s.negative
    · exact (sub_eq_add_neg _ _).symm
    · exact neg_add_eq_sub _ _ |>.trans (neg_sub _ _).symm

theorem subtract_exact (hs : s.WellFormed) (ho : (o.get s).WellFormed) :
    ∃ t, s.subtract o = some t ∧ t.Exact (s.val - (o.get s).val) := by
  have hdifference : s.val - (o.get s).val = (s.scaled - (o.get s).scaled : ℤ) / 10 ^ 32 := by
    rw [val, val, ← sub_div]
    push_cast
    rfl
  rw [hdifference]
  unfold subtract scaled
  by_cases hsign : s.negative = (o.get s).negative
  · obtain ⟨t, hresult, hsubtract⟩ := exact_subtractDigits hs ho
    rw [if_neg (not_not.2 hsign), ← hsign]
    refine ⟨t, hresult, ?_⟩
    convert hsubtract using 3
    split <;> ring
  · rw [if_pos hsign, negative_eq_not hsign]
    refine ⟨_, rfl, ?_⟩
    convert exact_addDigits hs ho using 3
    cases s.negative
    · exact sub_neg_eq_add _ _
    · exact (neg_add' _ _).symm

/-- Sums and differences are exact, and no check fails. -/
theorem add_subtract_exact (hs : s.WellFormed) (ho : (o.get s).WellFormed) :
    (∃ t, s.add o = some t ∧ t.Exact (s.val + (o.get s).val)) ∧
      ∃ t, s.subtract o = some t ∧ t.Exact (s.val - (o.get s).val) :=
  ⟨add_exact hs ho, subtract_exact hs ho⟩

/-- 9 and -7, which carries into a new digit in the sum of 9 and itself. -/
theorem add_subtract_exact_digits :
    ((∃ t, (ofDigit 9 false).add (.other (ofDigit 7 true)) = some t ∧
        t.Exact ((ofDigit 9 false).val + (ofDigit 7 true).val)) ∧
      ∃ t, (ofDigit 9 false).subtract (.other (ofDigit 7 true)) = some t ∧
        t.Exact ((ofDigit 9 false).val - (ofDigit 7 true).val)) ∧
    (∃ t, (ofDigit 9 false).add .self = some t ∧
        t.Exact ((ofDigit 9 false).val + (ofDigit 9 false).val)) ∧
      ∃ t, (ofDigit 9 false).subtract .self = some t ∧
        t.Exact ((ofDigit 9 false).val - (ofDigit 9 false).val) :=
  ⟨add_subtract_exact (wellFormed_ofDigit (by decide) false)
      (wellFormed_ofDigit (by decide) true),
    add_subtract_exact (wellFormed_ofDigit (by decide) false)
      (wellFormed_ofDigit (by decide) false)⟩

end Decimal

end Nbcd
