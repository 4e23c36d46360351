import Mathlib.Data.UInt
import Mathlib.Tactic.Ring

/-!
# Difference coding of rows

`DiffCompress`, `DiffCompress2`, `DiffCompressedSize` and `DiffExpand` from `jlib/jlzw.cpp`.  A row
is written as its difference from the previous one: the number of bytes that are the same, in
bytes of which all but the last are 255, and then a byte for the number of bytes that differ, and
these bytes.  A difference ends where two bytes in a row are the same again, or after 255 bytes.
-/

namespace RowDiff

/-! ### Writing -/

/-- What is left at `dst` and `buff`, and the size that is returned. -/
structure Written where
  dst : List UInt8
  buff : List UInt8
  result : ℕ

/-- The loop `while (cnt>=255)` with the byte behind it. -/
def sameCount (cnt : ℕ) : List UInt8 :=
  if 255 ≤ cnt then 255 :: sameCount (cnt - 255) else [UInt8.ofNat cnt]
termination_by cnt

/-- The place in the loops where the next bytes are compared. -/
inductive Phase
  /-- `while (*s==*b)`, after `cnt` bytes that are the same -/
  | same (cnt : ℕ)
  /-- `if (*s==*b)`, after the bytes `run` that have been written behind `dcnt` -/
  | diff (run : List UInt8)

/-- The bytes from `dcnt` on. -/
def closeRun (run : List UInt8) : List UInt8 := UInt8.ofNat run.length :: run

/-- `*b = *s`, which `DiffCompress2` leaves out. -/
def stored (update : Bool) (x y : UInt8) : UInt8 := if update then x else y

/-- The loops on what is left of the row, `s`, and of the previous row, `b`: what is still written
at `dst` from the last count on, and what `buff` holds from `b` on. -/
def compressLoop (update : Bool) : Phase → List UInt8 → List UInt8 → List UInt8 × List UInt8
  | .same cnt, x :: s, y :: b =>
    if x = y then
      let (d, buff) := compressLoop update (.same (cnt + 1)) s b
      (d, y :: buff)
    else
      let (d, buff) := compressLoop update (.diff [x]) s b
      (sameCount cnt ++ d, stored update x y :: buff)
  | .diff run, x :: s, y :: b =>
    -- two bytes in a row have to be the same
    if x = y ∧ s ≠ [] ∧ s.head? = b.head? then
      let (d, buff) := compressLoop update (.same 1) s b
      (closeRun run ++ d, y :: buff)
    else if run.length = 255 then
      let (d, buff) := compressLoop update (.diff [x]) s b
      (closeRun run ++ 0 :: d, stored update x y :: buff)
    else
      let (d, buff) := compressLoop update (.diff (run ++ [x])) s b
      (d, stored update x y :: buff)
  | .same cnt, _, b => (sameCount cnt, b)
  | .diff run, _, b => (closeRun run, b)

/-- For a row and a previous row of the same size, which is not zero. -/
def diffCompress (src buff : List UInt8) : Written :=
  let (dst, buff) := compressLoop true (.same 0) src buff
  ⟨dst, buff, dst.length % 2 ^ 32⟩

def diffCompress2 (src prev : List UInt8) : Written :=
  let (dst, prev) := compressLoop false (.same 0) src prev
  ⟨dst, prev, dst.length % 2 ^ 32⟩

/-! ### Reading -/

inductive Failure
  /-- a byte outside of `src` or `prev` is read -/
  | outside
  | exception (text : String)
  deriving DecidableEq

/-- A difference of two numbers of 32 bits. -/
def sub32 (a b : ℕ) : ℕ := (a + 2 ^ 32 - b % 2 ^ 32) % 2 ^ 32

/-- The loop that sums the bytes of a same-count. -/
def readSame : List UInt8 → Option (ℕ × List UInt8)
  | [] => none
  | c :: s => if c = 255 then (readSame s).map fun r => (255 + r.1, r.2) else some (c.toNat, s)

/-- The second part of the loop of `DiffExpand`, with the rounds that follow. -/
def expandDiff (next : ℕ → List UInt8 → List UInt8 → Except Failure (List UInt8 × List UInt8))
    (rs : ℕ) (b : List UInt8) : List UInt8 → Except Failure (List UInt8 × List UInt8)
  | [] => .error .outside
  | c :: s =>
    if s.length < c.toNat then .error .outside
    else do
      let (d, s') ← next (sub32 rs c.toNat) (s.drop c.toNat) (b.drop c.toNat)
      .ok (s.take c.toNat ++ d, s')

/-- The loop of `DiffExpand`: what is written at `dst`, and what is left of `src`.  Every round
reads a byte. -/
def expandLoop : ℕ → ℕ → List UInt8 → List UInt8 → Except Failure (List UInt8 × List UInt8)
  | 0, _, _, _ => .error .outside
  | fuel + 1, rs, s, b =>
    if rs = 0 then .ok ([], s)
    else
      match readSame s with
      | none => .error .outside
      | some (n, s) =>
        let cnt := n % 2 ^ 32
        let rs := sub32 rs cnt
        if b.length < cnt then .error .outside
        -- `(int)rs<=0`
        else if rs = 0 ∨ 2 ^ 31 ≤ rs then
          if rs = 0 then .ok (b.take cnt, s)
          else .error (.exception "Corrupt compressed data(1)")
        else do
          let (d, s') ← expandDiff (expandLoop fuel) rs (b.drop cnt) s
          .ok (b.take cnt ++ d, s')

/-- The row that is written, and the number of bytes of `src` that have been read. -/
def diffExpand (src prev : List UInt8) (rs : ℕ) : Except Failure (List UInt8 × ℕ) := do
  let (dst, s) ← expandLoop (src.length + 1) rs src prev
  .ok (dst, (src.length - s.length) % 2 ^ 32)

/-- The loop of `DiffCompressedSize`: what is left of `src`. -/
def sizeLoop : ℕ → ℕ → List UInt8 → Option (List UInt8)
  | 0, _, _ => none
  | fuel + 1, rs, s =>
    if rs = 0 then some s
    else
      match readSame s with
      | none => none
      | some (n, s) =>
        let rs := sub32 rs n
        if rs = 0 then some s
        else
          match s with
          | [] => none
          | c :: s =>
            if s.length < c.toNat then none else sizeLoop fuel (sub32 rs c.toNat) (s.drop c.toNat)

def diffCompressedSize (src : List UInt8) (rs : ℕ) : Option ℕ := do
  let s ← sizeLoop (src.length + 1) rs src
  some ((src.length - s.length) % 2 ^ 32)

/-! ### The format -/

/-- The bytes `src` code the row `cur` behind the row `prev`. -/
inductive Coded : List UInt8 → List UInt8 → List UInt8 → Prop
  | nil : Coded [] [] []
  | same {front : List UInt8} (h : front ≠ []) : Coded front front (sameCount front.length)
  | diff {front p d prev cur src : List UInt8} (hlen : d.length = p.length) (hpos : d ≠ [])
      (hmax : d.length ≤ 255) (h : Coded prev cur src) :
      Coded (front ++ (p ++ prev)) (front ++ (d ++ cur))
        (sameCount front.length ++ (closeRun d ++ src))

variable {front prev cur src rest s b run : List UInt8} {cnt fuel n rs : ℕ} {update : Bool}

theorem readSame_sameCount (cnt : ℕ) (rest : List UInt8) :
    readSame (sameCount cnt ++ rest) = some (cnt, rest) := by
  induction cnt using Nat.strong_induction_on with
  | _ cnt ih =>
    rw [sameCount]
    split_ifs with h
    · rw [List.cons_append, readSame, if_pos rfl, ih (cnt - 255) (by omega), Option.map_some,
        Nat.add_sub_cancel' h]
    · have hne : UInt8.ofNat cnt ≠ 255 := by
        intro heq
        have := congrArg UInt8.toNat heq
        rw [UInt8.toNat_ofNat', Nat.mod_eq_of_lt (by omega)] at this
        exact h (Nat.le_of_eq this.symm)
      rw [List.singleton_append, readSame, if_neg hne, UInt8.toNat_ofNat',
        Nat.mod_eq_of_lt (by omega)]

theorem length_sameCount (cnt : ℕ) : (sameCount cnt).length = cnt / 255 + 1 := by
  induction cnt using Nat.strong_induction_on with
  | _ cnt ih =>
    rw [sameCount]
    split_ifs with h
    · rw [List.length_cons, ih (cnt - 255) (by omega)]
      omega
    · rw [List.length_singleton, Nat.div_eq_of_lt (Nat.not_le.1 h)]

theorem sub32_eq {a c : ℕ} (h : c ≤ a) (ha : a < 2 ^ 32) : sub32 a c = a - c := by
  rw [sub32, Nat.mod_eq_of_lt (h.trans_lt ha)]
  omega

theorem toNat_closeRun (h : run.length ≤ 255) : (UInt8.ofNat run.length).toNat = run.length := by
  rw [UInt8.toNat_ofNat', Nat.mod_eq_of_lt (Nat.lt_succ_of_le h)]

/-- A difference is read back, whatever follows. -/
theorem expandDiff_closeRun {next : ℕ → List UInt8 → List UInt8 →
    Except Failure (List UInt8 × List UInt8)} {d p : List UInt8} (hlen : d.length = p.length)
    (hmax : d.length ≤ 255) (hrs : d.length + cur.length < 2 ^ 32)
    (h : next cur.length (src ++ rest) prev = .ok (cur, rest)) :
    expandDiff next (d.length + cur.length) (p ++ prev) (closeRun d ++ src ++ rest) =
      .ok (d ++ cur, rest) := by
  have hfit : ¬ (d ++ (src ++ rest)).length < d.length := by
    rw [List.length_append]
    exact Nat.not_lt.2 (Nat.le_add_right _ _)
  rw [closeRun, List.cons_append, List.cons_append, List.append_assoc, expandDiff,
    toNat_closeRun hmax, if_neg hfit, sub32_eq (Nat.le_add_right _ _) hrs,
    Nat.add_sub_cancel_left, List.drop_left, List.take_left, hlen, List.drop_left, h]
  rfl

/-- The first part of a round of `DiffExpand`, before a difference of the `n` bytes that are left. -/
theorem expandLoop_sameCount {d : List UInt8} (hn : 0 < n) (hrs : front.length + n < 2 ^ 32) :
    expandLoop (fuel + 1) (front.length + n) (sameCount front.length ++ d) (front ++ b) =
      if 2 ^ 31 ≤ n then .error (.exception "Corrupt compressed data(1)")
      else expandDiff (expandLoop fuel) n b d >>= fun r => .ok (front ++ r.1, r.2) := by
  have hsub : sub32 (front.length + n) front.length = n := by
    rw [sub32_eq (Nat.le_add_right _ _) hrs, Nat.add_sub_cancel_left]
  have hroom : ¬ (front ++ b).length < front.length := by
    rw [List.length_append]
    exact Nat.not_lt.2 (Nat.le_add_right _ _)
  rw [expandLoop, if_neg (by omega), readSame_sameCount]
  dsimp only
  rw [Nat.mod_eq_of_lt (by omega), hsub, if_neg hroom, List.drop_left, List.take_left]
  by_cases hbig : 2 ^ 31 ≤ n
  · rw [if_pos (Or.inr hbig), if_neg hn.ne', if_pos hbig]
  · rw [if_neg (fun h => h.elim hn.ne' hbig), if_neg hbig]

/-- `DiffExpand` reads a coded row of less than `2 ^ 31` bytes. -/
theorem expandLoop_coded (h : Coded prev cur src) (hcur : cur.length < 2 ^ 31)
    (hfuel : src.length < fuel) (rest : List UInt8) :
    expandLoop fuel cur.length (src ++ rest) prev = .ok (cur, rest) := by
  induction h generalizing fuel with
  | nil =>
    obtain ⟨fuel, rfl⟩ := Nat.exists_eq_add_of_lt hfuel
    rw [expandLoop, if_pos List.length_nil]
    rfl
  | @same front hne =>
    obtain ⟨fuel, rfl⟩ := Nat.exists_eq_add_of_lt hfuel
    have hpos : front.length ≠ 0 := fun h0 => hne (List.length_eq_zero_iff.1 h0)
    have hlt : front.length < 2 ^ 32 := hcur.trans (by decide)
    rw [expandLoop, if_neg hpos, readSame_sameCount]
    dsimp only
    rw [Nat.mod_eq_of_lt hlt, sub32_eq le_rfl hlt, Nat.sub_self, if_neg (Nat.lt_irrefl _),
      if_pos (Or.inl rfl), if_pos rfl, List.take_length]
  | @diff front p d prev cur src hlen hpos hmax h ih =>
    obtain ⟨fuel, rfl⟩ := Nat.exists_eq_add_of_lt hfuel
    rw [List.length_append, List.length_append] at hcur
    have hd : 0 < d.length := List.length_pos_iff.2 hpos
    have hnext := ih (by omega)
      (show src.length < (sameCount front.length ++ (closeRun d ++ src)).length + fuel by
        rw [List.length_append, List.length_append, length_sameCount]
        omega)
    have hall : (front ++ (d ++ cur)).length = front.length + (d.length + cur.length) := by
      rw [List.length_append, List.length_append]
    rw [hall, List.append_assoc, expandLoop_sameCount (by omega) (by omega), if_neg (by omega),
      expandDiff_closeRun hlen hmax (by omega) hnext]
    rfl

/-- `DiffCompressedSize` finds the end of a coded row. -/
theorem sizeLoop_coded (h : Coded prev cur src) (hcur : cur.length < 2 ^ 32)
    (hfuel : src.length < fuel) (rest : List UInt8) :
    sizeLoop fuel cur.length (src ++ rest) = some rest := by
  induction h generalizing fuel with
  | nil =>
    obtain ⟨fuel, rfl⟩ := Nat.exists_eq_add_of_lt hfuel
    rw [sizeLoop, if_pos List.length_nil]
    rfl
  | @same front hne =>
    obtain ⟨fuel, rfl⟩ := Nat.exists_eq_add_of_lt hfuel
    have hpos : front.length ≠ 0 := fun h0 => hne (List.length_eq_zero_iff.1 h0)
    rw [sizeLoop, if_neg hpos, readSame_sameCount]
    dsimp only
    rw [sub32_eq le_rfl hcur, Nat.sub_self, if_pos rfl]
  | @diff front p d prev cur src hlen hpos hmax h ih =>
    obtain ⟨fuel, rfl⟩ := Nat.exists_eq_add_of_lt hfuel
    rw [List.length_append, List.length_append] at hcur
    have hd : 0 < d.length := List.length_pos_iff.2 hpos
    have hsub : sub32 (front.length + (d.length + cur.length)) front.length =
        d.length + cur.length := by
      rw [sub32_eq (Nat.le_add_right _ _) hcur, Nat.add_sub_cancel_left]
    have hroom : ¬ (d ++ src ++ rest).length < d.length := by
      rw [List.append_assoc, List.length_append]
      exact Nat.not_lt.2 (Nat.le_add_right _ _)
    have hnext := ih (by omega)
      (show src.length < (sameCount front.length ++ (closeRun d ++ src)).length + fuel by
        rw [List.length_append, List.length_append, length_sameCount]
        omega)
    rw [sizeLoop, List.length_append, List.length_append, if_neg (by omega), List.append_assoc,
      readSame_sameCount]
    dsimp only
    rw [hsub, if_neg (by omega), closeRun, List.cons_append, List.cons_append]
    dsimp only
    rw [toNat_closeRun hmax, if_neg hroom, sub32_eq (Nat.le_add_right _ _) (by omega),
      Nat.add_sub_cancel_left, List.append_assoc, List.drop_left]
    exact hnext

/-! ### What the loops write -/

/-- The difference that ends here, with what follows coded. -/
theorem Coded.close {p : List UInt8} (h : Coded prev cur src) (hp : run.length = p.length)
    (hrun : run ≠ []) (hmax : run.length ≤ 255) (front : List UInt8) :
    Coded (front ++ (p ++ prev)) (front ++ (run ++ cur))
      (sameCount front.length ++ (closeRun run ++ src)) :=
  .diff hp hrun hmax h

/-- The loops write the coded row: behind a same-count of `front`, and behind a difference `run`
that has not ended. -/
theorem coded_compressLoop (update : Bool) (hsb : s.length = b.length) :
    (∀ front, front ++ s ≠ [] →
      Coded (front ++ b) (front ++ s) (compressLoop update (.same front.length) s b).1) ∧
    ∀ front run p : List UInt8, run.length = p.length → run ≠ [] → run.length ≤ 255 →
      Coded (front ++ (p ++ b)) (front ++ (run ++ s))
        (sameCount front.length ++ (compressLoop update (.diff run) s b).1) := by
  induction s generalizing b with
  | nil =>
    obtain rfl := List.length_eq_zero_iff.1 hsb.symm
    refine ⟨fun front hne => ?_, fun front run p hp hrun hmax => ?_⟩
    · rw [List.append_nil] at hne ⊢
      exact .same hne
    · have h := Coded.nil.close hp hrun hmax front
      rwa [List.append_nil (closeRun run)] at h
  | cons x s ih =>
    cases b with
    | nil => cases hsb
    | cons y b =>
      obtain ⟨ihsame, ihdiff⟩ := ih (Nat.succ.inj hsb)
      refine ⟨fun front hne => ?_, fun front run p hp hrun hmax => ?_⟩
      · rw [compressLoop]
        by_cases hxy : x = y
        · have h := ihsame (front ++ [x]) (List.append_ne_nil_of_left_ne_nil (by simp) s)
          rw [if_pos hxy]
          rw [List.length_append, List.length_singleton, List.append_assoc, List.append_assoc] at h
          exact hxy ▸ h
        · rw [if_neg hxy]
          exact ihdiff front [x] [y] rfl (List.cons_ne_nil _ _) (Nat.le_add_left 1 254)
      · rw [compressLoop]
        by_cases hsame : x = y ∧ s ≠ [] ∧ s.head? = b.head?
        · have h := ihsame [x] (List.cons_ne_nil _ _)
          rw [if_pos hsame]
          exact hsame.1 ▸ h.close hp hrun hmax front
        · rw [if_neg hsame]
          by_cases hfull : run.length = 255
          · have h := ihdiff [] [x] [y] rfl (List.cons_ne_nil _ _) (Nat.le_add_left 1 254)
            rw [if_pos hfull]
            rw [List.length_nil, sameCount, if_neg (by decide)] at h
            exact h.close hp hrun hmax front
          · have h := ihdiff front (run ++ [x]) (p ++ [y])
              (by rw [List.length_append, List.length_append, hp]; rfl)
              (List.append_ne_nil_of_left_ne_nil hrun _)
              (by rw [List.length_append]; exact Nat.lt_of_le_of_ne hmax hfull)
            rw [if_neg hfull]
            rwa [List.append_assoc, List.append_assoc] at h

/-- `DiffCompress` leaves the row in `buff`, and `DiffCompress2` the previous one. -/
theorem snd_compressLoop (update : Bool) (phase : Phase) (hsb : s.length = b.length) :
    (compressLoop update phase s b).2 = if update then s else b := by
  induction s generalizing b phase with
  | nil =>
    obtain rfl := List.length_eq_zero_iff.1 hsb.symm
    cases phase <;> cases update <;> rfl
  | cons x s ih =>
    cases b with
    | nil => cases hsb
    | cons y b =>
      have ih := fun phase => ih phase (Nat.succ.inj hsb)
      have hcons : ∀ z, (x = y ∧ z = y ∨ z = stored update x y) →
          z :: (if update then s else b) = if update then x :: s else y :: b := by
        rintro z (⟨rfl, rfl⟩ | rfl) <;> cases update <;> rfl
      cases phase with
      | same cnt =>
        rw [compressLoop]
        by_cases hxy : x = y
        · rw [if_pos hxy, ← hcons y (Or.inl ⟨hxy, rfl⟩), ← ih]
        · rw [if_neg hxy, ← hcons _ (Or.inr rfl), ← ih]
      | diff run =>
        rw [compressLoop]
        by_cases hsame : x = y ∧ s ≠ [] ∧ s.head? = b.head?
        · rw [if_pos hsame, ← hcons y (Or.inl ⟨hsame.1, rfl⟩), ← ih]
        · rw [if_neg hsame]
          by_cases hfull : run.length = 255
          · rw [if_pos hfull, ← hcons _ (Or.inr rfl), ← ih]
          · rw [if_neg hfull, ← hcons _ (Or.inr rfl), ← ih]

/-- Both functions write the same bytes. -/
theorem fst_compressLoop (phase : Phase) (s b : List UInt8) :
    (compressLoop false phase s b).1 = (compressLoop true phase s b).1 := by
  induction s generalizing b phase with
  | nil => cases phase <;> rfl
  | cons x s ih =>
    cases b with
    | nil => cases phase <;> rfl
    | cons y b =>
      cases phase with
      | same cnt =>
        rw [compressLoop, compressLoop]
        split_ifs
        · exact ih (.same (cnt + 1)) b
        · exact congrArg (sameCount cnt ++ ·) (ih (.diff [x]) b)
      | diff run =>
        rw [compressLoop, compressLoop]
        split_ifs
        · exact congrArg (closeRun run ++ ·) (ih (.same 1) b)
        · exact congrArg (fun d => closeRun run ++ 0 :: d) (ih (.diff [x]) b)
        · exact ih (.diff (run ++ [x])) b

/-! ### The size -/

/-- The extra bytes of a difference: its count, and two for every 255 bytes behind which it goes
on.  A run of same bytes in the middle of a row has at least two, and so never more bytes than it
stands for. -/
theorem length_compressLoop_le (update : Bool) (hsb : s.length = b.length) :
    (∀ cnt, (2 ≤ cnt ∨ 1 ≤ cnt ∧ s ≠ [] ∧ s.head? = b.head?) →
      (compressLoop update (.same cnt) s b).1.length ≤
        cnt + s.length + s.length / 255 * 2) ∧
    ∀ run : List UInt8, run ≠ [] → run.length ≤ 255 →
      (compressLoop update (.diff run) s b).1.length ≤
        run.length + s.length + 1 + (run.length + s.length - 1) / 255 * 2 := by
  induction s generalizing b with
  | nil =>
    obtain rfl := List.length_eq_zero_iff.1 hsb.symm
    refine ⟨fun cnt hcnt => ?_, fun run _ _ => ?_⟩
    · have htwo : 2 ≤ cnt := hcnt.resolve_right fun h => h.2.1 rfl
      change (sameCount cnt).length ≤ _
      rw [length_sameCount, List.length_nil]
      omega
    · change run.length + 1 ≤ _
      rw [List.length_nil]
      omega
  | cons x s ih =>
    cases b with
    | nil => cases hsb
    | cons y b =>
      obtain ⟨ihsame, ihdiff⟩ := ih (Nat.succ.inj hsb)
      have hone := ihdiff [x] (List.cons_ne_nil _ _) (Nat.le_add_left 1 254)
      rw [List.length_singleton, Nat.add_sub_cancel_left] at hone
      refine ⟨fun cnt hcnt => ?_, fun run hrun hmax => ?_⟩
      · rw [compressLoop]
        by_cases hxy : x = y
        · have h := ihsame (cnt + 1) (Or.inl (by omega))
          rw [if_pos hxy, List.length_cons]
          dsimp only
          omega
        · have htwo : 2 ≤ cnt := hcnt.resolve_right fun h => hxy (Option.some.inj h.2.2)
          rw [if_neg hxy, List.length_cons, List.length_append, length_sameCount]
          omega
      · have hpos : 0 < run.length := List.length_pos_iff.2 hrun
        rw [compressLoop]
        by_cases hsame : x = y ∧ s ≠ [] ∧ s.head? = b.head?
        · have h := ihsame 1 (Or.inr ⟨le_rfl, hsame.2⟩)
          rw [if_pos hsame, closeRun, List.length_append, List.length_cons, List.length_cons]
          omega
        · rw [if_neg hsame]
          by_cases hfull : run.length = 255
          · rw [if_pos hfull, closeRun, List.length_append, List.length_cons, List.length_cons,
              List.length_cons]
            omega
          · have h := ihdiff (run ++ [x]) (List.append_ne_nil_of_left_ne_nil hrun _)
              (by rw [List.length_append]; exact Nat.lt_of_le_of_ne hmax hfull)
            rw [List.length_append, List.length_singleton] at h
            rw [if_neg hfull, List.length_cons]
            dsimp only
            omega

theorem length_dst_le (update : Bool) (hsb : s.length = b.length) (hpos : 1 ≤ s.length) :
    (compressLoop update (.same 0) s b).1.length ≤ s.length + (s.length + 254) / 255 * 2 := by
  have hdiff : ∀ (x : UInt8) (s b : List UInt8), s.length = b.length →
      (compressLoop update (.diff [x]) s b).1.length ≤ 1 + s.length + 1 + s.length / 255 * 2 := by
    intro x s b hsb
    have h := (length_compressLoop_le update hsb).2 [x] (List.cons_ne_nil _ _) (Nat.le_add_left 1 254)
    rwa [List.length_singleton, Nat.add_sub_cancel_left] at h
  cases s with
  | nil => exact absurd hpos (Nat.not_succ_le_zero 0)
  | cons x s =>
    cases b with
    | nil => cases hsb
    | cons y b =>
      have hlen := Nat.succ.inj hsb
      rw [compressLoop]
      by_cases hxy : x = y
      swap
      · have h := hdiff x s b hlen
        rw [if_neg hxy, List.length_append, length_sameCount, List.length_cons]
        omega
      rw [if_pos hxy]
      -- one byte that is the same: it is alone, or the run goes on, or a difference follows
      cases s with
      | nil =>
        obtain rfl := List.length_eq_zero_iff.1 hlen.symm
        change (sameCount 1).length ≤ _
        rw [length_sameCount, List.length_singleton]
        decide
      | cons x' s =>
        cases b with
        | nil => cases hlen
        | cons y' b =>
          by_cases hxy' : x' = y'
          · have h := (length_compressLoop_le update hlen).1 1
              (Or.inr ⟨le_rfl, List.cons_ne_nil _ _, congrArg some hxy'⟩)
            rw [Nat.zero_add, List.length_cons]
            dsimp only
            omega
          · have h := hdiff x' s b (Nat.succ.inj hlen)
            rw [compressLoop, if_neg hxy', List.length_append, length_sameCount, List.length_cons,
              List.length_cons]
            omega

/-! ### The round trip -/

/-- The number of bytes at the beginning that are the same. -/
def lead : List UInt8 → List UInt8 → ℕ
  | x :: s, y :: b => if x = y then lead s b + 1 else 0
  | _, _ => 0

/-- The row is the previous one, or it goes on with a difference. -/
theorem eq_or_exists_lead (update : Bool) (hsb : s.length = b.length) (cnt : ℕ) :
    s = b ∧ lead s b = s.length ∧
        (compressLoop update (.same cnt) s b).1 = sameCount (cnt + s.length) ∨
      ∃ front x y s' b', s = front ++ x :: s' ∧ b = front ++ y :: b' ∧ s'.length = b'.length ∧
        lead s b = front.length ∧ (compressLoop update (.same cnt) s b).1 =
          sameCount (cnt + front.length) ++ (compressLoop update (.diff [x]) s' b').1 := by
  induction s generalizing b cnt with
  | nil =>
    obtain rfl := List.length_eq_zero_iff.1 hsb.symm
    exact Or.inl ⟨rfl, rfl, rfl⟩
  | cons x s ih =>
    cases b with
    | nil => cases hsb
    | cons y b =>
      have hlen := Nat.succ.inj hsb
      rw [compressLoop, lead]
      by_cases hxy : x = y
      · subst hxy
        rw [if_pos rfl, if_pos rfl, List.length_cons]
        rcases ih hlen (cnt + 1) with ⟨rfl, hlead, hout⟩ | ⟨front, x', y', s', b', rfl, rfl, h⟩
        · exact Or.inl ⟨rfl, congrArg Nat.succ hlead,
            hout.trans (congrArg sameCount (Nat.succ_add_eq_add_succ cnt s.length))⟩
        · obtain ⟨hlen', hlead, hout⟩ := h
          refine Or.inr ⟨x :: front, x', y', s', b', rfl, rfl, hlen', congrArg Nat.succ hlead, ?_⟩
          dsimp only
          rw [hout, List.length_cons, Nat.add_right_comm, Nat.add_assoc]
      · rw [if_neg hxy, if_neg hxy]
        exact Or.inr ⟨[], x, y, s, b, rfl, rfl, hlen, rfl, rfl⟩

/-- What the claim says of a row and the previous one of the same size. -/
structure RoundTrips (prev cur : List UInt8) : Prop where
  bound : (diffCompress cur prev).dst.length ≤ cur.length + (cur.length + 254) / 255 * 2
  buff : (diffCompress cur prev).buff = cur
  result : (diffCompress cur prev).result = (diffCompress cur prev).dst.length
  compress2 : (diffCompress2 cur prev).dst = (diffCompress cur prev).dst ∧
    (diffCompress2 cur prev).buff = prev ∧
    (diffCompress2 cur prev).result = (diffCompress cur prev).dst.length
  expand : ∀ rest, diffExpand ((diffCompress cur prev).dst ++ rest) prev cur.length =
    .ok (cur, (diffCompress cur prev).dst.length)
  size : ∀ rest, diffCompressedSize ((diffCompress cur prev).dst ++ rest) cur.length =
    some (diffCompress cur prev).dst.length

theorem length_sub_right (src rest : List UInt8) :
    (src ++ rest).length - rest.length = src.length := by
  rw [List.length_append, Nat.add_sub_cancel]

/-- More than `2 ^ 31 - 1` bytes behind the first same-count are taken for a corrupt row. -/
theorem diffExpand_far (hlen : cur.length = prev.length) (hmax : cur.length < 2 ^ 32)
    (hfar : 2 ^ 31 ≤ cur.length - lead cur prev) (rest : List UInt8) :
    diffExpand ((diffCompress cur prev).dst ++ rest) prev cur.length =
      .error (.exception "Corrupt compressed data(1)") := by
  rcases eq_or_exists_lead true hlen 0 with ⟨-, hlead, -⟩ | ⟨front, x, y, s, b, rfl, rfl, -, hlead,
    hout⟩
  · rw [hlead, Nat.sub_self] at hfar
    exact absurd hfar (by decide)
  · have hall : (front ++ x :: s).length = front.length + (s.length + 1) := by
      rw [List.length_append, List.length_cons]
    rw [hlead, hall, Nat.add_sub_cancel_left] at hfar
    rw [Nat.zero_add] at hout
    rw [diffExpand, diffCompress]
    dsimp only
    rw [hout, hall, List.append_assoc,
      expandLoop_sameCount (Nat.succ_pos _) (hall ▸ hmax), if_pos hfar]
    rfl

/-- The second part of a round, for what the loops write from a difference on. -/
theorem expandDiff_compressLoop (update : Bool) (hsb : s.length = b.length)
    (hs : s.length + 1 < 2 ^ 31) (x y : UInt8) (rest : List UInt8)
    (hfuel : (compressLoop update (.diff [x]) s b).1.length < fuel) :
    expandDiff (expandLoop fuel) (s.length + 1) (y :: b)
      ((compressLoop update (.diff [x]) s b).1 ++ rest) = .ok (x :: s, rest) := by
  have hcoded := (coded_compressLoop update hsb).2 [] [x] [y] rfl (List.cons_ne_nil _ _)
    (Nat.le_add_left 1 254)
  have hlong : (sameCount 0 ++ (compressLoop update (.diff [x]) s b).1).length < fuel + 1 := by
    rw [List.length_append, length_sameCount]
    omega
  -- with a same-count of zero in front it is a coded row
  have hback := expandLoop_coded hcoded hs hlong rest
  have hround := @expandLoop_sameCount [] (y :: b) fuel (s.length + 1)
    ((compressLoop update (.diff [x]) s b).1 ++ rest) (Nat.succ_pos _)
    (by rw [List.length_nil, Nat.zero_add]; exact hs.trans (by decide))
  rw [if_neg (Nat.not_le.2 hs), List.length_nil, Nat.zero_add] at hround
  rw [List.append_assoc] at hback
  have heq := hround.symm.trans hback
  cases h : expandDiff (expandLoop fuel) (s.length + 1) (y :: b)
      ((compressLoop update (.diff [x]) s b).1 ++ rest) with
  | error e =>
    rw [h] at heq
    cases heq
  | ok r =>
    rw [h] at heq
    exact congrArg Except.ok (Except.ok.inj heq)

theorem expandLoop_near (hlen : cur.length = prev.length) (hpos : 1 ≤ cur.length)
    (hmax : cur.length < 2 ^ 32) (hnear : cur.length - lead cur prev < 2 ^ 31)
    (rest : List UInt8) :
    expandLoop (((diffCompress cur prev).dst ++ rest).length + 1) cur.length
      ((diffCompress cur prev).dst ++ rest) prev = .ok (cur, rest) := by
  have hdst : (diffCompress cur prev).dst = (compressLoop true (.same 0) cur prev).1 := rfl
  rcases eq_or_exists_lead true hlen 0 with ⟨rfl, -, hout⟩ | ⟨front, x, y, s, b, rfl, rfl, hsb,
    hlead, hout⟩
  · rw [Nat.zero_add] at hout
    rw [hdst, hout, expandLoop, if_neg (Nat.ne_of_gt hpos), readSame_sameCount]
    dsimp only
    rw [Nat.mod_eq_of_lt hmax, sub32_eq le_rfl hmax, Nat.sub_self, if_neg (Nat.lt_irrefl _),
      if_pos (Or.inl rfl), if_pos rfl, List.take_length]
  · have hall : (front ++ x :: s).length = front.length + (s.length + 1) := by
      rw [List.length_append, List.length_cons]
    rw [hlead, hall, Nat.add_sub_cancel_left] at hnear
    rw [Nat.zero_add] at hout
    rw [hdst, hout, hall, List.append_assoc,
      expandLoop_sameCount (Nat.succ_pos _) (hall ▸ hmax), if_neg (Nat.not_le.2 hnear),
      expandDiff_compressLoop true hsb hnear x y rest]
    · rfl
    · rw [List.length_append, List.length_append, length_sameCount]
      omega

/-- The coded row has less than `2 ^ 32` bytes, so that its size is returned. -/
theorem length_dst_lt (hlen : cur.length = prev.length) (hmax : cur.length < 2 ^ 32)
    (hnear : cur.length - lead cur prev < 2 ^ 31) :
    (diffCompress cur prev).dst.length < 2 ^ 32 := by
  have hdst : (diffCompress cur prev).dst = (compressLoop true (.same 0) cur prev).1 := rfl
  rcases eq_or_exists_lead true hlen 0 with ⟨-, -, hout⟩ | ⟨front, x, y, s, b, rfl, rfl, hsb,
    hlead, hout⟩
  · rw [hdst, hout, length_sameCount]
    omega
  · have h := (length_compressLoop_le true hsb).2 [x] (List.cons_ne_nil _ _) (Nat.le_add_left 1 254)
    rw [List.length_append, List.length_cons] at hmax
    rw [hlead, List.length_append, List.length_cons, Nat.add_sub_cancel_left] at hnear
    rw [List.length_singleton, Nat.add_sub_cancel_left] at h
    rw [hdst, hout, List.length_append, length_sameCount]
    omega

theorem sizeLoop_dst (hlen : cur.length = prev.length) (hpos : 1 ≤ cur.length)
    (hmax : cur.length < 2 ^ 32) (rest : List UInt8) :
    sizeLoop (((diffCompress cur prev).dst ++ rest).length + 1) cur.length
      ((diffCompress cur prev).dst ++ rest) = some rest := by
  have hcoded := (coded_compressLoop true hlen).1 [] (List.length_pos_iff.1 hpos)
  refine sizeLoop_coded hcoded hmax ?_ rest
  rw [List.length_append]
  exact Nat.lt_succ_of_le (Nat.le_add_right _ _)

/-- Difference coding round-trips unless `2 ^ 31` bytes or more follow the first run of bytes that
are the same. -/
theorem rowDiff_roundTrips_iff (hlen : cur.length = prev.length) (hpos : 1 ≤ cur.length)
    (hmax : cur.length < 2 ^ 32) :
    RoundTrips prev cur ↔ cur.length - lead cur prev < 2 ^ 31 := by
  constructor
  · intro h
    by_contra hfar
    have hexpand := h.expand []
    rw [diffExpand_far hlen hmax (Nat.not_lt.1 hfar)] at hexpand
    cases hexpand
  · intro hnear
    have hlt := length_dst_lt hlen hmax hnear
    have hsame : (diffCompress2 cur prev).dst = (diffCompress cur prev).dst :=
      fst_compressLoop (.same 0) cur prev
    refine ⟨length_dst_le true hlen hpos, snd_compressLoop true (.same 0) hlen,
      Nat.mod_eq_of_lt hlt, ⟨hsame, snd_compressLoop false (.same 0) hlen, ?_⟩,
      fun rest => ?_, fun rest => ?_⟩
    · change (diffCompress2 cur prev).dst.length % 2 ^ 32 = _
      rw [hsame, Nat.mod_eq_of_lt hlt]
    · rw [diffExpand, expandLoop_near hlen hpos hmax hnear]
      change Except.ok (cur, _ % 2 ^ 32) = _
      rw [length_sub_right, Nat.mod_eq_of_lt hlt]
    · rw [diffCompressedSize, sizeLoop_dst hlen hpos hmax, Option.bind_eq_bind, Option.bind_some,
        length_sub_right, Nat.mod_eq_of_lt hlt]

theorem rowDiff_roundTrips_three :
    RoundTrips [1, 2, 3] [1, 5, 3] ↔ [1, 5, 3].length - lead [1, 5, 3] [1, 2, 3] < 2 ^ 31 :=
  rowDiff_roundTrips_iff rfl (by decide) (by decide)

/-- A row of `2 ^ 31` ones behind a row of zeros is not read back. -/
theorem expand_ones_behind_zeros :
    diffExpand (diffCompress (List.replicate (2 ^ 31) 1) (List.replicate (2 ^ 31) 0)).dst
      (List.replicate (2 ^ 31) 0) (2 ^ 31) =
        .error (.exception "Corrupt compressed data(1)") := by
  have hlead : ∀ n, lead (List.replicate n 1) (List.replicate n 0) = 0 := by
    intro n
    cases n with
    | zero => rfl
    | succ n => rw [List.replicate_succ, List.replicate_succ, lead, if_neg (by decide)]
  have h := @diffExpand_far (List.replicate (2 ^ 31) 0) (List.replicate (2 ^ 31) 1)
    (by rw [List.length_replicate, List.length_replicate])
    (by rw [List.length_replicate]; exact Nat.pow_lt_pow_right (by decide) (by decide))
    (by rw [List.length_replicate, hlead]; exact le_rfl) []
  rwa [List.append_nil, List.length_replicate] at h

end RowDiff
