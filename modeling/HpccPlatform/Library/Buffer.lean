import Mathlib.Data.List.GetD
import Mathlib.Tactic.SplitIfs

/-!
# Buffers

A buffer is the list of its bytes.  An access behind its end has no result, so that an operation
that has one stays within the buffers it is given.
-/

namespace Buffer

variable {buf tgt src : List UInt8} {i k n o : ℕ} {c : UInt8}

def peek (buf : List UInt8) (i : ℕ) : Option UInt8 := buf[i]?

def poke (buf : List UInt8) (i : ℕ) (c : UInt8) : Option (List UInt8) :=
  if i < buf.length then some (buf.set i c) else none

/-- `memset` of `n` bytes from `o` on. -/
def memset (buf : List UInt8) (o : ℕ) (c : UInt8) (n : ℕ) : Option (List UInt8) :=
  if o + n ≤ buf.length then some (buf.take o ++ List.replicate n c ++ buf.drop (o + n)) else none

/-- `memcpy` of the first `n` bytes to the beginning of a buffer. -/
def memcpy (tgt src : List UInt8) (n : ℕ) : Option (List UInt8) :=
  if n ≤ tgt.length ∧ n ≤ src.length then some (src.take n ++ tgt.drop n) else none

/-- A property of bytes that is decided for each of them. -/
@[elab_as_elim]
theorem forall_byte {motive : UInt8 → Prop} (b : UInt8)
    (h : ∀ n : Fin 256, motive (UInt8.ofNat n)) : motive b := by
  have hb := h ⟨b.toNat, b.toNat_lt⟩
  rwa [UInt8.ofNat_toNat] at hb

theorem peek_of_lt (h : i < buf.length) : peek buf i = some (buf.getD i 0) := by
  rw [peek, List.getElem?_eq_getElem h, List.getD_eq_getElem _ _ h]

theorem lt_of_peek (h : peek buf i = some c) : i < buf.length :=
  (List.getElem?_eq_some_iff.1 h).1

theorem poke_of_lt (h : i < buf.length) (c : UInt8) : poke buf i c = some (buf.set i c) :=
  if_pos h

@[simp] theorem getD_set (h : i < buf.length) (c : UInt8) (k : ℕ) :
    (buf.set i c).getD k 0 = if k = i then c else buf.getD k 0 := by
  by_cases hk : k = i
  · subst hk
    simp [List.getD_eq_getElem?_getD, h]
  · simp [List.getD_eq_getElem?_getD, List.getElem?_set_ne (Ne.symm hk), hk]

theorem getD_eq_zero (h : buf.length ≤ k) : buf.getD k 0 = 0 := by
  rw [List.getD_eq_getElem?_getD, List.getElem?_eq_none h, Option.getD_none]

theorem ext_getD {r : List UInt8} (hlen : buf.length = r.length)
    (h : ∀ k < buf.length, buf.getD k 0 = r.getD k 0) : buf = r := by
  refine List.ext_getElem hlen fun k h₁ h₂ => ?_
  have hk := h k h₁
  rwa [List.getD_eq_getElem _ _ h₁, List.getD_eq_getElem _ _ h₂] at hk

/-! ### What is written -/

/-- The bytes from `lo` up to `hi` of a buffer have been set to those of `f`. -/
structure Filled (f : ℕ → UInt8) (lo hi : ℕ) (buf r : List UInt8) : Prop where
  length : r.length = buf.length
  getD : ∀ k, r.getD k 0 = if lo ≤ k ∧ k < hi then f k else buf.getD k 0

variable {f : ℕ → UInt8} {lo mid hi : ℕ} {r r' : List UInt8}

theorem filled_refl (f : ℕ → UInt8) (lo : ℕ) (buf : List UInt8) : Filled f lo lo buf buf where
  length := rfl
  getD k := (if_neg fun h => Nat.lt_irrefl k (Nat.lt_of_lt_of_le h.2 h.1)).symm

theorem Filled.append (h : Filled f lo mid buf r) (h' : Filled f mid hi r r') (hlo : lo ≤ mid)
    (hhi : mid ≤ hi) : Filled f lo hi buf r' where
  length := h'.length.trans h.length
  getD k := by
    rw [h'.getD, h.getD]
    split_ifs <;> first | rfl | omega

theorem Filled.prepend (h : Filled f mid hi buf r) (h' : Filled f lo mid r r') (hlo : lo ≤ mid)
    (hhi : mid ≤ hi) : Filled f lo hi buf r' where
  length := h'.length.trans h.length
  getD k := by
    rw [h'.getD, h.getD]
    split_ifs <;> first | rfl | omega

theorem Filled.congr {g : ℕ → UInt8} (h : Filled f lo hi buf r)
    (hg : ∀ k, lo ≤ k → k < hi → f k = g k) : Filled g lo hi buf r where
  length := h.length
  getD k := by
    rw [h.getD]
    split_ifs with hk
    · exact hg k hk.1 hk.2
    · rfl

/-- A buffer that has been filled as a whole. -/
theorem Filled.eq_map (h : Filled f 0 hi buf r) (hbuf : buf.length = hi) :
    r = (List.range hi).map f := by
  refine ext_getD (by rw [h.length, hbuf, List.length_map, List.length_range]) fun k hk => ?_
  rw [h.length, hbuf] at hk
  rw [h.getD, if_pos ⟨Nat.zero_le k, hk⟩]
  simp [List.getD_eq_getElem?_getD, hk]

theorem poke_filled (h : i < buf.length) (hc : c = f i) :
    ∃ r, poke buf i c = some r ∧ Filled f i (i + 1) buf r := by
  refine ⟨_, poke_of_lt h c, List.length_set .., fun k => ?_⟩
  rw [getD_set h]
  by_cases hk : k = i
  · rw [if_pos hk, if_pos ⟨Nat.le_of_eq hk.symm, hk ▸ Nat.lt_succ_self _⟩, hc, hk]
  · rw [if_neg hk, if_neg (by omega)]

theorem memset_filled (h : o + n ≤ buf.length) (c : UInt8) :
    ∃ r, memset buf o c n = some r ∧ Filled (fun _ => c) o (o + n) buf r := by
  refine ⟨_, if_pos h, ?_, fun k => ?_⟩
  · simp only [List.length_append, List.length_take, List.length_replicate, List.length_drop]
    omega
  · have ho : (buf.take o).length = o := by rw [List.length_take]; omega
    rw [List.append_assoc]
    by_cases hlow : k < o
    · rw [List.getD_append _ _ _ _ (by rwa [ho]), if_neg (fun h => absurd hlow (Nat.not_lt.2 h.1))]
      simp [List.getD_eq_getElem?_getD, hlow]
    rw [List.getD_append_right _ _ _ _ (by rw [ho]; exact Nat.not_lt.1 hlow), ho]
    by_cases hhigh : k < o + n
    · rw [if_pos ⟨Nat.not_lt.1 hlow, hhigh⟩, List.getD_append _ _ _ _ (by
        rw [List.length_replicate]; omega)]
      have hk : k - o < n := by omega
      simp [List.getD_eq_getElem?_getD, hk]
    · rw [if_neg (fun h => hhigh h.2), List.getD_append_right _ _ _ _ (by
        rw [List.length_replicate]; omega), List.length_replicate]
      have hk : o + n + (k - o - n) = k := by omega
      simp [List.getD_eq_getElem?_getD, List.getElem?_drop, hk]

theorem memcpy_filled (htgt : n ≤ tgt.length) (hsrc : n ≤ src.length) :
    ∃ r, memcpy tgt src n = some r ∧ Filled (fun k => src.getD k 0) 0 n tgt r := by
  have hn : (src.take n).length = n := by rw [List.length_take]; omega
  refine ⟨_, if_pos ⟨htgt, hsrc⟩, ?_, fun k => ?_⟩
  · rw [List.length_append, hn, List.length_drop]
    omega
  · by_cases hk : k < n
    · rw [List.getD_append _ _ _ _ (by rwa [hn]), if_pos ⟨Nat.zero_le k, hk⟩]
      simp [List.getD_eq_getElem?_getD, hk]
    · rw [List.getD_append_right _ _ _ _ (by rw [hn]; exact Nat.not_lt.1 hk),
        if_neg (fun h => hk h.2), hn]
      have hadd : n + (k - n) = k := by omega
      simp [List.getD_eq_getElem?_getD, List.getElem?_drop, hadd]

end Buffer
