import Mathlib.Data.UInt

/-!
# Run-length coding of rows

`RLECompress` and `RLEExpand` from `jlib/jlzw.cpp`.  The bytes `0xd1` to `0xdf` stand for up to 15
repeats of the previous byte, `0xd0` followed by a byte below `0xd0` for up to 222 repeats, and
`0xd0` followed by one of `0xd0` to `0xdf` for that byte itself.  A row that would not get shorter
is stored as it is behind `0xd0 0xff`.
-/

namespace RowCompress

/-! ### `RLECompress` -/

/-- What `RLECompress` leaves at `dst`, the number of bytes at `dst` that it has written at some
time, and the size that it returns. -/
structure Compressed where
  bytes : List UInt8
  written : ℕ
  result : ℕ
  deriving DecidableEq, Repr

namespace RLECompress

/-- A run of `cnt` repeats of the previous byte.  The error is the output at `goto Fail`. -/
def putRun (size cnt : ℕ) (out : List UInt8) : Except (List UInt8) (List UInt8) :=
  if cnt ≤ 15 then .ok (out ++ [0xd0 + UInt8.ofNat cnt])
  else
    let out := out ++ [0xd0]
    if out.length = size then .error out
    else .ok (out ++ [UInt8.ofNat (cnt - 15)])

def putLiteral (size : ℕ) (c : UInt8) (out : List UInt8) : Except (List UInt8) (List UInt8) :=
  if c < 0xd0 ∨ 0xe0 ≤ c then .ok (out ++ [c])
  else
    let out := out ++ [0xd0]
    if out.length = size then .error out
    else .ok (out ++ [c])

/-- The test `out==outmax`. -/
def checkRoom (size : ℕ) (out : List UInt8) : Except (List UInt8) (List UInt8) :=
  if out.length = size then .error out else .ok out

/-- The end of the inner loop, if it has been entered. -/
def flush (size cnt : ℕ) (out : List UInt8) : Except (List UInt8) (List UInt8) :=
  if cnt = 0 then .ok out else putRun size cnt out >>= checkRoom size

/-- The loops of `RLECompress`: `cnt` bytes equal to `pc` have been counted, none of them outside
of the inner loop. -/
def loop (size : ℕ) : UInt8 → ℕ → List UInt8 → List UInt8 → Except (List UInt8) (List UInt8)
  | _, 0, out, [] => .ok out
  | _, cnt + 1, out, [] => putRun size (cnt + 1) out
  | pc, cnt, out, c :: rest =>
    if c = pc ∧ cnt ≠ 222 then loop size pc (cnt + 1) out rest
    else
      flush size cnt out >>= putLiteral size c >>= fun out =>
        if rest = [] then .ok out else checkRoom size out >>= fun out => loop size c 0 out rest

end RLECompress

def RLECompress (src : List UInt8) : Compressed :=
  if src = [] then ⟨[], 0, 0⟩
  else
    match RLECompress.loop src.length 0 0 [] src with
    | .ok out => ⟨out, out.length, out.length % 2 ^ 32⟩
    | .error out =>
      ⟨0xd0 :: 0xff :: src, max out.length (src.length + 2), (src.length + 2) % 2 ^ 32⟩

/-! ### `RLEExpand` -/

/-- `RLEExpand` throws for a format that it does not know.  With `overread` it would read behind
the end of its input. -/
inductive Fault where
  | corrupt
  | overread
  deriving DecidableEq, Repr

namespace RLEExpand

/-- The bytes `w` are written with room for `left`; unless they fill it, what `next` writes
follows. -/
def emit (left : ℕ) (w rest : List UInt8) (next : Except Fault (List UInt8 × List UInt8)) :
    Except Fault (List UInt8 × List UInt8) :=
  if left = w.length then .ok (w, rest) else next.map fun p => (w ++ p.1, p.2)

/-- The loop of `RLEExpand` with room for `left` bytes: what it writes, and the input behind what
it has read. -/
def loop : ℕ → UInt8 → List UInt8 → Except Fault (List UInt8 × List UInt8)
  | _, _, [] => .error .overread
  | left, pc, c :: rest =>
    if c < 0xd0 ∨ 0xe0 ≤ c then emit left [c] rest (loop (left - 1) c rest)
    else if c ≠ 0xd0 then
      let cnt := min left (c - 0xd0).toNat
      emit left (List.replicate cnt pc) rest (loop (left - cnt) pc rest)
    else
      match rest with
      | [] => .error .overread
      | c :: rest =>
        if 0xd0 ≤ c then
          if 0xe0 ≤ c then .error .corrupt
          else emit left [c] rest (loop (left - 1) c rest)
        else
          let cnt := min left (c + 15).toNat
          emit left (List.replicate cnt pc) rest (loop (left - cnt) pc rest)

end RLEExpand

/-- The bytes that `RLEExpand` writes at `dst` and the size that it returns. -/
def RLEExpand (src : List UInt8) (expsize : ℕ) : Except Fault (List UInt8 × ℕ) :=
  if expsize = 0 then .ok ([], 0)
  else
    match src with
    | [] => .error .overread
    | c :: rest =>
      if c = 0xd0 ∧ rest = [] then .error .overread
      else if c = 0xd0 ∧ rest.head? = some 0xff then
        if rest.length - 1 < expsize then .error .overread
        else .ok (rest.tail.take expsize, (expsize + 2) % 2 ^ 32)
      else do
        let (out, left) ← RLEExpand.loop expsize 0 src
        .ok (out, (src.length - left.length) % 2 ^ 32)

/-! ### Codes -/

/-- The bytes of a run of `cnt` repeats. -/
def runCode (cnt : ℕ) : List UInt8 :=
  if cnt ≤ 15 then [0xd0 + UInt8.ofNat cnt] else [0xd0, UInt8.ofNat (cnt - 15)]

/-- The bytes of `c` itself. -/
def literalCode (c : UInt8) : List UInt8 := if c < 0xd0 ∨ 0xe0 ≤ c then [c] else [0xd0, c]

/-! ### What the codes expand to -/

namespace RLEExpand

variable {left cnt : ℕ} {pc c : UInt8} {code s rest : List UInt8}

theorem loop_literalCode (left : ℕ) (pc c : UInt8) (rest : List UInt8) :
    loop left pc (literalCode c ++ rest) = emit left [c] rest (loop (left - 1) c rest) := by
  unfold literalCode
  split
  · next h =>
    rw [List.singleton_append, loop.eq_def]
    exact if_pos h
  · next h =>
    obtain ⟨hlow, hhigh⟩ := not_or.1 h
    rw [List.cons_append, List.singleton_append, loop.eq_def]
    dsimp only
    rw [if_neg (by decide), if_neg (by decide)]
    rw [if_pos (UInt8.not_lt.1 hlow), if_neg hhigh]

theorem loop_runCode (hpos : 0 < cnt) (hmax : cnt ≤ 222) (hleft : cnt ≤ left) (pc : UInt8)
    (rest : List UInt8) :
    loop left pc (runCode cnt ++ rest) =
      emit left (List.replicate cnt pc) rest (loop (left - cnt) pc rest) := by
  unfold runCode
  split
  · next h =>
    have hcode : ∀ n ≤ 15, 0 < n →
        ¬ ((0xd0 + UInt8.ofNat n : UInt8) < 0xd0 ∨ 0xe0 ≤ 0xd0 + UInt8.ofNat n) ∧
          (0xd0 + UInt8.ofNat n : UInt8) ≠ 0xd0 ∧ (0xd0 + UInt8.ofNat n - 0xd0).toNat = n := by
      decide
    obtain ⟨hlit, hne, hcnt⟩ := hcode cnt h hpos
    rw [List.singleton_append, loop.eq_def]
    dsimp only
    rw [if_neg hlit, if_pos hne, hcnt, Nat.min_eq_right hleft]
  · next h =>
    have hbyte : (UInt8.ofNat (cnt - 15)).toNat = cnt - 15 := by
      rw [UInt8.toNat_ofNat']
      omega
    have hlow : ¬ (0xd0 : UInt8) ≤ UInt8.ofNat (cnt - 15) := by
      rw [UInt8.le_iff_toNat_le, hbyte, show (0xd0 : UInt8).toNat = 208 from rfl]
      omega
    have hcnt : (UInt8.ofNat (cnt - 15) + 15).toNat = cnt := by
      rw [UInt8.toNat_add, hbyte, show (15 : UInt8).toNat = 15 from rfl]
      omega
    rw [List.cons_append, List.singleton_append, loop.eq_def]
    dsimp only
    rw [if_neg (by decide), if_neg (by decide)]
    rw [if_neg hlow, hcnt, Nat.min_eq_right hleft]

/-- After a byte `pc`, the code `code` stands for `s`, whatever follows it. -/
def Expands (pc : UInt8) (code s : List UInt8) : Prop :=
  ∀ tail, loop s.length pc (code ++ tail) = .ok (s, tail)

theorem Expands.literal_last (pc c : UInt8) : Expands pc (literalCode c) [c] := by
  intro tail
  rw [loop_literalCode, emit, if_pos rfl]

theorem Expands.literal (h : Expands c code s) (hs : s ≠ []) (pc : UInt8) :
    Expands pc (literalCode c ++ code) (c :: s) := by
  intro tail
  have hne : (c :: s).length ≠ [c].length := by simpa using hs
  rw [List.append_assoc, loop_literalCode, emit, if_neg hne, List.length_cons,
    Nat.add_sub_cancel, h tail]
  rfl

theorem Expands.run_last (hpos : 0 < cnt) (hmax : cnt ≤ 222) (pc : UInt8) :
    Expands pc (runCode cnt) (List.replicate cnt pc) := by
  intro tail
  rw [loop_runCode hpos hmax (List.length_replicate.ge), emit, if_pos rfl]

theorem Expands.run (h : Expands pc code s) (hs : s ≠ []) (hpos : 0 < cnt) (hmax : cnt ≤ 222) :
    Expands pc (runCode cnt ++ code) (List.replicate cnt pc ++ s) := by
  intro tail
  have hlen : (List.replicate cnt pc ++ s).length = cnt + s.length := by simp
  have hne : (List.replicate cnt pc ++ s).length ≠ (List.replicate cnt pc).length := by
    simpa using hs
  rw [List.append_assoc, loop_runCode hpos hmax (by rw [hlen]; exact Nat.le_add_right ..), emit,
    if_neg hne, hlen, Nat.add_sub_cancel_left, h tail]
  rfl

end RLEExpand

/-! ### What the encoder writes -/

namespace RLECompress

variable {size cnt : ℕ} {out out' src : List UInt8} {c pc : UInt8}

/-- The bytes at `dst`, also when the room has run out. -/
def output : Except (List UInt8) (List UInt8) → List UInt8
  | .ok out => out
  | .error out => out

theorem putRun_ok (h : putRun size cnt out = .ok out') : out' = out ++ runCode cnt := by
  unfold putRun at h
  unfold runCode
  split at h <;> rename_i hcnt
  · rw [if_pos hcnt]
    exact (Except.ok.inj h).symm
  · rw [if_neg hcnt]
    dsimp only at h
    split at h
    · cases h
    · rw [← Except.ok.inj h, List.append_assoc, List.singleton_append]

theorem putLiteral_ok (h : putLiteral size c out = .ok out') : out' = out ++ literalCode c := by
  unfold putLiteral at h
  unfold literalCode
  split at h <;> rename_i hc
  · rw [if_pos hc]
    exact (Except.ok.inj h).symm
  · rw [if_neg hc]
    dsimp only at h
    split at h
    · cases h
    · rw [← Except.ok.inj h, List.append_assoc, List.singleton_append]

theorem putRun_length_le (hout : out.length < size) (cnt : ℕ) :
    (output (putRun size cnt out)).length ≤ size := by
  unfold putRun
  split
  · simpa [output] using Nat.succ_le_of_lt hout
  · dsimp only
    split
    · next hfull => exact hfull.le
    · next hroom =>
      rw [List.length_append, List.length_singleton] at hroom
      simp only [output, List.length_append, List.length_singleton]
      omega

theorem putLiteral_length_le (hout : out.length < size) (c : UInt8) :
    (output (putLiteral size c out)).length ≤ size := by
  unfold putLiteral
  split
  · simpa [output] using Nat.succ_le_of_lt hout
  · dsimp only
    split
    · next hfull => exact hfull.le
    · next hroom =>
      rw [List.length_append, List.length_singleton] at hroom
      simp only [output, List.length_append, List.length_singleton]
      omega

theorem checkRoom_ok (h : checkRoom size out = .ok out') : out' = out ∧ out.length ≠ size := by
  unfold checkRoom at h
  split at h
  · cases h
  · next hne => exact ⟨(Except.ok.inj h).symm, hne⟩

theorem output_checkRoom (size : ℕ) (out : List UInt8) : output (checkRoom size out) = out := by
  unfold checkRoom
  split <;> rfl

theorem output_bind_le {x : Except (List UInt8) (List UInt8)}
    {f : List UInt8 → Except (List UInt8) (List UInt8)} (hx : (output x).length ≤ size)
    (hf : ∀ out, x = .ok out → (output (f out)).length ≤ size) :
    (output (x >>= f)).length ≤ size := by
  cases x with
  | error out => exact hx
  | ok out => exact hf out rfl

theorem exists_of_bind_ok {x : Except (List UInt8) (List UInt8)}
    {f : List UInt8 → Except (List UInt8) (List UInt8)} (h : x >>= f = .ok out') :
    ∃ out, x = .ok out ∧ f out = .ok out' := by
  cases x with
  | error out => cases h
  | ok out => exact ⟨out, rfl, h⟩

theorem flush_length_le (hout : out.length < size) (cnt : ℕ) :
    (output (flush size cnt out)).length ≤ size := by
  unfold flush
  split
  · exact hout.le
  · refine output_bind_le (putRun_length_le hout cnt) fun out' h => ?_
    have hle : (output (putRun size cnt out)).length ≤ size := putRun_length_le hout cnt
    rw [h] at hle
    rwa [output_checkRoom]

/-- There is still room after a run that does not end the source. -/
theorem flush_length_lt (hout : out.length < size) (h : flush size cnt out = .ok out') :
    out'.length < size := by
  have hle : (output (flush size cnt out)).length ≤ size := flush_length_le hout cnt
  rw [h] at hle
  refine lt_of_le_of_ne hle ?_
  unfold flush at h
  split at h
  · rw [← Except.ok.inj h]
    exact hout.ne
  · obtain ⟨out'', -, h⟩ := exists_of_bind_ok h
    obtain ⟨rfl, hne⟩ := checkRoom_ok h
    exact hne

theorem flush_ok (h : flush size cnt out = .ok out') :
    out' = out ++ if cnt = 0 then [] else runCode cnt := by
  unfold flush at h
  split at h <;> rename_i hcnt
  · rw [if_pos hcnt, List.append_nil]
    exact (Except.ok.inj h).symm
  · obtain ⟨out'', hrun, h⟩ := exists_of_bind_ok h
    obtain ⟨rfl, -⟩ := checkRoom_ok h
    rw [if_neg hcnt]
    exact putRun_ok hrun

/-- No byte is written behind the size of the source before the room runs out. -/
theorem loop_length_le (hout : out.length < size) (pc : UInt8) (cnt : ℕ) (src : List UInt8) :
    (output (loop size pc cnt out src)).length ≤ size := by
  induction src generalizing pc cnt out with
  | nil =>
    cases cnt with
    | zero => exact hout.le
    | succ cnt => exact putRun_length_le hout _
  | cons c rest ih =>
    rw [loop]
    split
    · exact ih hout pc (cnt + 1)
    have hput : (output (flush size cnt out >>= putLiteral size c)).length ≤ size :=
      output_bind_le (flush_length_le hout cnt) fun out' h =>
        putLiteral_length_le (flush_length_lt hout h) c
    refine output_bind_le hput fun out' h => ?_
    rw [h] at hput
    split
    · exact hput
    · refine output_bind_le (by rwa [output_checkRoom]) fun out'' hroom => ?_
      obtain ⟨rfl, hne⟩ := checkRoom_ok hroom
      exact ih (lt_of_le_of_ne hput hne) c 0

/-- Where the output does not run out of room, it expands to the bytes that are counted and the
source. -/
theorem loop_ok (hcnt : cnt ≤ 222) (hpos : 0 < cnt + src.length)
    (h : loop size pc cnt out src = .ok out') :
    ∃ code, out' = out ++ code ∧ RLEExpand.Expands pc code (List.replicate cnt pc ++ src) := by
  induction src generalizing pc cnt out with
  | nil =>
    obtain ⟨cnt, rfl⟩ := Nat.exists_eq_add_of_lt hpos
    rw [List.length_nil, Nat.add_zero, Nat.zero_add] at *
    exact ⟨runCode (cnt + 1), putRun_ok h, by
      simpa using RLEExpand.Expands.run_last (Nat.succ_pos cnt) hcnt pc⟩
  | cons c rest ih =>
    rw [loop] at h
    split at h
    · next hrun =>
      obtain ⟨rfl, hne⟩ := hrun
      have hrest : List.replicate cnt c ++ c :: rest = List.replicate (cnt + 1) c ++ rest := by
        rw [List.replicate_succ', List.append_assoc, List.singleton_append]
      rw [hrest]
      exact ih (by omega) (by omega) h
    obtain ⟨out₂, hboth, hrest⟩ := exists_of_bind_ok h
    obtain ⟨out₁, hflush, hput⟩ := exists_of_bind_ok hboth
    -- the codes from `c` on, with the rest of the source if there is any
    have hc : ∃ code, out' = out₁ ++ code ∧ RLEExpand.Expands pc code (c :: rest) := by
      split at hrest
      · next hnil =>
        subst hnil
        refine ⟨literalCode c, ?_, RLEExpand.Expands.literal_last pc c⟩
        rw [← Except.ok.inj hrest, putLiteral_ok hput]
      · next hne =>
        obtain ⟨out₃, hroom, hloop⟩ := exists_of_bind_ok hrest
        obtain ⟨rfl, -⟩ := checkRoom_ok hroom
        obtain ⟨code, hout, hexp⟩ := ih (Nat.zero_le _)
          (by rw [Nat.zero_add]; exact List.length_pos_iff.2 hne) hloop
        refine ⟨literalCode c ++ code, ?_, RLEExpand.Expands.literal hexp hne pc⟩
        rw [hout, putLiteral_ok hput, List.append_assoc]
    obtain ⟨code, hout, hexp⟩ := hc
    rw [flush_ok hflush] at hout
    rcases Nat.eq_zero_or_pos cnt with rfl | hcpos
    · exact ⟨code, by simpa using hout, hexp⟩
    · rw [if_neg hcpos.ne', List.append_assoc] at hout
      exact ⟨runCode cnt ++ code, hout, hexp.run (List.cons_ne_nil c rest) hcpos hcnt⟩

end RLECompress

/-! ### Round trip -/

theorem RLEExpand_plain (s tail : List UInt8) (hs : s ≠ []) :
    RLEExpand (0xd0 :: 0xff :: s ++ tail) s.length = .ok (s, (s.length + 2) % 2 ^ 32) := by
  have hlen : s.length ≠ 0 := fun h => hs (List.length_eq_zero_iff.1 h)
  rw [RLEExpand.eq_def, if_neg hlen]
  simp

/-- What the loop expands is not taken for a plain row. -/
theorem RLEExpand_of_expands {s code : List UInt8} (hs : s ≠ []) (h : RLEExpand.Expands 0 code s)
    (tail : List UInt8) : RLEExpand (code ++ tail) s.length = .ok (s, code.length % 2 ^ 32) := by
  have hlen : s.length ≠ 0 := fun h => hs (List.length_eq_zero_iff.1 h)
  have hloop : RLEExpand.loop s.length 0 (code ++ tail) = .ok (s, tail) := h tail
  have hcode : (code ++ tail).length - tail.length = code.length := by
    rw [List.length_append, Nat.add_sub_cancel]
  rw [RLEExpand.eq_def, if_neg hlen]
  rcases hin : code ++ tail with _ | ⟨c, rest⟩
  · rw [hin] at hloop
    cases hloop
  · rw [hin] at hloop hcode
    have hend : ¬ (c = 0xd0 ∧ rest = []) := by
      rintro ⟨rfl, rfl⟩
      cases hloop
    have hplain : ¬ (c = 0xd0 ∧ rest.head? = some 0xff) := by
      rintro ⟨rfl, hff⟩
      obtain ⟨t, rfl⟩ : ∃ t, rest = 0xff :: t := by
        cases rest with
        | nil => cases hff
        | cons d t => exact ⟨t, by rw [Option.some.inj hff]⟩
      cases hloop
    dsimp only
    rw [if_neg hend, if_neg hplain, hloop, ← hcode]
    rfl

example : (RLECompress [0, 0, 7, 0xd5, 7, 7, 7, 7]).bytes = [0xd2, 7, 0xd0, 0xd5, 7, 0xd3] := by
  decide

end RowCompress
