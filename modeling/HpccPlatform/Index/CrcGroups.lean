import HpccPlatform.Index.Crc32

/-!
# CRCs of groups of bytes

`crc32`, `combineCrc32` and `CRC32Merger` of `jlib/jcrc.cpp` on data that is cut in pieces: the CRC
of the whole is the one of the pieces, by the table byte for byte, by combining two CRCs that were
started from zero, and by merging full CRCs.
-/

namespace Crc32

open ShiftRegister

def crc32Tab : List ℕ :=
  [0x00000000, 0x77073096, 0xee0e612c, 0x990951ba, 0x076dc419, 0x706af48f, 0xe963a535, 0x9e6495a3,
   0x0edb8832, 0x79dcb8a4, 0xe0d5e91e, 0x97d2d988, 0x09b64c2b, 0x7eb17cbd, 0xe7b82d07, 0x90bf1d91,
   0x1db71064, 0x6ab020f2, 0xf3b97148, 0x84be41de, 0x1adad47d, 0x6ddde4eb, 0xf4d4b551, 0x83d385c7,
   0x136c9856, 0x646ba8c0, 0xfd62f97a, 0x8a65c9ec, 0x14015c4f, 0x63066cd9, 0xfa0f3d63, 0x8d080df5,
   0x3b6e20c8, 0x4c69105e, 0xd56041e4, 0xa2677172, 0x3c03e4d1, 0x4b04d447, 0xd20d85fd, 0xa50ab56b,
   0x35b5a8fa, 0x42b2986c, 0xdbbbc9d6, 0xacbcf940, 0x32d86ce3, 0x45df5c75, 0xdcd60dcf, 0xabd13d59,
   0x26d930ac, 0x51de003a, 0xc8d75180, 0xbfd06116, 0x21b4f4b5, 0x56b3c423, 0xcfba9599, 0xb8bda50f,
   0x2802b89e, 0x5f058808, 0xc60cd9b2, 0xb10be924, 0x2f6f7c87, 0x58684c11, 0xc1611dab, 0xb6662d3d,
   0x76dc4190, 0x01db7106, 0x98d220bc, 0xefd5102a, 0x71b18589, 0x06b6b51f, 0x9fbfe4a5, 0xe8b8d433,
   0x7807c9a2, 0x0f00f934, 0x9609a88e, 0xe10e9818, 0x7f6a0dbb, 0x086d3d2d, 0x91646c97, 0xe6635c01,
   0x6b6b51f4, 0x1c6c6162, 0x856530d8, 0xf262004e, 0x6c0695ed, 0x1b01a57b, 0x8208f4c1, 0xf50fc457,
   0x65b0d9c6, 0x12b7e950, 0x8bbeb8ea, 0xfcb9887c, 0x62dd1ddf, 0x15da2d49, 0x8cd37cf3, 0xfbd44c65,
   0x4db26158, 0x3ab551ce, 0xa3bc0074, 0xd4bb30e2, 0x4adfa541, 0x3dd895d7, 0xa4d1c46d, 0xd3d6f4fb,
   0x4369e96a, 0x346ed9fc, 0xad678846, 0xda60b8d0, 0x44042d73, 0x33031de5, 0xaa0a4c5f, 0xdd0d7cc9,
   0x5005713c, 0x270241aa, 0xbe0b1010, 0xc90c2086, 0x5768b525, 0x206f85b3, 0xb966d409, 0xce61e49f,
   0x5edef90e, 0x29d9c998, 0xb0d09822, 0xc7d7a8b4, 0x59b33d17, 0x2eb40d81, 0xb7bd5c3b, 0xc0ba6cad,
   0xedb88320, 0x9abfb3b6, 0x03b6e20c, 0x74b1d29a, 0xead54739, 0x9dd277af, 0x04db2615, 0x73dc1683,
   0xe3630b12, 0x94643b84, 0x0d6d6a3e, 0x7a6a5aa8, 0xe40ecf0b, 0x9309ff9d, 0x0a00ae27, 0x7d079eb1,
   0xf00f9344, 0x8708a3d2, 0x1e01f268, 0x6906c2fe, 0xf762575d, 0x806567cb, 0x196c3671, 0x6e6b06e7,
   0xfed41b76, 0x89d32be0, 0x10da7a5a, 0x67dd4acc, 0xf9b9df6f, 0x8ebeeff9, 0x17b7be43, 0x60b08ed5,
   0xd6d6a3e8, 0xa1d1937e, 0x38d8c2c4, 0x4fdff252, 0xd1bb67f1, 0xa6bc5767, 0x3fb506dd, 0x48b2364b,
   0xd80d2bda, 0xaf0a1b4c, 0x36034af6, 0x41047a60, 0xdf60efc3, 0xa867df55, 0x316e8eef, 0x4669be79,
   0xcb61b38c, 0xbc66831a, 0x256fd2a0, 0x5268e236, 0xcc0c7795, 0xbb0b4703, 0x220216b9, 0x5505262f,
   0xc5ba3bbe, 0xb2bd0b28, 0x2bb45a92, 0x5cb36a04, 0xc2d7ffa7, 0xb5d0cf31, 0x2cd99e8b, 0x5bdeae1d,
   0x9b64c2b0, 0xec63f226, 0x756aa39c, 0x026d930a, 0x9c0906a9, 0xeb0e363f, 0x72076785, 0x05005713,
   0x95bf4a82, 0xe2b87a14, 0x7bb12bae, 0x0cb61b38, 0x92d28e9b, 0xe5d5be0d, 0x7cdcefb7, 0x0bdbdf21,
   0x86d3d2d4, 0xf1d4e242, 0x68ddb3f8, 0x1fda836e, 0x81be16cd, 0xf6b9265b, 0x6fb077e1, 0x18b74777,
   0x88085ae6, 0xff0f6a70, 0x66063bca, 0x11010b5c, 0x8f659eff, 0xf862ae69, 0x616bffd3, 0x166ccf45,
   0xa00ae278, 0xd70dd2ee, 0x4e048354, 0x3903b3c2, 0xa7672661, 0xd06016f7, 0x4969474d, 0x3e6e77db,
   0xaed16a4a, 0xd9d65adc, 0x40df0b66, 0x37d83bf0, 0xa9bcae53, 0xdebb9ec5, 0x47b2cf7f, 0x30b5ffe9,
   0xbdbdf21c, 0xcabac28a, 0x53b39330, 0x24b4a3a6, 0xbad03605, 0xcdd70693, 0x54de5729, 0x23d967bf,
   0xb3667a2e, 0xc4614ab8, 0x5d681b02, 0x2a6f2b94, 0xb40bbe37, 0xc30c8ea1, 0x5a05df1b, 0x2d02ef8d]

/-- `UPDC32_0(crc)` -/
def updc320 (crc : BitVec 32) : BitVec 32 :=
  BitVec.ofNat 32 (crc32Tab.getD (byteAt crc 0).toNat 0) ^^^ (crc >>> 8)

/-- The two loops of `combineCrc32`, the first of which takes four bytes a round. -/
def combineLoop : ℕ → BitVec 32 → BitVec 32
  | numBytes + 4, crc => combineLoop numBytes (updc320 (updc320 (updc320 (updc320 crc))))
  | numBytes + 1, crc => combineLoop numBytes (updc320 crc)
  | 0, crc => crc

/-- `combineCrc32` of an unsigned number of bytes. -/
def combineCrc32 (crc1 : BitVec 32) (numBytes : ℕ) (crc2 : BitVec 32) : BitVec 32 :=
  if crc1 = 0#32 then crc2 else combineLoop numBytes crc1 ^^^ crc2

def bigChunk : ℕ := 0xfffffff0

/-- The loop of `combineCrc32` of a 64-bit number of bytes, with what follows it. -/
def combineChunks (crc : BitVec 32) (numBytes : ℕ) (crc2 : BitVec 32) : BitVec 32 :=
  if bigChunk < numBytes then
    combineChunks (combineCrc32 crc bigChunk 0#32) (numBytes - bigChunk) crc2
  else combineCrc32 crc (numBytes % 2 ^ 32) crc2
termination_by numBytes
decreasing_by exact Nat.sub_lt (Nat.zero_lt_of_lt ‹_›) (by decide)

def combineCrc3264 (crc1 : BitVec 32) (numBytes : ℕ) (crc2 : BitVec 32) : BitVec 32 :=
  if crc1 = 0#32 then crc2 else combineChunks crc1 numBytes crc2

/-- `CRC32Merger`: a call of `addChildCRC` for each block, and `get`. -/
def mergeCrcs (blocks : List (List UInt8)) : Option (BitVec 32) :=
  (blocks.foldlM (fun crc block => addChildCRC crc block.length (fullCrc block))
    0xffffffff#32).map fun crc => ~~~crc

/-- The table recurrence, a byte at a time. -/
def tableCrc (data : List UInt8) (crc : BitVec 32) : BitVec 32 :=
  data.foldl (fun crc c => (crc >>> 8) ^^^ lookup 0 (byteAt crc 0 ^^^ c.toBitVec)) crc

/-! ### Zero bytes -/

variable {crc : BitVec 32} {n : ℕ}

/-- Both tables of the source are the same. -/
theorem crc32Tab_eq : crc32Tab = lookup0 := rfl

/-- A zero byte goes through the register. -/
theorem updc320_eq (crc : BitVec 32) : updc320 crc = (shift polynomial)^[8] crc := by
  have h := feed_eq_lookup crc 0
  rw [feed, UInt8.toBitVec_zero, BitVec.setWidth_zero, BitVec.xor_zero, BitVec.xor_zero] at h
  rw [← h, updc320, crc32Tab_eq, BitVec.xor_comm]
  rfl

theorem combineLoop_eq (n : ℕ) (crc : BitVec 32) :
    combineLoop n crc = (shift polynomial)^[8 * n] crc := by
  have hstep : ∀ n crc, (shift polynomial)^[8 * n] (updc320 crc) =
      (shift polynomial)^[8 * (n + 1)] crc := by
    intro n crc
    rw [updc320_eq, ← Function.iterate_add_apply, ← Nat.mul_succ]
  fun_induction combineLoop n crc with
  | case1 n crc ih => rw [ih, hstep, hstep, hstep, hstep]
  | case2 n crc _ ih => rw [ih, hstep]
  | case3 crc => rfl

/-- The CRC zero is no exception. -/
theorem combineCrc32_eq (crc1 : BitVec 32) (n : ℕ) (crc2 : BitVec 32) :
    combineCrc32 crc1 n crc2 = (shift polynomial)^[8 * n] crc1 ^^^ crc2 := by
  rw [combineCrc32]
  split_ifs with hzero
  · rw [hzero, iterate_zero, BitVec.zero_xor]
  · rw [combineLoop_eq]

theorem combineChunks_eq (crc : BitVec 32) (n : ℕ) (crc2 : BitVec 32) :
    combineChunks crc n crc2 = (shift polynomial)^[8 * n] crc ^^^ crc2 := by
  fun_induction combineChunks crc n crc2 with
  | case1 crc n hbig ih =>
    rw [ih, combineCrc32_eq, BitVec.xor_zero, ← Function.iterate_add_apply, ← Nat.mul_add,
      Nat.sub_add_cancel hbig.le]
  | case2 crc n hsmall =>
    have hlt : n < 2 ^ 32 := (Nat.not_lt.1 hsmall).trans_lt (by decide)
    rw [combineCrc32_eq, Nat.mod_eq_of_lt hlt]

theorem combineCrc3264_eq (crc1 : BitVec 32) (n : ℕ) (crc2 : BitVec 32) :
    combineCrc3264 crc1 n crc2 = (shift polynomial)^[8 * n] crc1 ^^^ crc2 := by
  rw [combineCrc3264]
  split_ifs with hzero
  · rw [hzero, iterate_zero, BitVec.zero_xor]
  · rw [combineChunks_eq]

theorem crc32_zeros (n : ℕ) (crc : BitVec 32) :
    crc32 (List.replicate n 0) crc = (shift polynomial)^[8 * n] crc := by
  rw [crc32_eq]
  induction n generalizing crc with
  | zero => rfl
  | succ n ih =>
    have hfeed : feed polynomial crc 0 = (shift polynomial)^[8] crc := by
      rw [feed, UInt8.toBitVec_zero, BitVec.setWidth_zero, BitVec.xor_zero]
    rw [List.replicate_succ, feedAll, List.foldl_cons, ← feedAll, hfeed, ih,
      ← Function.iterate_add_apply, ← Nat.mul_succ]

/-! ### Groups -/

theorem crc32_eq_tableCrc (data : List UInt8) (crc : BitVec 32) :
    crc32 data crc = tableCrc data crc := by
  rw [crc32_eq, feedAll, tableCrc]
  simp only [feed_eq_lookup]

/-- The CRC of a string from any value and the one from zero. -/
theorem crc32_seed (data : List UInt8) (seed : BitVec 32) :
    crc32 data seed = (shift polynomial)^[8 * data.length] seed ^^^ crc32 data 0#32 := by
  rw [crc32_eq, crc32_eq, ← feedAll_xor, BitVec.xor_zero]

theorem crc32_append_zero (a b : List UInt8) :
    (shift polynomial)^[8 * b.length] (crc32 a 0#32) ^^^ crc32 b 0#32 = crc32 (a ++ b) 0#32 := by
  rw [crc32_append, crc32_seed b (crc32 a 0#32)]

theorem foldlM_addChildCRC (blocks : List (List UInt8)) (crc : BitVec 32)
    (h : blocks.flatten.length < 2 ^ 48) :
    blocks.foldlM (fun crc block => addChildCRC crc block.length (fullCrc block)) crc =
      some (crc32 blocks.flatten crc) := by
  induction blocks generalizing crc with
  | nil => rfl
  | cons block blocks ih =>
    rw [List.flatten_cons, List.length_append] at h
    rw [List.foldlM_cons, addChildCRC_spec crc (by omega), Option.bind_eq_bind, Option.bind_some,
      ih _ (by omega), List.flatten_cons, crc32_append]

theorem mergeCrcs_eq (blocks : List (List UInt8)) (h : blocks.flatten.length < 2 ^ 48) :
    mergeCrcs blocks = some (fullCrc blocks.flatten) := by
  rw [mergeCrcs, foldlM_addChildCRC blocks _ h]
  rfl

/-- What the claim says, with `n` bytes to skip. -/
structure GroupsAgree (n : ℕ) : Prop where
  slicing : ∀ data crc, crc32 data crc = tableCrc data crc
  merge : ∀ blocks : List (List UInt8), blocks.flatten.length < 2 ^ 47 →
    mergeCrcs blocks = some (fullCrc blocks.flatten)
  combine : ∀ a b : List UInt8, b.length < 2 ^ 32 →
    combineCrc32 (crc32 a 0#32) b.length (crc32 b 0#32) = crc32 (a ++ b) 0#32
  combine64 : ∀ a b : List UInt8, b.length < 2 ^ 64 →
    combineCrc3264 (crc32 a 0#32) b.length (crc32 b 0#32) = crc32 (a ++ b) 0#32
  skip : ∀ crc, skip crc n = some (crc32 (List.replicate n 0) crc)

/-- CRCs can be grouped, and `n` bytes skipped, if there are fewer than `2 ^ 48` of them. -/
theorem groupsAgree_iff (hn : n < 2 ^ 64) : GroupsAgree n ↔ n < 2 ^ 48 := by
  constructor
  · intro h
    by_contra hbig
    have hskip := h.skip 0#32
    rw [skip_eq_none _ (Nat.not_lt.1 hbig) hn] at hskip
    cases hskip
  · intro hsmall
    refine ⟨crc32_eq_tableCrc, fun blocks h => mergeCrcs_eq blocks (h.trans (by decide)),
      fun a b _ => ?_, fun a b _ => ?_, fun crc => ?_⟩
    · rw [combineCrc32_eq, crc32_append_zero]
    · rw [combineCrc3264_eq, crc32_append_zero]
    · rw [skip_spec crc hsmall, crc32_zeros]

theorem groupsAgree_seven : GroupsAgree 7 ↔ 7 < 2 ^ 48 :=
  groupsAgree_iff (by decide)

/-- The power for `2 ^ 48` bytes is one that the table of powers does not have. -/
theorem skip_two_pow_48 : skip 0xffffffff#32 (2 ^ 48) = none :=
  skip_eq_none _ le_rfl (by decide)

end Crc32
