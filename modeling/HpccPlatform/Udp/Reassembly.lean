import Mathlib.Data.Nat.Bitwise
import HpccPlatform.Udp.Sequencer

/-!
# Reassembly of a message

The packets of a message come in any order, any number of times, and with or without the mark of
a packet that was sent again.  The sequencer is seen as two lists of buffers: those in `done` are
the packets before the first gap, and those in `pending` wait behind it.  One insertion adds a
packet to the threaded list, and the catch-up loop moves buffers from `pending` to `done`.
-/

namespace Udp

/-- A message: its sender and number, the number of its last packet, and what each packet
carries. -/
structure Message where
  node : UInt32
  msgSeq : UInt32
  last : ℕ
  last_lt : last < 2 ^ 30
  metalength : ℕ → ℕ
  body : ℕ → List UInt8

namespace Message

variable (m : Message) {i j : ℕ}

/-- The number of a packet as it is sent first. -/
def pktSeq (i : ℕ) : ℕ := i + if i = m.last then 2 ^ 31 else 0

/-- A packet as it arrives. -/
def packet (i : ℕ) (resent : Bool) : DataBuffer where
  node := m.node
  msgSeq := m.msgSeq
  pktSeq := m.pktSeq i + if resent then 2 ^ 30 else 0
  metalength := m.metalength i
  body := m.body i

/-- A packet as the sequencer keeps it. -/
def kept (decrypt : List UInt8 → List UInt8) (i : ℕ) : DataBuffer where
  node := m.node
  msgSeq := m.msgSeq
  pktSeq := m.pktSeq i
  metalength := m.metalength i
  body := decrypt (m.body i)

theorem pktSeq_lt_pktSeq (hi : i ≤ m.last) (hj : j ≤ m.last) :
    m.pktSeq i < m.pktSeq j ↔ i < j := by
  have hlast := m.last_lt
  unfold pktSeq
  split_ifs <;> omega

theorem pktSeq_inj (hi : i ≤ m.last) (hj : j ≤ m.last) : m.pktSeq i = m.pktSeq j ↔ i = j := by
  have hlast := m.last_lt
  unfold pktSeq
  split_ifs <;> omega

theorem sequenceNumber_pktSeq (hi : i ≤ m.last) : sequenceNumber (m.pktSeq i) = i := by
  have hlast := m.last_lt
  unfold sequenceNumber pktSeq
  split_ifs <;> omega

theorem isComplete_pktSeq (hi : i ≤ m.last) : isComplete (m.pktSeq i) = decide (i = m.last) := by
  have hlast := m.last_lt
  unfold isComplete pktSeq
  rw [Nat.testBit_eq_decide_div_mod_eq, decide_eq_decide]
  split_ifs <;> omega

theorem isResent_packet (hi : i ≤ m.last) (resent : Bool) :
    isResent (m.packet i resent).pktSeq = resent := by
  have hlast := m.last_lt
  unfold isResent packet pktSeq
  rw [Nat.testBit_eq_decide_div_mod_eq, Bool.eq_iff_iff, decide_eq_true_iff]
  cases resent <;> simp only [if_true, Bool.false_eq_true, if_false, iff_true, iff_false] <;>
    split_ifs <;> omega

theorem packet_pktSeq_false : (m.packet i false).pktSeq = m.pktSeq i := by
  unfold packet
  simp

theorem packet_pktSeq_true : (m.packet i true).pktSeq - 2 ^ 30 = m.pktSeq i := by
  unfold packet
  simp

end Message

namespace PackageSequencer

variable {m : Message} {decrypt : List UInt8 → List UInt8} {s : PackageSequencer} {i : ℕ}
  {ids done pending before after rest : List ℕ}

/-- The packet number of a buffer. -/
def number (s : PackageSequencer) (id : ℕ) : ℕ := sequenceNumber (s.seqOf id)

/-- The buffers `ids` are linked in the order of their packet numbers. -/
structure Threaded (m : Message) (decrypt : List UInt8 → List UInt8) (s : PackageSequencer)
    (ids : List ℕ) : Prop where
  chain : Linked.Chain s.msgNext s.firstPacket ids
  length : ids.length = s.fresh
  small : ∀ id ∈ ids, id < s.fresh
  number_le : ∀ id ∈ ids, s.number id ≤ m.last
  kept : ∀ id ∈ ids, s.buffers id = m.kept decrypt (s.number id)
  sorted : (ids.map s.number).Pairwise (· < ·)
  tail : s.tail = ids.getLast?

/-- The buffers `done` are the packets before the first gap, and their metadata and signals are
those of the sequencer. -/
structure Taken (m : Message) (decrypt : List UInt8 → List UInt8) (s : PackageSequencer)
    (done : List ℕ) : Prop where
  numbers : done.map s.number = List.range done.length
  last : s.lastContiguousPacket = done.getLast?
  metadata : s.metadata = (List.range done.length).flatMap (fun i => (m.kept decrypt i).metadata)
  header : 0 < done.length → s.header = (m.kept decrypt 0).header ∧
    s.headerSize = (m.kept decrypt 0).headerSize
  dataAvailable : s.dataAvailable = done.length + if m.last < done.length then 1 else 0

/-! ### What the fields of one state say -/

theorem Threaded.seqOf_eq (h : Threaded m decrypt s ids) {id : ℕ} (hid : id ∈ ids) :
    s.seqOf id = m.pktSeq (s.number id) := by
  unfold seqOf
  rw [h.kept id hid]
  rfl

theorem Threaded.nodup (h : Threaded m decrypt s ids) : ids.Nodup := by
  apply List.Nodup.of_map s.number
  exact h.sorted.imp (fun hlt => Nat.ne_of_lt hlt)

/-- A state with the same list is threaded in the same way. -/
theorem Threaded.congr {s' : PackageSequencer} (h : Threaded m decrypt s ids)
    (hbuffers : s'.buffers = s.buffers) (hnext : s'.msgNext = s.msgNext)
    (hfirst : s'.firstPacket = s.firstPacket) (hfresh : s'.fresh = s.fresh)
    (htail : s'.tail = s.tail) : Threaded m decrypt s' ids := by
  have hnumber : s'.number = s.number := by
    funext id
    unfold number seqOf
    rw [hbuffers]
  refine ⟨?_, ?_, ?_, ?_, ?_, ?_, ?_⟩
  · rw [hnext, hfirst]
    exact h.chain
  · rw [hfresh]
    exact h.length
  · rw [hfresh]
    exact h.small
  · rw [hnumber]
    exact h.number_le
  · rw [hnumber, hbuffers]
    exact h.kept
  · rw [hnumber]
    exact h.sorted
  · rw [htail]
    exact h.tail

/-- A number before the first gap has its buffer. -/
theorem Taken.mem_iff (h : Taken m decrypt s done) : i ∈ done.map s.number ↔ i < done.length := by
  rw [h.numbers, List.mem_range]

/-- The last buffer before the first gap has the number before that gap. -/
theorem Taken.number_getLast (h : Taken m decrypt s done) {last : ℕ}
    (hlast : done.getLast? = some last) : s.number last + 1 = done.length := by
  have hmap : (done.map s.number).getLast? = some (s.number last) := by
    rw [List.getLast?_map, hlast, Option.map_some]
  rw [h.numbers, List.getLast?_range] at hmap
  split_ifs at hmap with hzero
  rw [Option.some.injEq] at hmap
  omega

/-! ### Where a packet goes -/

/-- The insertion sort finds a duplicate, or the place between the smaller numbers and the larger
ones. -/
theorem scan_spec (hi : i ≤ m.last) {fuel : ℕ} {start : Option ℕ} (prev : Option ℕ)
    (hchain : Linked.Chain s.msgNext start rest)
    (hseq : ∀ id ∈ rest, s.number id ≤ m.last ∧ s.seqOf id = m.pktSeq (s.number id))
    (hsorted : (rest.map s.number).Pairwise (· < ·)) (hfuel : rest.length < fuel) :
    (i ∈ rest.map s.number ∧ s.scan (m.pktSeq i) fuel start prev = some .duplicate) ∨
    ∃ before after, rest = before ++ after ∧ (∀ id ∈ before, s.number id < i) ∧
      (∀ id ∈ after, i < s.number id) ∧
      s.scan (m.pktSeq i) fuel start prev
        = some (.between (before.getLast?.or prev) after.head?) := by
  induction rest generalizing fuel start prev with
  | nil =>
    obtain ⟨fuel, rfl⟩ : ∃ n, fuel = n + 1 := ⟨fuel - 1, by grind⟩
    obtain rfl : start = none := hchain
    exact Or.inr ⟨[], [], rfl, by grind, by grind, rfl⟩
  | cons finger rest ih =>
    obtain ⟨fuel, rfl⟩ : ∃ n, fuel = n + 1 := ⟨fuel - 1, by grind⟩
    obtain ⟨rfl, hbehind⟩ := Linked.chain_cons hchain
    obtain ⟨hle, hfinger⟩ := hseq finger List.mem_cons_self
    rw [List.map_cons, List.pairwise_cons] at hsorted
    unfold scan
    rw [hfinger]
    rcases lt_trichotomy i (s.number finger) with hlt | heq | hgt
    · rw [if_neg (fun h => Nat.ne_of_lt hlt ((m.pktSeq_inj hi hle).mp h)),
        if_pos ((m.pktSeq_lt_pktSeq hi hle).mpr hlt)]
      refine Or.inr ⟨[], finger :: rest, rfl, by grind, ?_, rfl⟩
      intro id hid
      rcases List.mem_cons.mp hid with rfl | hid
      · exact hlt
      · exact hlt.trans (hsorted.1 _ (List.mem_map_of_mem hid))
    · rw [if_pos (by rw [heq])]
      exact Or.inl ⟨by simp [heq], rfl⟩
    · rw [if_neg (fun h => Nat.ne_of_gt hgt ((m.pktSeq_inj hi hle).mp h)),
        if_neg (fun h => absurd ((m.pktSeq_lt_pktSeq hi hle).mp h) (by omega))]
      have hrest : rest.length < fuel := by
        rw [List.length_cons] at hfuel
        omega
      rcases ih (some finger) hbehind (fun id hid => hseq id (List.mem_cons_of_mem _ hid)) hsorted.2 hrest
        with ⟨hmem, hscan⟩ | ⟨before, after, hsplit, hbefore, hafter, hscan⟩
      · exact Or.inl ⟨List.mem_cons_of_mem _ hmem, hscan⟩
      · refine Or.inr ⟨finger :: before, after, by rw [hsplit, List.cons_append], ?_, hafter, ?_⟩
        · intro id hid
          rcases List.mem_cons.mp hid with rfl | hid
          · exact hgt
          · exact hbefore id hid
        · rw [hscan, List.getLast?_cons]
          cases before.getLast? <;> rfl

/-- Behind the packets before the first gap, the sort either finds the packet or its place. -/
theorem scan_pending (hi : i ≤ m.last) (h : Threaded m decrypt s (done ++ pending))
    (hdone : done.length ≤ i) (ht : Taken m decrypt s done) {start : Option ℕ}
    (hchain : Linked.Chain s.msgNext start pending) :
    (i ∈ (done ++ pending).map s.number ∧
      s.scan (m.pktSeq i) (s.fresh + 1) start done.getLast? = some .duplicate) ∨
    ∃ before after, done ++ pending = before ++ after ∧ done.length ≤ before.length ∧
      (∀ id ∈ before, s.number id < i) ∧ (∀ id ∈ after, i < s.number id) ∧
      s.scan (m.pktSeq i) (s.fresh + 1) start done.getLast?
        = some (.between before.getLast? after.head?) := by
  have hseq : ∀ id ∈ pending, s.number id ≤ m.last ∧ s.seqOf id = m.pktSeq (s.number id) := by
    intro id hid
    have hmem := List.mem_append_right done hid
    exact ⟨h.number_le id hmem, h.seqOf_eq hmem⟩
  have hsorted : (pending.map s.number).Pairwise (· < ·) := by
    have hall := h.sorted
    rw [List.map_append, List.pairwise_append] at hall
    exact hall.2.1
  have hfuel : pending.length < s.fresh + 1 := by
    have hlength := h.length
    rw [List.length_append] at hlength
    omega
  rcases scan_spec hi done.getLast? hchain hseq hsorted hfuel
    with ⟨hmem, hscan⟩ | ⟨before, after, hsplit, hbefore, hafter, hscan⟩
  · refine Or.inl ⟨?_, hscan⟩
    rw [List.map_append]
    exact List.mem_append_right _ hmem
  · refine Or.inr ⟨done ++ before, after, by rw [hsplit, List.append_assoc], by simp, ?_, hafter, ?_⟩
    · intro id hid
      rcases List.mem_append.mp hid with hid | hid
      · have hlt := ht.mem_iff.mp (List.mem_map_of_mem hid)
        omega
      · exact hbefore id hid
    · rw [hscan, List.getLast?_append]

theorem sortedPlace_none (h : s.lastContiguousPacket = none) (pktseq : ℕ) :
    s.sortedPlace pktseq
      = (s.scan pktseq (s.fresh + 1) s.firstPacket none).map (fun place => (s, place)) := by
  unfold sortedPlace
  rw [h]

theorem sortedPlace_some {last : ℕ} (h : s.lastContiguousPacket = some last) (pktseq : ℕ) :
    s.sortedPlace pktseq
      = if pktseq ≤ s.seqOf last then
          some ({ s with duplicates := s.duplicates + 1 }, .duplicate)
        else
          (s.scan pktseq (s.fresh + 1) (s.msgNext last) (some last)).map
            (fun place => (s, place)) := by
  unfold sortedPlace
  rw [h]

theorem findPlace_none (h : s.tail = none) (pktseq : ℕ) :
    s.findPlace pktseq = s.sortedPlace pktseq := by
  unfold findPlace
  rw [h]

theorem findPlace_some {t : ℕ} (h : s.tail = some t) (pktseq : ℕ) :
    s.findPlace pktseq
      = if s.seqOf t < pktseq then
          some ({ s with tail := some s.fresh }, .between (some t) none)
        else s.sortedPlace pktseq := by
  unfold findPlace
  rw [h]

/-- A packet that is not behind all the others is a duplicate, or goes before one of them. -/
theorem sortedPlace_spec (hi : i ≤ m.last) (h : Threaded m decrypt s (done ++ pending))
    (ht : Taken m decrypt s done) :
    (i ∈ (done ++ pending).map s.number ∧ ∃ count,
      s.sortedPlace (m.pktSeq i) = some ({ s with duplicates := count }, .duplicate)) ∨
    ∃ before after, done ++ pending = before ++ after ∧ done.length ≤ before.length ∧
      (∀ id ∈ before, s.number id < i) ∧ (∀ id ∈ after, i < s.number id) ∧
      s.sortedPlace (m.pktSeq i) = some (s, .between before.getLast? after.head?) := by
  cases hlast : done.getLast? with
  | none =>
    rw [sortedPlace_none (ht.last.trans hlast)]
    obtain rfl : done = [] := List.getLast?_eq_none_iff.mp hlast
    rcases scan_pending hi h (Nat.zero_le i) ht h.chain
      with ⟨hmem, hscan⟩ | ⟨before, after, hsplit, hlength, hbefore, hafter, hscan⟩
    · rw [List.getLast?_nil] at hscan
      refine Or.inl ⟨hmem, s.duplicates, ?_⟩
      rw [hscan, Option.map_some]
    · rw [List.getLast?_nil] at hscan
      refine Or.inr ⟨before, after, hsplit, hlength, hbefore, hafter, ?_⟩
      rw [hscan, Option.map_some]
  | some last =>
    have hmem : last ∈ done := List.mem_of_getLast? hlast
    have hnumber := ht.number_getLast hlast
    have hle := h.number_le last (List.mem_append_left _ hmem)
    rw [sortedPlace_some (ht.last.trans hlast), h.seqOf_eq (List.mem_append_left pending hmem)]
    by_cases hi' : i < done.length
    · rw [if_pos (not_lt.mp (fun hlt => absurd ((m.pktSeq_lt_pktSeq hle hi).mp hlt) (by omega)))]
      refine Or.inl ⟨?_, _, rfl⟩
      rw [List.map_append]
      exact List.mem_append_left _ (ht.mem_iff.mpr hi')
    · rw [if_neg (not_le.mpr ((m.pktSeq_lt_pktSeq hle hi).mpr (by omega)))]
      have hchain : Linked.Chain s.msgNext (s.msgNext last) pending := by
        have hsplit := List.dropLast_append_getLast? last hlast
        have hall := h.chain
        rw [← hsplit, List.append_assoc, List.singleton_append] at hall
        exact hall.behind
      rcases scan_pending hi h (not_lt.mp hi') ht hchain
        with ⟨hmem, hscan⟩ | ⟨before, after, hsplit, hlength, hbefore, hafter, hscan⟩
      · rw [hlast] at hscan
        refine Or.inl ⟨hmem, s.duplicates, ?_⟩
        rw [hscan, Option.map_some]
      · rw [hlast] at hscan
        refine Or.inr ⟨before, after, hsplit, hlength, hbefore, hafter, ?_⟩
        rw [hscan, Option.map_some]

/-- The last of the linked buffers has the largest number. -/
theorem Threaded.number_le_getLast (h : Threaded m decrypt s ids) {t id : ℕ}
    (ht : ids.getLast? = some t) (hid : id ∈ ids) : s.number id ≤ s.number t := by
  have hall := h.sorted
  rw [← List.dropLast_append_getLast? t ht] at hall hid
  rw [List.map_append, List.pairwise_append] at hall
  rcases List.mem_append.mp hid with hid | hid
  · exact (hall.2.2 _ (List.mem_map_of_mem hid) _ (by simp)).le
  · rw [List.mem_singleton.mp hid]

/-- A packet that is there is a duplicate; another one goes between the smaller numbers and the
larger ones, and `tail` moves when it goes behind all of them. -/
theorem findPlace_spec (hi : i ≤ m.last) (h : Threaded m decrypt s (done ++ pending))
    (ht : Taken m decrypt s done) :
    (i ∈ (done ++ pending).map s.number ∧ ∃ count,
      s.findPlace (m.pktSeq i) = some ({ s with duplicates := count }, .duplicate)) ∨
    ∃ before after, done ++ pending = before ++ after ∧ done.length ≤ before.length ∧
      (∀ id ∈ before, s.number id < i) ∧ (∀ id ∈ after, i < s.number id) ∧
      s.findPlace (m.pktSeq i)
        = some ({ s with tail := if after = [] ∧ before ≠ [] then some s.fresh else s.tail },
            .between before.getLast? after.head?) := by
  cases hlast : (done ++ pending).getLast? with
  | none =>
    have htail : s.tail = none := h.tail.trans hlast
    rw [findPlace_none htail]
    have hids : done ++ pending = [] := List.getLast?_eq_none_iff.mp hlast
    rcases sortedPlace_spec hi h ht with hdup | ⟨before, after, hsplit, hplace⟩
    · exact Or.inl hdup
    · refine Or.inr ⟨before, after, hsplit, hplace.1, hplace.2.1, hplace.2.2.1, ?_⟩
      have hbefore : before = [] := by
        rw [hids] at hsplit
        exact (List.append_eq_nil_iff.mp hsplit.symm).1
      have hkeep : (if after = [] ∧ before ≠ [] then some s.fresh else s.tail) = s.tail := by
        rw [if_neg (fun hc => hc.2 hbefore)]
      rw [hplace.2.2.2, hkeep]
  | some t =>
    have htail : s.tail = some t := h.tail.trans hlast
    have hmem : t ∈ done ++ pending := List.mem_of_getLast? hlast
    have hle := h.number_le t hmem
    rw [findPlace_some htail, h.seqOf_eq hmem]
    by_cases hlt : s.number t < i
    · rw [if_pos ((m.pktSeq_lt_pktSeq hle hi).mpr hlt)]
      refine Or.inr ⟨done ++ pending, [], by rw [List.append_nil], by simp, ?_, by grind, ?_⟩
      · intro id hid
        exact (h.number_le_getLast hlast hid).trans_lt hlt
      · rw [if_pos ⟨rfl, List.ne_nil_of_mem hmem⟩, hlast, List.head?_nil]
    · rw [if_neg (fun hc => hlt ((m.pktSeq_lt_pktSeq hle hi).mp hc))]
      rcases sortedPlace_spec hi h ht with hdup | ⟨before, after, hsplit, hplace⟩
      · exact Or.inl hdup
      · refine Or.inr ⟨before, after, hsplit, hplace.1, hplace.2.1, hplace.2.2.1, ?_⟩
        have hafter : after ≠ [] := by
          intro hnil
          rw [hsplit, hnil, List.append_nil] at hmem
          exact hlt (hplace.2.1 t hmem)
        have hkeep : (if after = [] ∧ before ≠ [] then some s.fresh else s.tail) = s.tail := by
          rw [if_neg (fun hc => hafter hc.1)]
        rw [hplace.2.2.2, hkeep]

/-! ### Linking the packet -/

/-- The state after a packet was put in its place. -/
def linked (s : PackageSequencer) (b : DataBuffer) (before after : List ℕ) : PackageSequencer :=
  link { s with tail := if after = [] ∧ before ≠ [] then some s.fresh else s.tail } b
    before.getLast? after.head?

@[simp] theorem linked_buffers (b : DataBuffer) :
    (s.linked b before after).buffers = Function.update s.buffers s.fresh b := by
  unfold linked link
  cases before.getLast? <;> rfl

@[simp] theorem linked_fresh (b : DataBuffer) :
    (s.linked b before after).fresh = s.fresh + 1 := by
  unfold linked link
  cases before.getLast? <;> rfl

theorem linked_taken (b : DataBuffer) :
    (s.linked b before after).lastContiguousPacket = s.lastContiguousPacket ∧
    (s.linked b before after).metadata = s.metadata ∧
    (s.linked b before after).header = s.header ∧
    (s.linked b before after).headerSize = s.headerSize ∧
    (s.linked b before after).dataAvailable = s.dataAvailable := by
  unfold linked link
  cases before.getLast? <;> exact ⟨rfl, rfl, rfl, rfl, rfl⟩

theorem number_linked_fresh (b : DataBuffer) :
    (s.linked b before after).number s.fresh = sequenceNumber b.pktSeq := by
  unfold number seqOf
  rw [linked_buffers, Function.update_self]

theorem number_linked_of_lt (b : DataBuffer) {id : ℕ} (hid : id < s.fresh) :
    (s.linked b before after).number id = s.number id := by
  unfold number seqOf
  rw [linked_buffers, Function.update_of_ne (Nat.ne_of_lt hid)]

theorem map_number_linked (b : DataBuffer) (hsmall : ∀ id ∈ ids, id < s.fresh) :
    ids.map (s.linked b before after).number = ids.map s.number := by
  apply List.map_congr_left
  intro id hid
  exact number_linked_of_lt b (hsmall id hid)

theorem linked_chain (b : DataBuffer) (h : Threaded m decrypt s (before ++ after)) :
    Linked.Chain (s.linked b before after).msgNext (s.linked b before after).firstPacket
      (before ++ s.fresh :: after) := by
  have hfresh : s.fresh ∉ before ++ after := fun hmem => Nat.lt_irrefl _ (h.small _ hmem)
  unfold linked link
  cases hlast : before.getLast? with
  | none =>
    obtain rfl : before = [] := List.getLast?_eq_none_iff.mp hlast
    have hchain : Linked.Chain s.msgNext s.firstPacket after := h.chain
    have hpush := hchain.push hfresh
    rw [hchain.head] at hpush
    exact hpush
  | some p =>
    have hsplit := List.dropLast_append_getLast? p hlast
    have hchain := h.chain
    have hnodup := h.nodup
    rw [← hsplit, List.append_assoc, List.singleton_append] at hchain hnodup hfresh
    have hinsert := hchain.insert hnodup hfresh
    rw [hchain.behind.head] at hinsert
    rw [← hsplit, List.append_assoc, List.singleton_append]
    exact hinsert

theorem linked_tail (b : DataBuffer) (h : Threaded m decrypt s (before ++ after)) :
    (s.linked b before after).tail = (before ++ s.fresh :: after).getLast? := by
  have htail := h.tail
  unfold linked link
  cases hafter : after with
  | nil =>
    cases hlast : before.getLast? with
    | none =>
      obtain rfl : before = [] := List.getLast?_eq_none_iff.mp hlast
      rw [hafter] at htail
      simp [htail]
    | some p =>
      have hne : before ≠ [] := List.ne_nil_of_mem (List.mem_of_getLast? hlast)
      simp [hne]
  | cons x after =>
    rw [hafter] at htail
    have hlast : (before ++ s.fresh :: x :: after).getLast? = s.tail := by
      rw [htail]
      simp
    have hsome : ∃ t, s.tail = some t := by
      rw [htail]
      exact ⟨_, List.getLast?_eq_some_getLast (by simp)⟩
    obtain ⟨t, ht⟩ := hsome
    rw [hlast]
    cases before.getLast? <;> simp [ht]

/-- The packet goes between the smaller numbers and the larger ones, so the list stays in order. -/
theorem Threaded.linked (hi : i ≤ m.last) (h : Threaded m decrypt s (before ++ after))
    (hbefore : ∀ id ∈ before, s.number id < i) (hafter : ∀ id ∈ after, i < s.number id) :
    Threaded m decrypt (s.linked (m.kept decrypt i) before after) (before ++ s.fresh :: after) := by
  have hnew : (s.linked (m.kept decrypt i) before after).number s.fresh = i :=
    (number_linked_fresh _).trans (m.sequenceNumber_pktSeq hi)
  have hold : ∀ id ∈ before ++ after,
      (s.linked (m.kept decrypt i) before after).number id = s.number id :=
    fun id hid => number_linked_of_lt _ (h.small id hid)
  have hcases : ∀ id ∈ before ++ s.fresh :: after, id = s.fresh ∨ id ∈ before ++ after := by
    intro id hid
    simp only [List.mem_append, List.mem_cons] at hid ⊢
    tauto
  refine ⟨linked_chain _ h, ?_, ?_, ?_, ?_, ?_, linked_tail _ h⟩
  · have hlength := h.length
    rw [linked_fresh, ← hlength]
    simp only [List.length_append, List.length_cons]
    omega
  · intro id hid
    rw [linked_fresh]
    rcases hcases id hid with rfl | hid
    · exact Nat.lt_succ_self _
    · exact (h.small id hid).trans (Nat.lt_succ_self _)
  · intro id hid
    rcases hcases id hid with rfl | hid
    · rw [hnew]
      exact hi
    · rw [hold id hid]
      exact h.number_le id hid
  · intro id hid
    rw [linked_buffers]
    rcases hcases id hid with rfl | hid
    · rw [hnew, Function.update_self]
    · rw [hold id hid, Function.update_of_ne (Nat.ne_of_lt (h.small id hid))]
      exact h.kept id hid
  · have hsorted := h.sorted
    rw [List.map_append, List.pairwise_append] at hsorted
    rw [List.map_append, List.map_cons, hnew,
      map_number_linked _ (fun id hid => h.small id (List.mem_append_left _ hid)),
      map_number_linked _ (fun id hid => h.small id (List.mem_append_right _ hid)),
      List.pairwise_append, List.pairwise_cons]
    refine ⟨hsorted.1, ⟨?_, hsorted.2.1⟩, ?_⟩
    · intro n hn
      obtain ⟨id, hid, rfl⟩ := List.mem_map.mp hn
      exact hafter id hid
    · intro a ha n hn
      obtain ⟨id, hid, rfl⟩ := List.mem_map.mp ha
      rcases List.mem_cons.mp hn with rfl | hn
      · exact hbefore id hid
      · exact hsorted.2.2 _ ha n hn

theorem Taken.linked (h : Threaded m decrypt s ids) (ht : Taken m decrypt s done)
    (hsub : ∀ id ∈ done, id ∈ ids) (b : DataBuffer) :
    Taken m decrypt (s.linked b before after) done := by
  obtain ⟨hlast, hmetadata, hheader, hsize, havailable⟩ := linked_taken (s := s) b
  refine ⟨?_, ?_, ?_, ?_, ?_⟩
  · rw [map_number_linked b (fun id hid => h.small id (hsub id hid))]
    exact ht.numbers
  · rw [hlast]
    exact ht.last
  · rw [hmetadata]
    exact ht.metadata
  · rw [hheader, hsize]
    exact ht.header
  · rw [havailable]
    exact ht.dataAvailable

/-! ### Catching up -/

theorem accept_list (finger : ℕ) :
    (s.accept finger).buffers = s.buffers ∧ (s.accept finger).msgNext = s.msgNext ∧
    (s.accept finger).firstPacket = s.firstPacket ∧ (s.accept finger).fresh = s.fresh ∧
    (s.accept finger).tail = s.tail := by
  unfold accept
  dsimp only
  split_ifs <;> exact ⟨rfl, rfl, rfl, rfl, rfl⟩

theorem number_accept (finger : ℕ) : (s.accept finger).number = s.number := by
  funext id
  unfold number seqOf
  rw [(accept_list finger).1]

theorem Threaded.accept (h : Threaded m decrypt s ids) (finger : ℕ) :
    Threaded m decrypt (s.accept finger) ids := by
  obtain ⟨hbuffers, hnext, hfirst, hfresh, htail⟩ := accept_list (s := s) finger
  exact h.congr hbuffers hnext hfirst hfresh htail

theorem accept_last (finger : ℕ) : (s.accept finger).lastContiguousPacket = some finger := by
  unfold PackageSequencer.accept
  dsimp only
  split_ifs <;> rfl

theorem accept_metadata (finger : ℕ) :
    (s.accept finger).metadata = s.metadata ++ (s.buffers finger).metadata := by
  unfold PackageSequencer.accept DataBuffer.metadata
  dsimp only
  split_ifs with h1 h2 h3 h4 h5 h6 h7 <;> simp_all

theorem accept_header (finger : ℕ) :
    (s.accept finger).header
      = (if s.number finger = 0 then (s.buffers finger).header else s.header) ∧
    (s.accept finger).headerSize
      = if s.number finger = 0 then (s.buffers finger).headerSize else s.headerSize := by
  unfold PackageSequencer.accept number seqOf
  dsimp only
  split_ifs <;> exact ⟨rfl, rfl⟩

theorem accept_dataAvailable (finger : ℕ) :
    (s.accept finger).dataAvailable
      = s.dataAvailable + 1 + if isComplete (s.seqOf finger) then 1 else 0 := by
  unfold PackageSequencer.accept seqOf
  dsimp only
  split_ifs <;> rfl

/-- The packet with the number of the first gap is taken. -/
theorem Taken.accept (h : Threaded m decrypt s (done ++ rest)) (ht : Taken m decrypt s done)
    {finger : ℕ} (hmem : finger ∈ rest) (hnumber : s.number finger = done.length) :
    Taken m decrypt (s.accept finger) (done ++ [finger]) := by
  have hin := List.mem_append_right done hmem
  have hle : done.length ≤ m.last := by
    rw [← hnumber]
    exact h.number_le finger hin
  have hbuffer : s.buffers finger = m.kept decrypt done.length := by
    rw [h.kept finger hin, hnumber]
  have hlength : (done ++ [finger]).length = done.length + 1 := List.length_append
  refine ⟨?_, ?_, ?_, ?_, ?_⟩
  · rw [number_accept, List.map_append, ht.numbers, List.map_singleton, hnumber, hlength,
      List.range_succ]
  · rw [accept_last, List.getLast?_append]
    rfl
  · rw [accept_metadata, ht.metadata, hbuffer, hlength, List.range_succ, List.flatMap_append,
      List.flatMap_singleton]
  · intro _
    rw [(accept_header finger).1, (accept_header finger).2, hnumber]
    by_cases hzero : done.length = 0
    · rw [if_pos hzero, if_pos hzero, hbuffer, hzero]
      exact ⟨rfl, rfl⟩
    · rw [if_neg hzero, if_neg hzero]
      exact ht.header (Nat.pos_of_ne_zero hzero)
  · rw [accept_dataAvailable, ht.dataAvailable, h.seqOf_eq hin, hnumber, m.isComplete_pktSeq hle,
      hlength]
    simp only [decide_eq_true_eq]
    split_ifs <;> omega

/-- The loop takes the packets up to the next gap, and says whether the last packet of the message
was among them. -/
theorem catchUp_spec {fuel prevseq : ℕ} {start : Option ℕ} (res : Bool)
    (h : Threaded m decrypt s (done ++ rest)) (ht : Taken m decrypt s done)
    (hchain : Linked.Chain s.msgNext start rest) (hfuel : rest.length < fuel)
    (hprev : (prevseq + 1) % 2 ^ 32 = done.length) :
    ∃ more pending s', rest = more ++ pending ∧
      catchUp fuel s start prevseq res
        = some (res || decide (done.length ≤ m.last ∧ m.last < (done ++ more).length), s') ∧
      Threaded m decrypt s' (done ++ rest) ∧ Taken m decrypt s' (done ++ more) ∧
      (∀ id ∈ pending, s'.number id ≠ (done ++ more).length) ∧ s'.number = s.number := by
  induction rest generalizing fuel s done start prevseq res with
  | nil =>
    obtain ⟨fuel, rfl⟩ : ∃ n, fuel = n + 1 := ⟨fuel - 1, by grind⟩
    obtain rfl : start = none := hchain
    refine ⟨[], [], s, rfl, ?_, h, by rwa [List.append_nil], by grind, rfl⟩
    have hno : ¬(done.length ≤ m.last ∧ m.last < done.length) := by omega
    rw [List.append_nil, decide_eq_false hno, Bool.or_false]
    rfl
  | cons finger rest ih =>
    obtain ⟨fuel, rfl⟩ : ∃ n, fuel = n + 1 := ⟨fuel - 1, by grind⟩
    obtain ⟨rfl, hbehind⟩ := Linked.chain_cons hchain
    have hmem : finger ∈ done ++ finger :: rest := by simp
    unfold catchUp
    dsimp only
    change ∃ more pending s', _ ∧ (if s.number finger = _ then _ else _) = _ ∧ _
    rw [hprev]
    by_cases hnext : s.number finger = done.length
    · have hle := h.number_le finger hmem
      have hlast := m.last_lt
      have hassoc : done ++ finger :: rest = done ++ [finger] ++ rest := by simp
      have hthreaded := h.accept finger
      rw [hassoc] at hthreaded
      have htaken := ht.accept h List.mem_cons_self hnext
      have hbehind' : Linked.Chain (s.accept finger).msgNext (s.msgNext finger) rest := by
        rw [(accept_list finger).2.1]
        exact hbehind
      have hfuel' : rest.length < fuel := by
        rw [List.length_cons] at hfuel
        omega
      have hprev' : (s.number finger + 1) % 2 ^ 32 = (done ++ [finger]).length := by
        rw [List.length_append, List.length_singleton]
        omega
      obtain ⟨more, pending, s', hsplit, hrun, hthreaded', htaken', hgap, hnumber⟩ :=
        ih (res || isComplete (s.seqOf finger)) hthreaded htaken hbehind' hfuel' hprev'
      refine ⟨finger :: more, pending, s', by rw [hsplit, List.cons_append], ?_, ?_, ?_, ?_, ?_⟩
      · rw [if_pos hnext]
        change catchUp fuel (s.accept finger) (s.msgNext finger) (s.number finger) _ = _
        rw [hrun, h.seqOf_eq hmem, m.isComplete_pktSeq hle, Bool.or_assoc]
        have hflag : (decide (s.number finger = m.last) ||
            decide ((done ++ [finger]).length ≤ m.last ∧
              m.last < (done ++ [finger] ++ more).length))
            = decide (done.length ≤ m.last ∧ m.last < (done ++ finger :: more).length) := by
          rw [Bool.eq_iff_iff]
          simp only [Bool.or_eq_true, decide_eq_true_eq, List.length_append, List.length_cons,
            List.length_nil]
          omega
        rw [hflag]
      · rw [hassoc]
        exact hthreaded'
      · rw [List.append_cons]
        exact htaken'
      · rw [List.append_cons]
        exact hgap
      · rw [hnumber, number_accept]
    · rw [if_neg hnext]
      refine ⟨[], finger :: rest, s, rfl, ?_, h, by rwa [List.append_nil], ?_, rfl⟩
      · have hno : ¬(done.length ≤ m.last ∧ m.last < done.length) := by omega
        rw [List.append_nil, decide_eq_false hno, Bool.or_false]
      · -- the first packet behind the gap is the smallest of those that wait
        rw [List.append_nil]
        intro id hid heq
        have hsorted := h.sorted
        rw [List.map_append, List.pairwise_append, ht.numbers, List.map_cons,
          List.pairwise_cons] at hsorted
        rcases List.mem_cons.mp hid with rfl | hid
        · exact hnext heq
        · have hlt := hsorted.2.1.1 _ (List.mem_map_of_mem hid)
          have hge : done.length ≤ s.number finger := by
            by_contra hcon
            have hself := hsorted.2.2 (s.number finger) (List.mem_range.mpr (by omega)) _
              List.mem_cons_self
            exact Nat.lt_irrefl _ hself
          omega

/-! ### One insertion -/

/-- The sequencer has the packets of `received`: `done` before the first gap, `pending` behind. -/
structure Holds (m : Message) (decrypt : List UInt8 → List UInt8) (received : List ℕ)
    (s : PackageSequencer) (done pending : List ℕ) : Prop where
  threaded : Threaded m decrypt s (done ++ pending)
  taken : Taken m decrypt s done
  gap : ∀ id ∈ pending, s.number id ≠ done.length
  received : ∀ i, i ∈ received ↔ i ∈ (done ++ pending).map s.number

variable {received : List ℕ}

theorem holds_new : Holds m decrypt [] new [] [] := by
  refine ⟨⟨rfl, rfl, ?_, ?_, ?_, List.Pairwise.nil, rfl⟩, ⟨rfl, rfl, rfl, ?_, rfl⟩, ?_, ?_⟩
  · intro id hid
    cases hid
  · intro id hid
    cases hid
  · intro id hid
    cases hid
  · intro hpos
    cases hpos
  · intro id hid
    cases hid
  · intro i
    rfl

/-- The counters are not part of what the sequencer holds. -/
theorem Holds.counters (h : Holds m decrypt received s done pending) (a b c : ℕ) :
    Holds m decrypt received { s with maxSeqSeen := a, duplicates := b, resends := c }
      done pending where
  threaded := h.threaded.congr rfl rfl rfl rfl rfl
  taken := ⟨h.taken.numbers, h.taken.last, h.taken.metadata, h.taken.header,
    h.taken.dataAvailable⟩
  gap := h.gap
  received := h.received

/-- The new packet goes right behind the packets before the first gap: the loop runs. -/
theorem closeGap_spec (h : Threaded m decrypt s (done ++ rest)) (ht : Taken m decrypt s done) :
    ∃ more pending s', rest = more ++ pending ∧
      s.closeGap done.getLast?
        = some (decide (done.length ≤ m.last ∧ m.last < (done ++ more).length), s') ∧
      Threaded m decrypt s' (done ++ rest) ∧ Taken m decrypt s' (done ++ more) ∧
      (∀ id ∈ pending, s'.number id ≠ (done ++ more).length) ∧ s'.number = s.number := by
  have hlength := h.length
  rw [List.length_append] at hlength
  unfold closeGap
  rw [ht.last, if_pos rfl]
  cases hlast : done.getLast? with
  | none =>
    obtain rfl : done = [] := List.getLast?_eq_none_iff.mp hlast
    exact catchUp_spec false h ht h.chain (by omega) rfl
  | some last =>
    have hnumber := ht.number_getLast hlast
    have hle := h.number_le last (List.mem_append_left _ (List.mem_of_getLast? hlast))
    have hbound := m.last_lt
    have hchain := h.chain
    rw [← List.dropLast_append_getLast? last hlast, List.append_assoc,
      List.singleton_append] at hchain
    have hprev : (s.number last + 1) % 2 ^ 32 = done.length := by omega
    exact catchUp_spec false h ht hchain.behind (by omega) hprev

/-- In a list that starts with `done`, the buffer behind which the new one goes is the last of
`done` only when the new one goes right behind `done`. -/
theorem eq_done_of_getLast (hnodup : (done ++ pending).Nodup)
    (hsplit : done ++ pending = before ++ after) (hlength : done.length ≤ before.length)
    (heq : before.getLast? = done.getLast?) : before = done ∧ after = pending := by
  obtain ⟨more, rfl⟩ : ∃ more, before = done ++ more := by
    have hle : done <+: before := List.prefix_of_prefix_length_le (List.prefix_append done pending)
      (hsplit ▸ List.prefix_append before after) hlength
    exact ⟨_, (List.prefix_iff_eq_append.mp hle).symm⟩
  rw [List.append_assoc, List.append_cancel_left_eq] at hsplit
  rw [List.getLast?_append] at heq
  cases hmore : more.getLast? with
  | none =>
    obtain rfl : more = [] := List.getLast?_eq_none_iff.mp hmore
    exact ⟨List.append_nil done, hsplit.symm⟩
  | some x =>
    rw [hmore, Option.some_or] at heq
    have hx : x ∈ pending := by
      rw [hsplit]
      exact List.mem_append_left _ (List.mem_of_getLast? hmore)
    exact absurd hx (List.disjoint_of_nodup_append hnodup (List.mem_of_getLast? heq.symm))

theorem closeGap_of_ne {prev : Option ℕ} (hne : prev ≠ s.lastContiguousPacket) :
    s.closeGap prev = some (false, s) := by
  unfold closeGap
  rw [if_neg hne]

/-- The buffers of the linked state are the new one and the old ones. -/
theorem mem_numbers_linked (hi : i ≤ m.last) (hsmall : ∀ id ∈ before ++ after, id < s.fresh)
    (j : ℕ) :
    j ∈ (before ++ s.fresh :: after).map (s.linked (m.kept decrypt i) before after).number ↔
      j ∈ (before ++ after).map s.number ∨ j = i := by
  have hnew : (s.linked (m.kept decrypt i) before after).number s.fresh = i :=
    (number_linked_fresh _).trans (m.sequenceNumber_pktSeq hi)
  rw [← map_number_linked (m.kept decrypt i) hsmall]
  simp only [List.map_append, List.map_cons, List.mem_append, List.mem_cons, hnew]
  tauto

/-- A packet that waits is behind the gap. -/
theorem Holds.lt_of_pending (h : Holds m decrypt received s done pending) {id : ℕ}
    (hid : id ∈ pending) : done.length < s.number id := by
  have hsorted := h.threaded.sorted
  rw [List.map_append, List.pairwise_append, h.taken.numbers] at hsorted
  have hne := h.gap id hid
  by_contra hcon
  have hlt := hsorted.2.2 (s.number id) (List.mem_range.mpr (by omega)) _
    (List.mem_map_of_mem hid)
  exact Nat.lt_irrefl _ hlt

/-- What `insert` does with a packet of the message: the counters, then the place. -/
theorem insert_packet (hi : i ≤ m.last) (resent : Bool) :
    ∃ a c, insert decrypt s (m.packet i resent)
      = (findPlace { s with maxSeqSeen := a, duplicates := s.duplicates, resends := c }
          (m.pktSeq i)).bind (fun found =>
        match found with
        | (s, .duplicate) => some (false, s)
        | (s, .between prev finger) =>
          (s.link (m.kept decrypt i) prev finger).closeGap prev) := by
  refine ⟨max s.maxSeqSeen (sequenceNumber (m.packet i resent).pktSeq),
    s.resends + if resent then 1 else 0, ?_⟩
  unfold insert
  rw [m.isResent_packet hi]
  cases resent with
  | false =>
    dsimp only
    rw [if_neg Bool.false_ne_true]
    dsimp only
    rw [m.packet_pktSeq_false]
    rfl
  | true =>
    dsimp only
    rw [if_pos rfl]
    dsimp only
    rw [m.packet_pktSeq_true]
    rfl

/-- An insertion keeps what the sequencer holds, and returns true when the last missing packet
came with it. -/
theorem insert_spec (hi : i ≤ m.last) (resent : Bool)
    (h : Holds m decrypt received s done pending) :
    ∃ res s' done' pending', insert decrypt s (m.packet i resent) = some (res, s') ∧
      Holds m decrypt (received ++ [i]) s' done' pending' ∧
      (res = true ↔ done.length ≤ m.last ∧ m.last < done'.length) := by
  obtain ⟨a, c, hinsert⟩ := @insert_packet m decrypt s i hi resent
  have hc := h.counters a s.duplicates c
  generalize { s with maxSeqSeen := a, duplicates := s.duplicates, resends := c } = s at hinsert hc
  clear h
  rw [hinsert]
  rcases findPlace_spec hi hc.threaded hc.taken
    with ⟨hmem, count, hplace⟩ | ⟨before, after, hsplit, hlength, hbefore, hafter, hplace⟩
  · rw [hplace]
    refine ⟨false, _, done, pending, rfl, ?_, ?_⟩
    · have hcount := hc.counters s.maxSeqSeen count s.resends
      refine ⟨hcount.threaded, hcount.taken, hcount.gap, ?_⟩
      intro j
      rw [List.mem_append, List.mem_singleton]
      constructor
      · rintro (hj | rfl)
        · exact (hcount.received j).mp hj
        · exact hmem
      · intro hj
        exact Or.inl ((hcount.received j).mpr hj)
    · simp only [Bool.false_eq_true, false_iff]
      omega
  · have hthreaded := hc.threaded
    rw [hsplit] at hthreaded
    have hlinked := hthreaded.linked hi hbefore hafter
    have hsub : ∀ id ∈ done, id ∈ before ++ after := by
      intro id hid
      rw [← hsplit]
      exact List.mem_append_left _ hid
    have htaken : Taken m decrypt (s.linked (m.kept decrypt i) before after) done :=
      Taken.linked hthreaded hc.taken hsub _
    have hreceived : ∀ j, j ∈ received ++ [i] ↔
        j ∈ (before ++ s.fresh :: after).map (s.linked (m.kept decrypt i) before after).number := by
      intro j
      rw [mem_numbers_linked hi hthreaded.small, ← hsplit, ← hc.received, List.mem_append,
        List.mem_singleton]
    rw [hplace]
    change ∃ res s' done' pending',
      (s.linked (m.kept decrypt i) before after).closeGap before.getLast? = _ ∧ _
    by_cases hnext : before.getLast? = done.getLast?
    · obtain ⟨rfl, rfl⟩ := eq_done_of_getLast hc.threaded.nodup hsplit hlength hnext
      obtain ⟨more, pending', s', hmore, hrun, hthreaded', htaken', hgap, hnumber⟩ :=
        closeGap_spec hlinked htaken
      refine ⟨_, s', before ++ more, pending', hrun, ⟨?_, htaken', hgap, ?_⟩, ?_⟩
      · rw [List.append_assoc, ← hmore]
        exact hthreaded'
      · rw [List.append_assoc, ← hmore, hnumber]
        exact hreceived
      · rw [decide_eq_true_eq]
    · obtain ⟨more, rfl⟩ : ∃ more, before = done ++ more := by
        have hle : done <+: before := List.prefix_of_prefix_length_le
          (List.prefix_append done pending) (hsplit ▸ List.prefix_append before after) hlength
        exact ⟨_, (List.prefix_iff_eq_append.mp hle).symm⟩
      have hpending : pending = more ++ after := by
        rw [List.append_assoc, List.append_cancel_left_eq] at hsplit
        exact hsplit
      refine ⟨false, _, done, more ++ s.fresh :: after, ?_, ⟨?_, htaken, ?_, ?_⟩, ?_⟩
      · exact closeGap_of_ne (by rw [htaken.last]; exact hnext)
      · rw [← List.append_assoc]
        exact hlinked
      · -- some packet of `more` is between the gap and the new packet
        obtain ⟨x, hx⟩ : ∃ x, x ∈ more := by
          apply List.exists_mem_of_ne_nil
          rintro rfl
          exact hnext (by rw [List.append_nil])
        have hgap : done.length < i :=
          (hc.lt_of_pending (hpending ▸ List.mem_append_left _ hx)).trans
            (hbefore x (List.mem_append_right _ hx))
        intro id hid heq
        have hcases : id = s.fresh ∨ id ∈ pending := by
          rw [hpending]
          simp only [List.mem_append, List.mem_cons] at hid ⊢
          tauto
        rcases hcases with rfl | hold
        · rw [number_linked_fresh] at heq
          have hseq : sequenceNumber (m.kept decrypt i).pktSeq = i := m.sequenceNumber_pktSeq hi
          omega
        · rw [number_linked_of_lt _ (hc.threaded.small id (List.mem_append_right _ hold))] at heq
          exact hc.gap id hold heq
      · rw [← List.append_assoc]
        exact hreceived
      · simp only [Bool.false_eq_true, false_iff]
        omega

/-! ### Whole runs -/

/-- Every packet of the message is there. -/
def Complete (m : Message) (received : List ℕ) : Prop := ∀ j ≤ m.last, j ∈ received

theorem Holds.complete_iff (h : Holds m decrypt received s done pending) :
    Complete m received ↔ m.last < done.length := by
  constructor
  · intro hcomplete
    by_contra hcon
    have hmem := (h.received _).mp (hcomplete done.length (by omega))
    rw [List.map_append, List.mem_append, h.taken.mem_iff] at hmem
    rcases hmem with hlt | hpending
    · exact Nat.lt_irrefl _ hlt
    · obtain ⟨id, hid, heq⟩ := List.mem_map.mp hpending
      exact h.gap id hid heq
  · intro hlt j hj
    rw [h.received, List.map_append, List.mem_append, h.taken.mem_iff]
    exact Or.inl (by omega)

theorem Holds.pending_eq_nil (h : Holds m decrypt received s done pending)
    (hcomplete : Complete m received) : pending = [] := by
  apply List.eq_nil_iff_forall_not_mem.mpr
  intro id hid
  have hgap := h.lt_of_pending hid
  have hle := h.threaded.number_le id (List.mem_append_right _ hid)
  have hlt := h.complete_iff.mp hcomplete
  omega

theorem Holds.length_eq (h : Holds m decrypt received s done pending)
    (hcomplete : Complete m received) : done.length = m.last + 1 := by
  have hlt := h.complete_iff.mp hcomplete
  obtain ⟨id, hid, hnumber⟩ := List.mem_map.mp
    (h.taken.mem_iff.mpr (Nat.sub_lt (Nat.zero_lt_of_lt hlt) Nat.zero_lt_one))
  have hle := h.threaded.number_le id (List.mem_append_left _ hid)
  omega

/-- A complete message: the buffers are its packets in order. -/
theorem Holds.map_buffers (h : Holds m decrypt received s done pending)
    (hcomplete : Complete m received) :
    done.map s.buffers = (List.range (m.last + 1)).map (m.kept decrypt) := by
  rw [← h.length_eq hcomplete, ← h.taken.numbers, List.map_map]
  apply List.map_congr_left
  intro id hid
  exact h.threaded.kept id (List.mem_append_left _ hid)

/-- With a signal for each buffer and one for the null, reading does not block. -/
theorem readAll_chain (after : Option ℕ)
    (hchain : Linked.Chain s.msgNext (s.behind after) rest)
    (havailable : s.dataAvailable = rest.length + 1) :
    s.readAll (rest.length + 1) after = some rest := by
  induction rest generalizing s after with
  | nil =>
    have hnull : s.behind after = none := hchain
    unfold readAll next
    rw [if_neg (by rw [havailable]; omega), hnull]
    rfl
  | cons id rest ih =>
    obtain ⟨hstart, hbehind⟩ := Linked.chain_cons hchain
    rw [List.length_cons] at havailable ⊢
    have hread := ih (s := { s with dataAvailable := s.dataAvailable - 1 }) (some id)
      hbehind (by dsimp only; omega)
    unfold readAll next
    rw [if_neg (by omega), hstart]
    simp only [Option.bind_eq_bind, Option.bind_some, hread]
    rfl

theorem insertAll_append (bs : List DataBuffer) (b : DataBuffer) (s : PackageSequencer) :
    s.insertAll decrypt (bs ++ [b])
      = (s.insertAll decrypt bs).bind (fun r =>
          (r.2.insert decrypt b).map (fun q => (r.1 ++ [q.1], q.2))) := by
  induction bs generalizing s with
  | nil =>
    simp only [List.nil_append, insertAll, Option.bind_eq_bind, Option.bind_some]
    cases s.insert decrypt b <;> rfl
  | cons c bs ih =>
    simp only [List.cons_append, insertAll, Option.bind_eq_bind, ih]
    cases s.insert decrypt c with
    | none => rfl
    | some r =>
      simp only [Option.bind_some]
      cases insertAll decrypt r.2 bs with
      | none => rfl
      | some q =>
        simp only [Option.bind_some, Option.pure_def]
        cases q.2.insert decrypt b <;> rfl

end PackageSequencer

/-- The packets of a message as they arrive: in any order, any number of times, marked or not. -/
def Message.arrivals (m : Message) (calls : List (Fin (m.last + 1) × Bool)) : List DataBuffer :=
  calls.map (fun call => m.packet call.1 call.2)

/-- The packet numbers that have arrived. -/
def Message.received (m : Message) (calls : List (Fin (m.last + 1) × Bool)) : List ℕ :=
  calls.map (fun call => (call.1 : ℕ))

namespace PackageSequencer

variable {m : Message} {decrypt : List UInt8 → List UInt8}

theorem not_complete_nil : ¬Complete m [] := by
  intro hcomplete
  cases hcomplete 0 (Nat.zero_le _)

theorem Complete.append {received : List ℕ} (h : Complete m received) (more : List ℕ) :
    Complete m (received ++ more) :=
  fun j hj => List.mem_append_left _ (h j hj)

/-- What a run of insertions leaves, with the values it returned. -/
theorem run_spec (m : Message) (decrypt : List UInt8 → List UInt8)
    (calls : List (Fin (m.last + 1) × Bool)) :
    ∃ results s done pending,
      new.insertAll decrypt (m.arrivals calls) = some (results, s) ∧
      Holds m decrypt (m.received calls) s done pending ∧ results.length = calls.length ∧
      (∀ j, results[j]? = some true ↔ Complete m (m.received (calls.take (j + 1))) ∧
        ¬Complete m (m.received (calls.take j))) ∧
      (results.count true = 1 ↔ Complete m (m.received calls)) ∧ results.count true ≤ 1 := by
  induction calls using List.reverseRecOn with
  | nil =>
    refine ⟨[], new, [], [], rfl, holds_new, rfl, ?_, ?_, Nat.zero_le 1⟩
    · intro j
      rw [List.take_nil]
      refine ⟨fun h => absurd h (by simp), fun h => absurd h.1 not_complete_nil⟩
    · exact ⟨fun h => absurd h (by simp), fun h => absurd h not_complete_nil⟩
  | append_singleton calls call ih =>
    obtain ⟨results, s, done, pending, hrun, hholds, hlength, hresults, hcount, hle⟩ := ih
    obtain ⟨res, s', done', pending', hinsert, hholds', hres⟩ :=
      insert_spec (Nat.le_of_lt_succ call.1.isLt) call.2 hholds
    have hreceived : m.received (calls ++ [call]) = m.received calls ++ [(call.1 : ℕ)] :=
      List.map_append
    have hlast : res = true ↔ Complete m (m.received (calls ++ [call])) ∧
        ¬Complete m (m.received calls) := by
      rw [hres, hreceived, hholds'.complete_iff, hholds.complete_iff]
      omega
    have hmono : Complete m (m.received calls) → Complete m (m.received (calls ++ [call])) := by
      rw [hreceived]
      exact fun h => h.append _
    refine ⟨results ++ [res], s', done', pending', ?_, ?_, ?_, ?_, ?_⟩
    · unfold Message.arrivals at hrun ⊢
      rw [List.map_append, List.map_singleton, insertAll_append, hrun, Option.bind_some, hinsert]
      rfl
    · rw [hreceived]
      exact hholds'
    · rw [List.length_append, List.length_append, hlength]
      rfl
    · intro j
      rcases lt_trichotomy j calls.length with hj | rfl | hj
      · rw [List.getElem?_append_left (by omega), hresults, List.take_append_of_le_length hj,
          List.take_append_of_le_length hj.le]
      · rw [← hlength, List.getElem?_concat_length, hlength, Option.some.injEq, hlast,
          List.take_left, List.take_of_length_le (by simp)]
      · rw [List.getElem?_eq_none (by simp; omega), List.take_of_length_le (by simp; omega),
          List.take_of_length_le (by simp; omega)]
        simp
    · rw [List.count_append, List.count_singleton]
      by_cases hcomplete : Complete m (m.received calls)
      · have hone := hcount.mpr hcomplete
        have hfalse : res = false := Bool.eq_false_iff.mpr (fun h => (hlast.mp h).2 hcomplete)
        rw [hone, hfalse]
        exact ⟨iff_of_true rfl (hmono hcomplete), le_refl 1⟩
      · have hzero : results.count true = 0 := by
          have hne := mt hcount.mp hcomplete
          omega
        have hiff : res = true ↔ Complete m (m.received (calls ++ [call])) := by
          rw [hlast]
          exact and_iff_left hcomplete
        rw [hzero]
        cases res with
        | false =>
          exact ⟨iff_of_false (by decide) (fun h => absurd (hiff.mpr h) (by decide)), by decide⟩
        | true => exact ⟨iff_of_true rfl (hiff.mp rfl), le_refl 1⟩

/-- The sequencer after the packets of `received`: the list in order with `tail` its last buffer,
`k` packets before the first gap, their metadata, and the signals. -/
structure Reassembled (m : Message) (decrypt : List UInt8 → List UInt8) (received : List ℕ)
    (s : PackageSequencer) (ids : List ℕ) (k : ℕ) : Prop where
  chain : Linked.Chain s.msgNext s.firstPacket ids
  increasing : (ids.map s.number).Pairwise (· < ·)
  numbers : ∀ j, j ∈ ids.map s.number ↔ j ∈ received
  buffers : ∀ id ∈ ids, s.buffers id = m.kept decrypt (s.number id)
  tail : s.tail = ids.getLast?
  gapFree : ∀ j < k, j ∈ received
  maximal : k ∉ received
  contiguous : (ids.take k).map s.number = List.range k
  last : s.lastContiguousPacket = (ids.take k).getLast?
  metadata : s.metadata = (List.range k).flatMap (fun i => (m.kept decrypt i).metadata)
  signals : ¬Complete m received → s.dataAvailable = k
  signalsComplete : Complete m received → s.dataAvailable = k + 1
  reads : Complete m received → s.readAll (m.last + 2) none = some ids

theorem Holds.reassembled {received done pending : List ℕ} {s : PackageSequencer}
    (h : Holds m decrypt received s done pending) :
    Reassembled m decrypt received s (done ++ pending) done.length where
  chain := h.threaded.chain
  increasing := h.threaded.sorted
  numbers := fun j => (h.received j).symm
  buffers := h.threaded.kept
  tail := h.threaded.tail
  gapFree := by
    intro j hj
    rw [h.received, List.map_append, List.mem_append, h.taken.mem_iff]
    exact Or.inl hj
  maximal := by
    rw [h.received, List.map_append, List.mem_append, h.taken.mem_iff]
    rintro (hlt | hpending)
    · exact Nat.lt_irrefl _ hlt
    · obtain ⟨id, hid, heq⟩ := List.mem_map.mp hpending
      exact h.gap id hid heq
  contiguous := by
    rw [List.take_left]
    exact h.taken.numbers
  last := by
    rw [List.take_left]
    exact h.taken.last
  metadata := h.taken.metadata
  signals := by
    intro hcomplete
    rw [h.complete_iff] at hcomplete
    rw [h.taken.dataAvailable, if_neg hcomplete, Nat.add_zero]
  signalsComplete := by
    intro hcomplete
    rw [h.complete_iff] at hcomplete
    rw [h.taken.dataAvailable, if_pos hcomplete]
  reads := by
    intro hcomplete
    have hnil := h.pending_eq_nil hcomplete
    have hlt := h.complete_iff.mp hcomplete
    have hchain := h.threaded.chain
    have havailable := h.taken.dataAvailable
    rw [if_pos hlt] at havailable
    rw [hnil, List.append_nil] at hchain ⊢
    have hlength := h.length_eq hcomplete
    rw [← readAll_chain none hchain havailable, hlength]

/-- The packets of a message in any order, with any duplicates and marks: only the call with the
last missing packet returns true, and the list, the pointers, the metadata and the signals follow
the packets that are there. -/
theorem reassembles (m : Message) (decrypt : List UInt8 → List UInt8)
    (calls : List (Fin (m.last + 1) × Bool)) :
    ∃ results s ids k,
      new.insertAll decrypt (m.arrivals calls) = some (results, s) ∧
      results.length = calls.length ∧
      (∀ j, results[j]? = some true ↔ Complete m (m.received (calls.take (j + 1))) ∧
        ¬Complete m (m.received (calls.take j))) ∧
      (Complete m (m.received calls) → results.count true = 1) ∧
      Reassembled m decrypt (m.received calls) s ids k := by
  obtain ⟨results, s, done, pending, hrun, hholds, hlength, hresults, hcount, -⟩ :=
    run_spec m decrypt calls
  exact ⟨results, s, done ++ pending, done.length, hrun, hlength, hresults, hcount.mpr,
    hholds.reassembled⟩

end PackageSequencer

end Udp
