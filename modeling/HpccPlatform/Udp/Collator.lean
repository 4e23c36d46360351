import HpccPlatform.Udp.Reassembly

/-!
# Collation of the messages of a request

`CMessageCollator` of `roxie/udplib/udpmsgpk.cpp` keeps a sequencer for each message that it has
only parts of, and pushes the sequencer on its queue with the packet that completes the message.
The completed message is then forgotten, so its packets are counted from the start when they come
again.  `tally` counts so for the packet numbers of one message; the queue of the collator follows
it message by message.
-/

namespace Udp

/-- `GETPUID`: the sender and the message of a packet. -/
def getPuid (b : DataBuffer) : UInt64 := b.node.toUInt64 <<< 32 ||| b.msgSeq.toUInt64

structure CMessageCollator where
  mapping : UInt64 → Option PackageSequencer
  queue : List PackageSequencer
  totalDuplicates : ℕ
  totalResends : ℕ

namespace CMessageCollator

def new : CMessageCollator := ⟨fun _ => none, [], 0, 0⟩

def noteDuplicate (c : CMessageCollator) (isResend : Bool) : CMessageCollator :=
  { c with
    totalDuplicates := c.totalDuplicates + 1
    totalResends := if isResend then c.totalResends + 1 else c.totalResends }

/-- `collate`; the sequencer counts on the counters of the collator. -/
def collate (decrypt : List UInt8 → List UInt8) (c : CMessageCollator) (dataBuff : DataBuffer) :
    Option CMessageCollator := do
  let puid := getPuid dataBuff
  let isNew := (c.mapping puid).isNone
  let pkSqncr := (c.mapping puid).getD .new
  let (isComplete, pkSqncr) ←
    { pkSqncr with duplicates := c.totalDuplicates, resends := c.totalResends }.insert decrypt
      dataBuff
  let c := { c with totalDuplicates := pkSqncr.duplicates, totalResends := pkSqncr.resends }
  if isComplete then
    return { c with
      mapping := if isNew then c.mapping else Function.update c.mapping puid none
      queue := c.queue ++ [pkSqncr] }
  else return { c with mapping := Function.update c.mapping puid (some pkSqncr) }

/-- `attach_databuffer`, while there is memory: a packet whose node was cleared is a duplicate
that is only noted. -/
def attachDatabuffer (decrypt : List UInt8 → List UInt8) (c : CMessageCollator)
    (dataBuff : DataBuffer) : Option CMessageCollator :=
  if dataBuff.node = 0 then some (c.noteDuplicate (isResent dataBuff.pktSeq))
  else c.collate decrypt dataBuff

def attachAll (decrypt : List UInt8 → List UInt8) :
    CMessageCollator → List DataBuffer → Option CMessageCollator
  | c, [] => some c
  | c, dataBuff :: rest => (c.attachDatabuffer decrypt dataBuff).bind (attachAll decrypt · rest)

theorem attachAll_append (decrypt : List UInt8 → List UInt8) (xs ys : List DataBuffer)
    (c : CMessageCollator) :
    c.attachAll decrypt (xs ++ ys) = (c.attachAll decrypt xs).bind (attachAll decrypt · ys) := by
  induction xs generalizing c with
  | nil => rfl
  | cons b xs ih =>
    rw [List.cons_append, attachAll, attachAll, Option.bind_assoc]
    congr 1
    funext c'
    exact ih c'

end CMessageCollator

/-! ### Counting the completions of one message -/

section Tally

variable {m : Message} {received xs ys acc : List ℕ} {i n : ℕ}

instance (m : Message) (received : List ℕ) : Decidable (PackageSequencer.Complete m received) :=
  inferInstanceAs (Decidable (∀ j ≤ m.last, j ∈ received))

open PackageSequencer (Complete not_complete_nil)

/-- One packet more: the completions so far, and the packets since the last of them. -/
def tally (m : Message) (state : ℕ × List ℕ) (i : ℕ) : ℕ × List ℕ :=
  if Complete m (state.2 ++ [i]) then (state.1 + 1, []) else (state.1, state.2 ++ [i])

/-- The completions of a message among the packets that came. -/
def tallied (m : Message) (received : List ℕ) : ℕ × List ℕ := received.foldl (tally m) (0, [])

theorem tallied_append_singleton : tallied m (received ++ [i]) = tally m (tallied m received) i :=
  List.foldl_concat _ _ _ _

theorem tally_not_complete : ¬Complete m (tally m (n, acc) i).2 := by
  unfold tally
  split_ifs with hcomplete
  · exact not_complete_nil
  · exact hcomplete

theorem foldl_tally_not_complete (h : ¬Complete m acc) :
    ¬Complete m (xs.foldl (tally m) (n, acc)).2 := by
  induction xs generalizing n acc with
  | nil => exact h
  | cons i xs ih => exact ih tally_not_complete

/-- The packets since the last completion are not complete. -/
theorem tallied_not_complete : ¬Complete m (tallied m received).2 :=
  foldl_tally_not_complete not_complete_nil

theorem le_foldl_tally : n ≤ (xs.foldl (tally m) (n, acc)).1 := by
  induction xs generalizing n acc with
  | nil => exact le_refl n
  | cons i xs ih =>
    have hstep : n ≤ (tally m (n, acc) i).1 := by
      unfold tally
      split_ifs
      · exact Nat.le_succ n
      · exact le_refl n
    exact hstep.trans ih

/-- There is one more completion exactly when the packets in hand and the further ones are
complete. -/
theorem lt_foldl_tally_iff (h : ¬Complete m acc) :
    n < (xs.foldl (tally m) (n, acc)).1 ↔ Complete m (acc ++ xs) := by
  induction xs generalizing n acc with
  | nil =>
    rw [List.append_nil]
    exact iff_of_false (Nat.lt_irrefl n) h
  | cons i xs ih =>
    rw [List.foldl_cons, List.append_cons]
    by_cases hcomplete : Complete m (acc ++ [i])
    · have hstep : tally m (n, acc) i = (n + 1, []) := if_pos hcomplete
      rw [hstep]
      exact iff_of_true (Nat.lt_of_succ_le le_foldl_tally) (hcomplete.append xs)
    · have hstep : tally m (n, acc) i = (n, acc ++ [i]) := if_neg hcomplete
      rw [hstep]
      exact ih hcomplete

theorem tallied_pos_iff : 0 < (tallied m received).1 ↔ Complete m received :=
  lt_foldl_tally_iff not_complete_nil

/-- With two completions the packets come apart into two complete parts. -/
theorem split_of_two_le (acc xs : List ℕ) (hle : n + 2 ≤ (xs.foldl (tally m) (n, acc)).1) :
    ∃ ys zs, xs = ys ++ zs ∧ Complete m (acc ++ ys) ∧ Complete m zs := by
  induction xs generalizing acc with
  | nil =>
    rw [List.foldl_nil] at hle
    omega
  | cons i xs ih =>
    rw [List.foldl_cons] at hle
    by_cases hcomplete : Complete m (acc ++ [i])
    · have hstep : tally m (n, acc) i = (n + 1, []) := if_pos hcomplete
      rw [hstep] at hle
      exact ⟨[i], xs, rfl, hcomplete,
        (lt_foldl_tally_iff not_complete_nil).mp (Nat.lt_of_succ_le hle)⟩
    · have hstep : tally m (n, acc) i = (n, acc ++ [i]) := if_neg hcomplete
      rw [hstep] at hle
      obtain ⟨ys, zs, hsplit, hys, hzs⟩ := ih (acc ++ [i]) hle
      refine ⟨i :: ys, zs, by rw [hsplit, List.cons_append], ?_, hzs⟩
      rw [List.append_cons]
      exact hys

/-- A message completes twice exactly when its packets all come again after they all came. -/
theorem two_le_tallied_iff :
    2 ≤ (tallied m received).1 ↔
      ∃ xs ys, received = xs ++ ys ∧ Complete m xs ∧ Complete m ys := by
  constructor
  · intro hle
    rw [← Nat.zero_add 2] at hle
    exact split_of_two_le [] received hle
  · rintro ⟨xs, ys, rfl, hxs, hys⟩
    have hone : 0 < (tallied m xs).1 := tallied_pos_iff.mpr hxs
    have hall : Complete m ((tallied m xs).2 ++ ys) :=
      fun j hj => List.mem_append_right _ (hys j hj)
    have hmore : (tallied m xs).1 < (ys.foldl (tally m) (tallied m xs)).1 :=
      (lt_foldl_tally_iff (n := (tallied m xs).1) tallied_not_complete).mpr hall
    unfold tallied at hone hmore ⊢
    rw [List.foldl_append]
    omega

end Tally

/-! ### The messages of a request -/

/-- The messages that are sent for a request; each has an identifier of its own. -/
structure Request (ι : Type) where
  message : ι → Message
  distinct : Function.Injective (fun a => getPuid ((message a).packet 0 false))
  sender : ∀ a, (message a).node ≠ 0

variable {ι : Type} {r : Request ι} {decrypt : List UInt8 → List UInt8}

/-- A packet that is handed to the collator: one of a message, or one that the receiver knows to
be a duplicate and whose node it has cleared. -/
inductive Arrival (r : Request ι) where
  | packet (a : ι) (i : Fin ((r.message a).last + 1)) (resent : Bool)
  | cleared (a : ι) (i : Fin ((r.message a).last + 1)) (resent : Bool)

namespace Arrival

def dataBuff : Arrival r → DataBuffer
  | packet a i resent => (r.message a).packet i resent
  | cleared a i resent => { (r.message a).packet i resent with node := 0 }

variable [DecidableEq ι]

/-- The number of the packet when it is one of message `a`. -/
def numberOf (a : ι) : Arrival r → Option ℕ
  | packet b i _ => if b = a then some i else none
  | cleared _ _ _ => none

/-- The packets of message `a` that came. -/
def received (a : ι) (arrivals : List (Arrival r)) : List ℕ := arrivals.filterMap (numberOf a)

theorem received_append (a : ι) (xs ys : List (Arrival r)) :
    received a (xs ++ ys) = received a xs ++ received a ys := List.filterMap_append

end Arrival

namespace Request

def puid (r : Request ι) (a : ι) : UInt64 := getPuid ((r.message a).packet 0 false)

theorem getPuid_packet (r : Request ι) (a : ι) (i : ℕ) (resent : Bool) :
    getPuid ((r.message a).packet i resent) = r.puid a := rfl

theorem puid_ne (r : Request ι) {a b : ι} (hne : b ≠ a) : r.puid b ≠ r.puid a :=
  fun heq => hne (r.distinct heq)

end Request

/-- The identifier of the message in a sequencer. -/
def PackageSequencer.puid (s : PackageSequencer) : Option UInt64 :=
  s.firstPacket.map (fun id => getPuid (s.buffers id))

/-- The sequencer has every packet of the message, in order. -/
def PackageSequencer.Whole (decrypt : List UInt8 → List UInt8) (m : Message)
    (s : PackageSequencer) : Prop :=
  ∃ ids, Linked.Chain s.msgNext s.firstPacket ids ∧
    ids.map s.buffers = (List.range (m.last + 1)).map (m.kept decrypt)

namespace PackageSequencer

variable {m : Message} {s : PackageSequencer} {received done pending : List ℕ}

theorem Holds.whole (h : Holds m decrypt received s done pending)
    (hcomplete : Complete m received) : s.Whole decrypt m := by
  have hnil := h.pending_eq_nil hcomplete
  subst hnil
  have hchain := h.threaded.chain
  rw [List.append_nil] at hchain
  exact ⟨done, hchain, h.map_buffers hcomplete⟩

theorem Whole.puid_eq (h : s.Whole decrypt m) : s.puid = some (getPuid (m.packet 0 false)) := by
  obtain ⟨ids, hchain, hbuffers⟩ := h
  cases ids with
  | nil =>
    rw [List.map_nil, List.range_succ_eq_map, List.map_cons] at hbuffers
    cases hbuffers
  | cons id ids =>
    rw [List.map_cons, List.range_succ_eq_map, List.map_cons] at hbuffers
    unfold puid
    rw [hchain.1, Option.map_some, (List.cons.inj hbuffers).1]
    rfl

end PackageSequencer

namespace CMessageCollator

open PackageSequencer (Holds Complete)

variable [DecidableEq ι]

/-- How often message `a` is on the queue. -/
def pushed (r : Request ι) (c : CMessageCollator) (a : ι) : ℕ :=
  (c.queue.filter (fun s => s.puid = some (r.puid a))).length

/-- The collator after `arrivals`: message by message, the sequencer has the packets since the
last completion, and the queue has a whole message for each completion. -/
structure Follows (decrypt : List UInt8 → List UInt8) (r : Request ι)
    (arrivals : List (Arrival r)) (c : CMessageCollator) : Prop where
  absent : ∀ a, c.mapping (r.puid a) = none →
    (tallied (r.message a) (Arrival.received a arrivals)).2 = []
  present : ∀ a s, c.mapping (r.puid a) = some s → ∃ done pending,
    Holds (r.message a) decrypt (tallied (r.message a) (Arrival.received a arrivals)).2 s
      done pending
  pushed : ∀ a, c.pushed r a = (tallied (r.message a) (Arrival.received a arrivals)).1
  whole : ∀ s ∈ c.queue, ∃ a, s.Whole decrypt (r.message a)

theorem follows_new : Follows decrypt r [] new := by
  refine ⟨?_, ?_, ?_, ?_⟩
  · intro a _
    rfl
  · intro a s hs
    cases hs
  · intro a
    rfl
  · intro s hs
    cases hs

variable {arrivals : List (Arrival r)} {c : CMessageCollator}

theorem received_packet_self (a : ι) (i : Fin ((r.message a).last + 1)) (resent : Bool) :
    Arrival.received a (arrivals ++ [.packet a i resent])
      = Arrival.received a arrivals ++ [(i : ℕ)] := by
  rw [Arrival.received_append]
  simp [Arrival.received, Arrival.numberOf]

theorem received_packet_of_ne {a b : ι} (hne : b ≠ a) (i : Fin ((r.message a).last + 1))
    (resent : Bool) :
    Arrival.received b (arrivals ++ [.packet a i resent]) = Arrival.received b arrivals := by
  rw [Arrival.received_append]
  simp [Arrival.received, Arrival.numberOf, hne.symm]

theorem received_cleared (a b : ι) (i : Fin ((r.message a).last + 1)) (resent : Bool) :
    Arrival.received b (arrivals ++ [.cleared a i resent]) = Arrival.received b arrivals := by
  rw [Arrival.received_append]
  simp [Arrival.received, Arrival.numberOf]

/-- The sequencer that a packet of message `a` goes to has the packets since the last
completion. -/
theorem Follows.sequencer (h : Follows decrypt r arrivals c) (a : ι) :
    ∃ done pending, Holds (r.message a) decrypt
      (tallied (r.message a) (Arrival.received a arrivals)).2
      ((c.mapping (r.puid a)).getD .new) done pending := by
  cases hmapping : c.mapping (r.puid a) with
  | none =>
    rw [h.absent a hmapping]
    exact ⟨[], [], PackageSequencer.holds_new⟩
  | some s => exact h.present a s hmapping

/-- The message completes: it leaves the mapping for the queue. -/
theorem Follows.complete (h : Follows decrypt r arrivals c) {a : ι}
    {i : Fin ((r.message a).last + 1)} (resent : Bool)
    (hcomplete : Complete (r.message a)
      ((tallied (r.message a) (Arrival.received a arrivals)).2 ++ [(i : ℕ)]))
    {s : PackageSequencer} (hwhole : s.Whole decrypt (r.message a)) {c' : CMessageCollator}
    (hmapping : c'.mapping = Function.update c.mapping (r.puid a) none)
    (hqueue : c'.queue = c.queue ++ [s]) :
    Follows decrypt r (arrivals ++ [.packet a i resent]) c' := by
  have htally : tallied (r.message a) (Arrival.received a (arrivals ++ [.packet a i resent]))
      = ((tallied (r.message a) (Arrival.received a arrivals)).1 + 1, []) := by
    rw [received_packet_self, tallied_append_singleton]
    exact if_pos hcomplete
  have hother : ∀ b, b ≠ a → c'.mapping (r.puid b) = c.mapping (r.puid b) := by
    intro b hne
    rw [hmapping, Function.update_of_ne (r.puid_ne hne)]
  have hpuid : s.puid = some (r.puid a) := hwhole.puid_eq
  refine ⟨?_, ?_, ?_, ?_⟩
  · intro b hb
    by_cases hba : b = a
    · subst hba
      rw [htally]
    · rw [received_packet_of_ne hba]
      exact h.absent b ((hother b hba).symm.trans hb)
  · intro b t hb
    by_cases hba : b = a
    · subst hba
      rw [hmapping, Function.update_self] at hb
      cases hb
    · rw [received_packet_of_ne hba]
      exact h.present b t ((hother b hba).symm.trans hb)
  · intro b
    unfold CMessageCollator.pushed
    rw [hqueue, List.filter_append, List.length_append]
    have hold := h.pushed b
    unfold CMessageCollator.pushed at hold
    rw [hold]
    by_cases hba : b = a
    · subst hba
      rw [htally]
      simp [hpuid]
    · have hne : r.puid a ≠ r.puid b := (r.puid_ne hba).symm
      rw [received_packet_of_ne hba]
      simp [hpuid, hne]
  · intro t ht
    rw [hqueue] at ht
    rcases List.mem_append.mp ht with ht | ht
    · exact h.whole t ht
    · rw [List.mem_singleton.mp ht]
      exact ⟨a, hwhole⟩

/-- The message does not complete: its sequencer is in the mapping. -/
theorem Follows.waits (h : Follows decrypt r arrivals c) {a : ι}
    {i : Fin ((r.message a).last + 1)} (resent : Bool)
    (hcomplete : ¬Complete (r.message a)
      ((tallied (r.message a) (Arrival.received a arrivals)).2 ++ [(i : ℕ)]))
    {s : PackageSequencer} {done pending : List ℕ}
    (hholds : Holds (r.message a) decrypt
      ((tallied (r.message a) (Arrival.received a arrivals)).2 ++ [(i : ℕ)]) s done pending)
    {c' : CMessageCollator}
    (hmapping : c'.mapping = Function.update c.mapping (r.puid a) (some s))
    (hqueue : c'.queue = c.queue) :
    Follows decrypt r (arrivals ++ [.packet a i resent]) c' := by
  have htally : tallied (r.message a) (Arrival.received a (arrivals ++ [.packet a i resent]))
      = ((tallied (r.message a) (Arrival.received a arrivals)).1,
          (tallied (r.message a) (Arrival.received a arrivals)).2 ++ [(i : ℕ)]) := by
    rw [received_packet_self, tallied_append_singleton]
    exact if_neg hcomplete
  have hother : ∀ b, b ≠ a → c'.mapping (r.puid b) = c.mapping (r.puid b) := by
    intro b hne
    rw [hmapping, Function.update_of_ne (r.puid_ne hne)]
  have hself : c'.mapping (r.puid a) = some s := by rw [hmapping, Function.update_self]
  refine ⟨?_, ?_, ?_, ?_⟩
  · intro b hb
    by_cases hba : b = a
    · subst hba
      rw [hself] at hb
      cases hb
    · rw [received_packet_of_ne hba]
      exact h.absent b ((hother b hba).symm.trans hb)
  · intro b t hb
    by_cases hba : b = a
    · subst hba
      rw [hself, Option.some.injEq] at hb
      subst hb
      rw [htally]
      exact ⟨done, pending, hholds⟩
    · rw [received_packet_of_ne hba]
      exact h.present b t ((hother b hba).symm.trans hb)
  · intro b
    unfold CMessageCollator.pushed
    rw [hqueue]
    by_cases hba : b = a
    · subst hba
      rw [htally]
      exact h.pushed b
    · rw [received_packet_of_ne hba]
      exact h.pushed b
  · rw [hqueue]
    exact h.whole

/-- One packet of a message. -/
theorem Follows.collate (h : Follows decrypt r arrivals c) (a : ι)
    (i : Fin ((r.message a).last + 1)) (resent : Bool) :
    ∃ c', c.collate decrypt ((r.message a).packet i resent) = some c' ∧
      Follows decrypt r (arrivals ++ [.packet a i resent]) c' := by
  obtain ⟨done, pending, hholds⟩ := h.sequencer a
  have hcounters := hholds.counters ((c.mapping (r.puid a)).getD .new).maxSeqSeen
    c.totalDuplicates c.totalResends
  obtain ⟨res, s', done', pending', hinsert, hholds', hres⟩ :=
    PackageSequencer.insert_spec (Nat.le_of_lt_succ i.isLt) resent hcounters
  have hnot : ¬Complete (r.message a) (tallied (r.message a) (Arrival.received a arrivals)).2 :=
    tallied_not_complete
  have hiff : res = true ↔ Complete (r.message a)
      ((tallied (r.message a) (Arrival.received a arrivals)).2 ++ [(i : ℕ)]) := by
    rw [hholds.complete_iff] at hnot
    rw [hres, hholds'.complete_iff]
    exact and_iff_right (not_lt.mp hnot)
  unfold CMessageCollator.collate
  rw [Request.getPuid_packet]
  dsimp only [Option.bind_eq_bind]
  rw [hinsert, Option.bind_some]
  cases res with
  | true =>
    have hcomplete := hiff.mp rfl
    refine ⟨_, rfl, h.complete resent hcomplete (hholds'.whole hcomplete) ?_ rfl⟩
    dsimp only
    cases hmapping : c.mapping (r.puid a) with
    | none =>
      change c.mapping = _
      rw [← hmapping, Function.update_eq_self]
    | some s => rfl
  | false =>
    have hcomplete : ¬Complete (r.message a)
        ((tallied (r.message a) (Arrival.received a arrivals)).2 ++ [(i : ℕ)]) :=
      fun hcon => absurd (hiff.mpr hcon) (by decide)
    exact ⟨_, rfl, h.waits resent hcomplete hholds' rfl rfl⟩

/-- One packet more, also one that is only noted. -/
theorem Follows.attach (h : Follows decrypt r arrivals c) (arrival : Arrival r) :
    ∃ c', c.attachDatabuffer decrypt arrival.dataBuff = some c' ∧
      Follows decrypt r (arrivals ++ [arrival]) c' := by
  cases arrival with
  | packet a i resent =>
    have hnode : ((r.message a).packet i resent).node ≠ 0 := r.sender a
    unfold attachDatabuffer Arrival.dataBuff
    dsimp only
    rw [if_neg hnode]
    exact h.collate a i resent
  | cleared a i resent =>
    refine ⟨_, if_pos rfl, ?_⟩
    refine ⟨?_, ?_, ?_, h.whole⟩
    · intro b hb
      rw [received_cleared]
      exact h.absent b hb
    · intro b s hs
      rw [received_cleared]
      exact h.present b s hs
    · intro b
      rw [received_cleared]
      exact h.pushed b

theorem follows_attachAll (arrivals : List (Arrival r)) :
    ∃ c, new.attachAll decrypt (arrivals.map Arrival.dataBuff) = some c ∧
      Follows decrypt r arrivals c := by
  induction arrivals using List.reverseRecOn with
  | nil => exact ⟨new, rfl, follows_new⟩
  | append_singleton arrivals arrival ih =>
    obtain ⟨c, hrun, hfollows⟩ := ih
    obtain ⟨c', hattach, hfollows'⟩ := hfollows.attach arrival
    refine ⟨c', ?_, hfollows'⟩
    rw [List.map_append, List.map_singleton, attachAll_append, hrun, Option.bind_some]
    change (c.attachDatabuffer decrypt arrival.dataBuff).bind _ = _
    rw [hattach]
    rfl

/-- Every message whose packets all came is on the queue once, no message is there twice, and what
is there is whole. -/
def DeliveredOnce (decrypt : List UInt8 → List UInt8) (r : Request ι)
    (arrivals : List (Arrival r)) : Prop :=
  ∃ c, new.attachAll decrypt (arrivals.map Arrival.dataBuff) = some c ∧
    (∀ a, Complete (r.message a) (Arrival.received a arrivals) → c.pushed r a = 1) ∧
    (∀ a, ¬Complete (r.message a) (Arrival.received a arrivals) → c.pushed r a = 0) ∧
    ∀ s ∈ c.queue, ∃ a, s.Whole decrypt (r.message a)

/-- The packets of a message do not all come again once they all came. -/
def NotRepeated (r : Request ι) (arrivals : List (Arrival r)) : Prop :=
  ∀ a before after, arrivals = before ++ after →
    Complete (r.message a) (Arrival.received a before) →
    ¬Complete (r.message a) (Arrival.received a after)

theorem notRepeated_iff (arrivals : List (Arrival r)) :
    NotRepeated r arrivals ↔
      ∀ a, (tallied (r.message a) (Arrival.received a arrivals)).1 ≤ 1 := by
  constructor
  · intro h a
    by_contra hcon
    obtain ⟨xs, ys, hsplit, hxs, hys⟩ := two_le_tallied_iff.mp (Nat.lt_of_not_le hcon)
    obtain ⟨before, after, harrivals, rfl, rfl⟩ := List.filterMap_eq_append_iff.mp hsplit
    exact h a before after harrivals hxs hys
  · intro h a before after harrivals hbefore hafter
    have htwo := two_le_tallied_iff.mpr ⟨_, _, rfl, hbefore, hafter⟩
    rw [← Arrival.received_append, ← harrivals] at htwo
    have hone := h a
    omega

/-- The collator delivers every message once exactly when no message comes again as a whole. -/
theorem deliveredOnce_iff (decrypt : List UInt8 → List UInt8) (r : Request ι)
    (arrivals : List (Arrival r)) : DeliveredOnce decrypt r arrivals ↔ NotRepeated r arrivals := by
  obtain ⟨c, hrun, hfollows⟩ := @follows_attachAll ι r decrypt _ arrivals
  rw [notRepeated_iff]
  constructor
  · rintro ⟨c', hrun', honce, hnone, -⟩ a
    obtain rfl : c = c' := Option.some.inj (hrun.symm.trans hrun')
    rw [← hfollows.pushed a]
    by_cases hcomplete : Complete (r.message a) (Arrival.received a arrivals)
    · exact (honce a hcomplete).le
    · rw [hnone a hcomplete]
      exact Nat.zero_le 1
  · intro h
    refine ⟨c, hrun, ?_, ?_, hfollows.whole⟩
    · intro a hcomplete
      have hpos := tallied_pos_iff.mpr hcomplete
      have hle := h a
      rw [hfollows.pushed a]
      omega
    · intro a hcomplete
      have hzero := mt tallied_pos_iff.mp hcomplete
      rw [hfollows.pushed a]
      omega

/-- A request with one message, of one packet. -/
def oneMessage : Request Unit where
  message := fun _ => ⟨1, 0, 0, by decide, fun _ => 0, fun _ => [0, 0]⟩
  distinct := fun _ _ _ => rfl
  sender := fun _ => by decide

/-- Its packet, twice. -/
def packetTwice : List (Arrival oneMessage) := [.packet () 0 false, .packet () 0 false]

/-- The packet of a message of one packet comes twice, and the message is on the queue twice. -/
theorem packetTwice_delivered_twice : ¬DeliveredOnce id oneMessage packetTwice := by
  rintro ⟨c, hrun, honce, -, -⟩
  have hcomplete : Complete (oneMessage.message ()) (Arrival.received () packetTwice) := by decide
  have hone := honce () hcomplete
  have htwo : (new.attachAll id (packetTwice.map Arrival.dataBuff)).map
      (fun c => c.pushed oneMessage ()) = some 2 := by decide
  rw [hrun, Option.map_some, hone] at htwo
  exact absurd htwo (by decide)

end CMessageCollator

end Udp
