import HpccPlatform.Udp.BufferList
import HpccPlatform.Library.UpdateSum

/-!
# Runs of the buffer queue

Buffers are popped in the order in which they were pushed, each leaves once, and nobody waits in
vain.  A permit of `data_avail` is given up before the buffer is taken, so that the threads that
have one and have not come to the critical section are counted with the permits.
-/

namespace Udp

/-- A signal for a buffer that is due, or a permit that was taken for one. -/
def BufferCall.data : BufferCall → ℕ
  | .signalData => 1
  | .enterPop => 1
  | _ => 0

/-- Signals for a free place that are due. -/
def BufferCall.wakes : BufferCall → ℕ
  | .popped _ signalFreeSlots => signalFreeSlots
  | .signalFree signalFreeSlots => signalFreeSlots
  | _ => 0

/-- Signals for a free place that are due or that the thread has received and not acted on. -/
def BufferCall.free : BufferCall → ℕ
  | .popped _ signalFreeSlots => signalFreeSlots
  | .signalFree signalFreeSlots => signalFreeSlots
  | .woken _ => 1
  | _ => 0

/-- The thread waits for a free place. -/
def BufferCall.waiting : BufferCall → ℕ
  | .waitFree _ => 1
  | _ => 0

/-- The buffer that the thread is about to push. -/
def BufferCall.pushed : BufferCall → Option ℕ
  | .enterPush buf _ => some buf
  | .waitFree buf => some buf
  | .woken buf => some buf
  | _ => none

theorem BufferCall.wakes_le_free (c : BufferCall) : c.wakes ≤ c.free := by
  cases c with
  | popped buf signalFreeSlots => exact le_refl signalFreeSlots
  | signalFree signalFreeSlots => exact le_refl signalFreeSlots
  | _ => exact Nat.zero_le _

theorem BufferCall.buffer_of_pushed {c : BufferCall} {buf : ℕ} (h : c.pushed = some buf) :
    c.buffer = some buf := by
  cases c with
  | enterPush b wait => exact h
  | waitFree b => exact h
  | woken b => exact h
  | _ => cases h

namespace History

theorem popped_append_popped (h : History) (buf : ℕ) :
    popped { h with left := h.left ++ [(true, buf)] } = h.popped ++ [buf] := by
  unfold popped
  rw [List.filter_append, List.map_append]
  rfl

theorem popped_append_removed (h : History) (bufs : List ℕ) :
    popped { h with left := h.left ++ bufs.map fun buf => (false, buf) } = h.popped := by
  have hnone : (bufs.map fun buf => (false, buf)).filter (fun e => e.1) = [] := by
    rw [List.filter_eq_nil_iff]
    intro e he
    obtain ⟨buf, -, rfl⟩ := List.mem_map.mp he
    exact Bool.false_ne_true
  unfold popped
  rw [List.filter_append, hnone, List.append_nil]

/-- Of the buffers that have entered those of `q` are left: the others have left once each, and
those that were popped had entered in this order before. -/
structure Explains (h : History) (q : List ℕ) : Prop where
  order : (h.popped ++ q).Sublist h.entered
  all : h.entered.Perm (h.left.map Prod.snd ++ q)

variable {h : History} {q : List ℕ}

theorem Explains.enter (he : h.Explains q) (buf : ℕ) :
    (h.record (.entered buf)).Explains (q ++ [buf]) where
  order := by
    change (h.popped ++ (q ++ [buf])).Sublist (h.entered ++ [buf])
    rw [← List.append_assoc]
    exact he.order.append (List.Sublist.refl [buf])
  all := by
    change (h.entered ++ [buf]).Perm (h.left.map Prod.snd ++ (q ++ [buf]))
    rw [← List.append_assoc]
    exact he.all.append_right [buf]

theorem Explains.pop {buf : ℕ} (he : h.Explains (buf :: q)) :
    (h.record (.popped buf)).Explains q where
  order := by
    change (popped { h with left := h.left ++ [(true, buf)] } ++ q).Sublist h.entered
    rw [popped_append_popped, List.append_assoc]
    exact he.order
  all := by
    change h.entered.Perm ((h.left ++ [(true, buf)]).map Prod.snd ++ q)
    rw [List.map_append, List.append_assoc]
    exact he.all

theorem Explains.remove (he : h.Explains q) (f : ℕ → Bool) :
    (h.record (.removed (q.filter f))).Explains (q.filter fun buf => !f buf) where
  order := by
    change (popped { h with left := h.left ++ (q.filter f).map fun buf => (false, buf) } ++ _).Sublist
      h.entered
    rw [popped_append_removed]
    exact (List.Sublist.append_left List.filter_sublist _).trans he.order
  all := by
    change h.entered.Perm ((h.left ++ (q.filter f).map fun buf => (false, buf)).map Prod.snd ++ _)
    have hremoved : ((q.filter f).map fun buf => (false, buf)).map Prod.snd = q.filter f := by
      rw [List.map_map]
      exact List.map_id _
    rw [List.map_append, hremoved, List.append_assoc]
    exact he.all.trans ((List.filter_append_perm f q).symm.append_left _)

end History

namespace BufferQueue

variable {ι : Type*} [Fintype ι] {limit : ℕ} {s s' t : BufferQueue ι} {h h' : History}
  {q q' : List ℕ} {i : ι}

/-- What holds between any two steps. -/
structure Inv (limit : ℕ) (s : BufferQueue ι) (h : History) (q : List ℕ) : Prop where
  lists : Lists s q
  limit_eq : s.limit = limit
  hands : ∀ i buf, (s.calls i).buffer = some buf → buf ∉ q
  distinct : ∀ i j buf, (s.calls i).buffer = some buf → (s.calls j).buffer = some buf → i = j
  clear : ∀ i buf, (s.calls i).pushed = some buf → s.msgNext buf = none
  data : s.count ≤ s.dataAvail + ∑ i, (s.calls i).data
  free : 0 < s.signalFreeSl → s.limit ≤ s.count + (s.freeSl + ∑ i, (s.calls i).free)
  waiting : ∑ i, (s.calls i).waiting = s.signalFreeSl + s.freeSl + ∑ i, (s.calls i).wakes
  history : h.Explains q

theorem inv_new (limit : ℕ) : Inv limit (new limit : BufferQueue ι) .empty [] where
  lists := lists_new limit
  limit_eq := rfl
  hands _ _ hbuf := by cases hbuf
  distinct _ _ _ hbuf := by cases hbuf
  clear _ _ hbuf := by cases hbuf
  data := Nat.zero_le _
  free hpos := absurd hpos (Nat.lt_irrefl 0)
  waiting := by
    have hwaiting : ∑ i, ((new limit : BufferQueue ι).calls i).waiting = 0 :=
      Finset.sum_eq_zero fun _ _ => rfl
    have hwakes : ∑ i, ((new limit : BufferQueue ι).calls i).wakes = 0 :=
      Finset.sum_eq_zero fun _ _ => rfl
    rw [hwaiting, hwakes]
    rfl
  history := ⟨List.Sublist.refl [], List.Perm.refl []⟩

/-- A thread that waits for a place is woken when there is one. -/
theorem Inv.woken (hinv : Inv limit s h q) {buf : ℕ} (hcall : s.calls i = .waitFree buf)
    (hroom : s.count < limit) : 0 < s.freeSl + ∑ j, (s.calls j).free := by
  rcases Nat.eq_zero_or_pos s.signalFreeSl with hzero | hpos
  · have hone : (s.calls i).waiting ≤ ∑ j, (s.calls j).waiting :=
      Finset.single_le_sum (f := fun j => (s.calls j).waiting) (fun _ _ => Nat.zero_le _)
        (Finset.mem_univ i)
    have hle : ∑ j, (s.calls j).wakes ≤ ∑ j, (s.calls j).free :=
      Finset.sum_le_sum fun j _ => (s.calls j).wakes_le_free
    rw [hinv.waiting, hzero, Nat.zero_add, hcall] at hone
    exact (Nat.lt_of_lt_of_le Nat.one_pos hone).trans_le (Nat.add_le_add_left hle _)
  · have hall := hinv.free hpos
    rw [hinv.limit_eq] at hall
    exact Nat.pos_of_ne_zero fun hzero => absurd hall (by rw [hzero]; exact not_le.mpr hroom)

variable [DecidableEq ι]

/-- One thread goes on: what it has in hand is neither in the queue nor with another thread, and
what it gives up of the counts is found elsewhere. -/
theorem Inv.move (hinv : Inv limit s h q) {c : BufferCall} (hlists : Lists t q')
    (hlimit : t.limit = s.limit) (hcalls : t.calls = s.calls)
    (hbuffer : ∀ buf, c.buffer = some buf → buf ∉ q' ∧ ∀ j, j ≠ i → (s.calls j).buffer ≠ some buf)
    (hclear : ∀ buf, c.pushed = some buf → t.msgNext buf = none)
    (hothers : ∀ j, j ≠ i → ∀ buf, (s.calls j).buffer = some buf →
      buf ∉ q' ∧ (s.msgNext buf = none → t.msgNext buf = none))
    (hdata : t.count = 0 ∨
      t.count + (s.dataAvail + (s.calls i).data) ≤ s.count + (t.dataAvail + c.data))
    (hfree : ∀ n, (0 < s.signalFreeSl → s.limit ≤ s.count + (s.freeSl + (s.calls i).free + n)) →
      0 < t.signalFreeSl → s.limit ≤ t.count + (t.freeSl + c.free + n))
    (hwaiting : t.signalFreeSl + t.freeSl + c.wakes + (s.calls i).waiting =
      s.signalFreeSl + s.freeSl + (s.calls i).wakes + c.waiting)
    (hhistory : h'.Explains q') : Inv limit (t.setCall i c) h' q' := by
  have hself : (t.setCall i c).calls i = c := Function.update_self ..
  have hother : ∀ j, j ≠ i → (t.setCall i c).calls j = s.calls j := by
    intro j hj
    change Function.update t.calls i c j = _
    rw [Function.update_of_ne hj, hcalls]
  have hsum : ∀ w : BufferCall → ℕ, ∃ rest, ∑ j, w (s.calls j) = w (s.calls i) + rest ∧
      ∑ j, w ((t.setCall i c).calls j) = w c + rest := by
    intro w
    obtain ⟨rest, hold, hnew⟩ := UpdateSum.exists_rest (Finset.mem_univ i) s.calls w
    refine ⟨rest, hold, ?_⟩
    change ∑ j, w (Function.update t.calls i c j) = _
    rw [hcalls]
    exact hnew c
  refine ⟨⟨hlists.chain, hlists.tail, hlists.count, hlists.nodup⟩, hlimit.trans hinv.limit_eq, ?_, ?_,
    ?_, ?_, ?_, ?_, hhistory⟩
  · intro j buf hbuf
    by_cases hj : j = i
    · rw [hj, hself] at hbuf
      exact (hbuffer buf hbuf).1
    · rw [hother j hj] at hbuf
      exact (hothers j hj buf hbuf).1
  · intro j k buf hbufj hbufk
    by_cases hj : j = i
    · by_cases hk : k = i
      · rw [hj, hk]
      · rw [hj, hself] at hbufj
        rw [hother k hk] at hbufk
        exact absurd hbufk ((hbuffer buf hbufj).2 k hk)
    · by_cases hk : k = i
      · rw [hk, hself] at hbufk
        rw [hother j hj] at hbufj
        exact absurd hbufj ((hbuffer buf hbufk).2 j hj)
      · rw [hother j hj] at hbufj
        rw [hother k hk] at hbufk
        exact hinv.distinct j k buf hbufj hbufk
  · intro j buf hbuf
    by_cases hj : j = i
    · rw [hj, hself] at hbuf
      exact hclear buf hbuf
    · rw [hother j hj] at hbuf
      exact (hothers j hj buf (BufferCall.buffer_of_pushed hbuf)).2 (hinv.clear j buf hbuf)
  · obtain ⟨rest, hold, hnew⟩ := hsum BufferCall.data
    have hall := hinv.data
    rw [hold] at hall
    rw [hnew]
    change t.count ≤ t.dataAvail + (c.data + rest)
    omega
  · obtain ⟨rest, hold, hnew⟩ := hsum BufferCall.free
    intro hpos
    have hall := hinv.free
    rw [hold, ← Nat.add_assoc s.freeSl] at hall
    rw [hnew]
    change t.limit ≤ t.count + (t.freeSl + (c.free + rest))
    rw [hlimit, ← Nat.add_assoc t.freeSl]
    exact hfree rest hall hpos
  · obtain ⟨rest, hold, hnew⟩ := hsum BufferCall.waiting
    obtain ⟨rest', hold', hnew'⟩ := hsum BufferCall.wakes
    have hall := hinv.waiting
    rw [hold, hold'] at hall
    rw [hnew, hnew']
    change c.waiting + rest = t.signalFreeSl + t.freeSl + (c.wakes + rest')
    omega

/-- The list stays, and a thread keeps its buffer or has none. -/
theorem Inv.keep (hinv : Inv limit s h q) {c : BufferCall} (dataAvail freeSl signalFreeSl : ℕ)
    (hbuffer : c.buffer = none ∨ c.buffer = (s.calls i).buffer)
    (hpushed : c.pushed = none ∨ c.pushed = (s.calls i).pushed)
    (hdata : s.count = 0 ∨ s.dataAvail + (s.calls i).data ≤ dataAvail + c.data)
    (hfree : ∀ n, (0 < s.signalFreeSl → s.limit ≤ s.count + (s.freeSl + (s.calls i).free + n)) →
      0 < signalFreeSl → s.limit ≤ s.count + (freeSl + c.free + n))
    (hwaiting : signalFreeSl + freeSl + c.wakes + (s.calls i).waiting =
      s.signalFreeSl + s.freeSl + (s.calls i).wakes + c.waiting) :
    Inv limit ({ s with
      dataAvail := dataAvail, freeSl := freeSl, signalFreeSl := signalFreeSl }.setCall i c) h q := by
  refine hinv.move ⟨hinv.lists.chain, hinv.lists.tail, hinv.lists.count, hinv.lists.nodup⟩ rfl rfl
    ?_ ?_ ?_ ?_ hfree hwaiting hinv.history
  · intro buf hbuf
    rcases hbuffer with hnone | hsame
    · rw [hnone] at hbuf
      cases hbuf
    · rw [hsame] at hbuf
      exact ⟨hinv.hands i buf hbuf, fun j hj hbufj => hj (hinv.distinct j i buf hbufj hbuf)⟩
  · intro buf hbuf
    rcases hpushed with hnone | hsame
    · rw [hnone] at hbuf
      cases hbuf
    · rw [hsame] at hbuf
      exact hinv.clear i buf hbuf
  · intro j _ buf hbuf
    exact ⟨hinv.hands j buf hbuf, id⟩
  · exact hdata.imp_right fun hle => Nat.add_le_add_left hle s.count

/-! ### The steps -/

/-- A thread that is idle makes a call. -/
theorem Inv.call (hinv : Inv limit s h q) {c : BufferCall} {moved : Moved}
    (hbuffer : ∀ buf, c.buffer = some buf → s.Owned buf)
    (hpushed : ∀ buf, c.pushed = some buf → s.msgNext buf = none) (hdata : c.data = 0)
    (hfree : c.free = 0) (hwaiting : c.waiting = 0) (hstep : s.call i c = some (s', moved)) :
    Inv limit s' (h.record moved) q := by
  have hwakes : c.wakes = 0 := Nat.le_zero.mp (hfree ▸ c.wakes_le_free)
  unfold BufferQueue.call at hstep
  cases hcall : s.calls i <;> rw [hcall] at hstep <;> cases hstep
  refine hinv.move hinv.lists rfl rfl ?_ hpushed ?_ ?_ ?_ ?_ hinv.history
  · intro buf hbuf
    obtain ⟨hnot, hhands⟩ := hbuffer buf hbuf
    rw [hinv.lists.buffers_eq] at hnot
    exact ⟨hnot, fun j _ => hhands j⟩
  · intro j _ buf hbuf
    exact ⟨hinv.hands j buf hbuf, id⟩
  · rw [hcall, hdata]
    exact Or.inr (le_refl _)
  · rw [hcall, hfree]
    exact fun n hn hpos => hn hpos
  · rw [hcall, hwakes, hwaiting]
    rfl

/-- The critical section of a push: the buffer is put behind the others. -/
theorem Inv.enqueue (hinv : Inv limit s h q) {buf : ℕ}
    (hcall : (∃ wait, s.calls i = .enterPush buf wait) ∨ s.calls i = .woken buf) :
    ∃ s', s.enqueue i buf = some (s', .entered buf) ∧
      Inv limit s' (h.record (.entered buf)) (q ++ [buf]) := by
  have hweights : (s.calls i).pushed = some buf ∧ (s.calls i).data = 0 ∧ (s.calls i).free ≤ 1 ∧
      (s.calls i).wakes = 0 ∧ (s.calls i).waiting = 0 := by
    rcases hcall with ⟨wait, hcall⟩ | hcall <;> rw [hcall]
    · exact ⟨rfl, rfl, Nat.zero_le 1, rfl, rfl⟩
    · exact ⟨rfl, rfl, le_refl 1, rfl, rfl⟩
  obtain ⟨hpushed, hdata, hfree, hwakes, hwaiting⟩ := hweights
  have hbuffer := BufferCall.buffer_of_pushed hpushed
  have hnot := hinv.hands i buf hbuffer
  obtain ⟨t, hresult, hlists, hsame, hsignal, hcount, hlinks⟩ :=
    hinv.lists.doEnqueue hnot (hinv.clear i buf hpushed)
  unfold BufferQueue.enqueue
  rw [hresult]
  refine ⟨_, rfl, hinv.move hlists hsame.limit hsame.calls ?_ ?_ ?_ ?_ ?_ ?_ (hinv.history.enter buf)⟩
  · intro b hb
    cases hb
  · intro b hb
    cases hb
  · intro j hj b hb
    have hbq := hinv.hands j b hb
    refine ⟨?_, fun hnone => (hlinks b hbq).trans hnone⟩
    rw [List.mem_append, List.mem_singleton, not_or]
    refine ⟨hbq, ?_⟩
    rintro rfl
    exact hj (hinv.distinct j i b hb hbuffer)
  · right
    rw [hcount, hdata, hsame.dataAvail]
    change _ ≤ s.count + (s.dataAvail + 1)
    omega
  · intro n hn hpos
    rw [hsignal] at hpos
    have hall := hn hpos
    rw [hcount, hsame.freeSl]
    change _ ≤ s.count + 1 + (s.freeSl + 0 + n)
    omega
  · rw [hsignal, hsame.freeSl, hwakes, hwaiting]
    rfl

/-- A thread that finds the queue full registers and waits. -/
theorem Inv.enqueueWait (hinv : Inv limit s h q) {buf : ℕ}
    (hcall : (∃ wait, s.calls i = .enterPush buf wait) ∨ s.calls i = .woken buf) :
    ∃ s' moved q', s.enqueueWait i buf = some (s', moved) ∧ Inv limit s' (h.record moved) q' := by
  unfold BufferQueue.enqueueWait
  by_cases hroom : s.count < s.limit
  · rw [if_pos hroom]
    obtain ⟨s', hresult, hinv'⟩ := hinv.enqueue hcall
    exact ⟨s', _, _, hresult, hinv'⟩
  · rw [if_neg hroom]
    refine ⟨_, _, q, rfl, hinv.keep s.dataAvail s.freeSl (s.signalFreeSl + 1) ?_ ?_ ?_ ?_ ?_⟩
    · right
      rcases hcall with ⟨wait, hcall⟩ | hcall <;> rw [hcall] <;> rfl
    · right
      rcases hcall with ⟨wait, hcall⟩ | hcall <;> rw [hcall] <;> rfl
    · right
      rcases hcall with ⟨wait, hcall⟩ | hcall <;> rw [hcall] <;> exact le_refl _
    · intro n _ _
      exact (not_lt.mp hroom).trans (Nat.le_add_right _ _)
    · rcases hcall with ⟨wait, hcall⟩ | hcall <;> rw [hcall] <;>
        exact Nat.add_right_comm s.signalFreeSl 1 s.freeSl

/-- The critical section of a pop: the first buffer is taken, if there is one. -/
theorem Inv.pop (hinv : Inv limit s h q) (hcall : s.calls i = .enterPop) :
    ∃ s' moved q', s.advance i = some (s', moved) ∧ Inv limit s' (h.record moved) q' := by
  unfold BufferQueue.advance
  rw [hcall]
  dsimp only
  by_cases hzero : s.count = 0
  · rw [if_pos hzero]
    refine ⟨_, _, q, rfl, hinv.keep s.dataAvail s.freeSl s.signalFreeSl (Or.inl rfl) (Or.inl rfl)
      (Or.inl hzero) ?_ ?_⟩
    · rw [hcall]
      exact fun n hn hpos => hn hpos
    · rw [hcall]
      rfl
  · rw [if_neg hzero]
    cases q with
    | nil => exact absurd hinv.lists.count hzero
    | cons x q =>
      obtain ⟨t, k, hresult, hlists, hsame, hwakes, hcount, hlinks⟩ := hinv.lists.takeHead
      rw [hresult]
      have hx : x ∉ q := (List.nodup_cons.mp hinv.lists.nodup).1
      refine ⟨_, _, q, rfl, hinv.move hlists hsame.limit hsame.calls ?_ ?_ ?_ ?_ ?_ ?_
        hinv.history.pop⟩
      · intro b hb
        cases hb
        exact ⟨hx, fun j _ hbj => hinv.hands j x hbj List.mem_cons_self⟩
      · intro b hb
        cases hb
      · intro j _ b hb
        rw [hlinks]
        exact ⟨fun hmem => hinv.hands j b hb (List.mem_cons_of_mem x hmem), id⟩
      · right
        rw [hcall, hcount, hsame.dataAvail]
        change t.count + (s.dataAvail + 1) ≤ t.count + 1 + (s.dataAvail + 0)
        omega
      · intro n hn hpos
        rw [hcall] at hn
        have hall := hwakes.enough (s.freeSl + n) hn hpos
        rw [hsame.freeSl]
        change _ ≤ t.count + (s.freeSl + k + n)
        omega
      · rw [hcall, ← hwakes.signalFreeSl, hsame.freeSl]
        exact Nat.add_right_comm t.signalFreeSl s.freeSl k

/-- The critical section of `removeData`. -/
theorem Inv.remove (hinv : Inv limit s h q) {f : ℕ → Bool} (hcall : s.calls i = .enterRemove f) :
    ∃ s' moved q', s.advance i = some (s', moved) ∧ Inv limit s' (h.record moved) q' := by
  unfold BufferQueue.advance
  rw [hcall]
  dsimp only
  by_cases hzero : s.count = 0
  · rw [if_pos hzero]
    refine ⟨_, _, q, rfl, hinv.keep s.dataAvail s.freeSl s.signalFreeSl (Or.inl rfl) (Or.inl rfl)
      (Or.inl hzero) ?_ ?_⟩
    · rw [hcall]
      exact fun n hn hpos => hn hpos
    · rw [hcall]
      rfl
  · rw [if_neg hzero]
    obtain ⟨t, k, hresult, hlists, hsame, hwakes, hlinks⟩ :=
      @Lists.removeLoop ι s [] q hinv.lists f s.count hinv.lists.count.ge 0 []
    rw [List.getLast?_nil, ← hinv.lists.chain.head, List.nil_append, Nat.zero_add] at hresult
    rw [hresult]
    refine ⟨_, _, q.filter fun y => !f y, rfl, hinv.move hlists hsame.limit hsame.calls ?_ ?_ ?_ ?_ ?_ ?_
      (hinv.history.remove f)⟩
    · intro b hb
      cases hb
    · intro b hb
      cases hb
    · intro j _ b hb
      have hbq := hinv.hands j b hb
      exact ⟨fun hmem => hbq (List.mem_of_mem_filter hmem), fun hnone => (hlinks b hbq).trans hnone⟩
    · right
      have hle : t.count ≤ s.count := by
        rw [hlists.count, hinv.lists.count]
        exact List.length_filter_le _ _
      rw [hcall, hsame.dataAvail]
      exact Nat.add_le_add_right hle _
    · intro n hn hpos
      rw [hcall] at hn
      have hall := hwakes.enough (s.freeSl + n) hn hpos
      rw [hsame.freeSl]
      change _ ≤ t.count + (s.freeSl + k + n)
      omega
    · rw [hcall, ← hwakes.signalFreeSl, hsame.freeSl]
      exact Nat.add_right_comm t.signalFreeSl s.freeSl k

/-- The buffer that was popped is no longer linked. -/
theorem Inv.release (hinv : Inv limit s h q) {buf k : ℕ} (hcall : s.calls i = .popped buf k) :
    Inv limit ({ s with
      msgNext := Function.update s.msgNext buf none, freeSl := s.freeSl + k }.setCall i .idle) h q := by
  have hbuf : buf ∉ q := hinv.hands i buf (by rw [hcall]; rfl)
  refine hinv.move ⟨hinv.lists.chain.update hbuf none, hinv.lists.tail, hinv.lists.count,
    hinv.lists.nodup⟩ rfl rfl ?_ ?_ ?_ ?_ ?_ ?_ hinv.history
  · intro b hb
    cases hb
  · intro b hb
    cases hb
  · intro j _ b hb
    refine ⟨hinv.hands j b hb, fun hnone => ?_⟩
    dsimp only
    by_cases heq : b = buf
    · rw [heq, Function.update_self]
    · rw [Function.update_of_ne heq]
      exact hnone
  · rw [hcall]
    exact Or.inr (le_refl _)
  · rw [hcall]
    exact fun n hn hpos => hn hpos
  · rw [hcall]
    exact (Nat.add_assoc s.signalFreeSl s.freeSl k).symm

theorem Inv.advance (hinv : Inv limit s h q) {moved : Moved}
    (hstep : s.advance i = some (s', moved)) : ∃ q', Inv limit s' (h.record moved) q' := by
  cases hcall : s.calls i with
  | idle =>
    unfold BufferQueue.advance at hstep
    rw [hcall] at hstep
    cases hstep
  | enterPush buf wait =>
    unfold BufferQueue.advance at hstep
    rw [hcall] at hstep
    cases wait with
    | true =>
      obtain ⟨t, m, q', hresult, hinv'⟩ := hinv.enqueueWait (Or.inl ⟨true, hcall⟩)
      cases hresult.symm.trans hstep
      exact ⟨q', hinv'⟩
    | false =>
      obtain ⟨t, hresult, hinv'⟩ := hinv.enqueue (Or.inl ⟨false, hcall⟩)
      cases hresult.symm.trans hstep
      exact ⟨_, hinv'⟩
  | waitFree buf =>
    unfold BufferQueue.advance at hstep
    rw [hcall] at hstep
    dsimp only at hstep
    split_ifs at hstep with hfree
    cases hstep
    refine ⟨q, hinv.keep s.dataAvail (s.freeSl - 1) s.signalFreeSl (Or.inr ?_) (Or.inr ?_)
      (Or.inr ?_) ?_ ?_⟩
    · rw [hcall]
      rfl
    · rw [hcall]
      rfl
    · rw [hcall]
      exact le_refl _
    · rw [hcall]
      intro n hn hpos
      change s.limit ≤ s.count + (s.freeSl - 1 + 1 + n)
      rw [Nat.sub_add_cancel hfree]
      exact hn hpos
    · rw [hcall]
      change s.signalFreeSl + (s.freeSl - 1) + 0 + 1 = s.signalFreeSl + s.freeSl + 0 + 0
      omega
  | woken buf =>
    unfold BufferQueue.advance at hstep
    rw [hcall] at hstep
    obtain ⟨t, m, q', hresult, hinv'⟩ := hinv.enqueueWait (Or.inr hcall)
    cases hresult.symm.trans hstep
    exact ⟨q', hinv'⟩
  | signalData =>
    unfold BufferQueue.advance at hstep
    rw [hcall] at hstep
    cases hstep
    refine ⟨q, hinv.keep (s.dataAvail + 1) s.freeSl s.signalFreeSl (Or.inl rfl) (Or.inl rfl)
      (Or.inr ?_) ?_ ?_⟩
    · rw [hcall]
      exact le_refl _
    · rw [hcall]
      exact fun n hn hpos => hn hpos
    · rw [hcall]
      rfl
  | waitData block =>
    unfold BufferQueue.advance at hstep
    rw [hcall] at hstep
    dsimp only at hstep
    split_ifs at hstep with havail
    · cases hstep
      refine ⟨q, hinv.keep (s.dataAvail - 1) s.freeSl s.signalFreeSl (Or.inl rfl) (Or.inl rfl)
        (Or.inr ?_) ?_ ?_⟩
      · rw [hcall]
        exact (Nat.sub_add_cancel havail).ge
      · rw [hcall]
        exact fun n hn hpos => hn hpos
      · rw [hcall]
        rfl
    · cases hstep
      refine ⟨q, hinv.keep s.dataAvail s.freeSl s.signalFreeSl (Or.inl rfl) (Or.inl rfl)
        (Or.inr ?_) ?_ ?_⟩
      · rw [hcall]
        exact le_refl _
      · rw [hcall]
        exact fun n hn hpos => hn hpos
      · rw [hcall]
        rfl
  | enterPop =>
    obtain ⟨t, m, q', hresult, hinv'⟩ := hinv.pop hcall
    cases hresult.symm.trans hstep
    exact ⟨q', hinv'⟩
  | popped buf signalFreeSlots =>
    have hinv' := hinv.release hcall
    unfold BufferQueue.advance at hstep
    rw [hcall] at hstep
    cases hstep
    exact ⟨q, hinv'⟩
  | enterRemove f =>
    obtain ⟨t, m, q', hresult, hinv'⟩ := hinv.remove hcall
    cases hresult.symm.trans hstep
    exact ⟨q', hinv'⟩
  | signalFree signalFreeSlots =>
    unfold BufferQueue.advance at hstep
    rw [hcall] at hstep
    cases hstep
    refine ⟨q, hinv.keep s.dataAvail (s.freeSl + signalFreeSlots) s.signalFreeSl (Or.inl rfl)
      (Or.inl rfl) (Or.inr ?_) ?_ ?_⟩
    · rw [hcall]
      exact le_refl _
    · rw [hcall]
      exact fun n hn hpos => hn hpos
    · rw [hcall]
      exact (Nat.add_assoc s.signalFreeSl s.freeSl signalFreeSlots).symm

theorem Inv.push (hinv : Inv limit s h q) {buf : ℕ} (howned : s.Owned buf) (wait : Bool)
    {moved : Moved}
    (hstep : (if s.msgNext buf = none then s.call i (.enterPush buf wait) else none) =
      some (s', moved)) : Inv limit s' (h.record moved) q := by
  split_ifs at hstep with hnone
  refine hinv.call ?_ ?_ rfl rfl rfl hstep
  · intro b hb
    cases hb
    exact howned
  · intro b hb
    cases hb
    exact hnone

/-- Every step keeps the invariant. -/
theorem Inv.step (hinv : Inv limit s h q) {a : BufferAction ι} {moved : Moved}
    (henabled : s.Enabled a) (hstep : s.step a = some (s', moved)) :
    ∃ q', Inv limit s' (h.record moved) q' := by
  cases a with
  | pushOwn i buf => exact ⟨q, hinv.push henabled false hstep⟩
  | pushOwnWait i buf => exact ⟨q, hinv.push henabled true hstep⟩
  | pop i block =>
    exact ⟨q, hinv.call (fun b hb => by cases hb) (fun b hb => by cases hb) rfl rfl rfl hstep⟩
  | removeData i f =>
    exact ⟨q, hinv.call (fun b hb => by cases hb) (fun b hb => by cases hb) rfl rfl rfl hstep⟩
  | advance i => exact hinv.advance hstep

theorem Run.inv (hrun : Run limit s h) : ∃ q, Inv limit s h q := by
  induction hrun with
  | new => exact ⟨[], inv_new limit⟩
  | step _ henabled hstep ih =>
    obtain ⟨q, hinv⟩ := ih
    exact hinv.step henabled hstep

/-- The thread is about to enter the critical section. -/
def Enters : BufferCall → Prop
  | .enterPush _ _ => True
  | .woken _ => True
  | .enterPop => True
  | .enterRemove _ => True
  | _ => False

/-- The assertions in the critical sections do not fail. -/
theorem Inv.enters (hinv : Inv limit s h q) (hcall : Enters (s.calls i)) :
    (s.advance i).isSome = true := by
  rw [Option.isSome_iff_exists]
  cases heq : s.calls i with
  | enterPush buf wait =>
    unfold BufferQueue.advance
    rw [heq]
    cases wait with
    | true =>
      obtain ⟨t, m, -, hresult, -⟩ := hinv.enqueueWait (Or.inl ⟨true, heq⟩)
      exact ⟨(t, m), hresult⟩
    | false =>
      obtain ⟨t, hresult, -⟩ := hinv.enqueue (Or.inl ⟨false, heq⟩)
      exact ⟨_, hresult⟩
  | woken buf =>
    unfold BufferQueue.advance
    rw [heq]
    obtain ⟨t, m, -, hresult, -⟩ := hinv.enqueueWait (Or.inr heq)
    exact ⟨(t, m), hresult⟩
  | enterPop =>
    obtain ⟨t, m, -, hresult, -⟩ := hinv.pop heq
    exact ⟨(t, m), hresult⟩
  | enterRemove f =>
    obtain ⟨t, m, -, hresult, -⟩ := hinv.remove heq
    exact ⟨(t, m), hresult⟩
  | _ =>
    rw [heq] at hcall
    exact hcall.elim

/-- The list is well formed, its buffers and those that have left are those that have entered, each
once, and popped in their order; and whoever waits has what to wait for. -/
structure Sound (limit : ℕ) (s : BufferQueue ι) (h : History) : Prop where
  chain : Linked.Chain s.msgNext s.head s.buffers
  count : s.count = s.buffers.length
  tail : s.tail = s.buffers.getLast?
  ends : s.tail = none ↔ s.head = none
  history : h.Explains s.buffers
  available : s.count ≤ s.dataAvail + ∑ i, (s.calls i).data
  registered : 0 < s.signalFreeSl → limit ≤ s.count + (s.freeSl + ∑ i, (s.calls i).free)
  woken : ∀ i buf, s.calls i = .waitFree buf → s.count < limit →
    0 < s.freeSl + ∑ i, (s.calls i).free
  enters : ∀ i, Enters (s.calls i) → (s.advance i).isSome = true

/-- **The queue keeps its order and loses no wake-up** in any run. -/
theorem run_sound (hrun : Run limit s h) : Sound limit s h := by
  obtain ⟨q, hinv⟩ := hrun.inv
  have hbuffers := hinv.lists.buffers_eq
  refine ⟨?_, ?_, ?_, ?_, ?_, hinv.data, ?_, fun i _ => hinv.woken, fun i => hinv.enters⟩
  · rw [hbuffers]
    exact hinv.lists.chain
  · rw [hbuffers]
    exact hinv.lists.count
  · rw [hbuffers]
    exact hinv.lists.tail
  · rw [hinv.lists.tail, hinv.lists.chain.head, List.getLast?_eq_none_iff, List.head?_eq_none_iff]
  · rw [hbuffers]
    exact hinv.history
  · intro hpos
    rw [← hinv.limit_eq]
    exact hinv.free hpos

/-- A thread waits for a place in a queue of one. -/
theorem run_sound_full :
    ∃ (s : BufferQueue Unit) (h : History), s.calls () = .waitFree 1 ∧ s.signalFreeSl = 1 ∧
      Sound 1 s h := by
  have hnew : Run 1 (new 1 : BufferQueue Unit) .empty := Run.new
  have hentered := hnew.step (a := .pushOwnWait () 0) ⟨by decide, by decide⟩ rfl
  have hpushed := (hentered.step (a := .advance ()) trivial rfl).step (a := .advance ()) trivial rfl
  have hsecond := hpushed.step (a := .pushOwnWait () 1) ⟨by decide, by decide⟩ rfl
  exact ⟨_, _, rfl, rfl, run_sound (hsecond.step (a := .advance ()) trivial rfl)⟩

/-! ### What does not hold -/

end BufferQueue

/-- Signals for a buffer that are due. -/
def BufferCall.due : BufferCall → ℕ
  | .signalData => 1
  | _ => 0

namespace BufferQueue

/-- There is a permit, or a signal is due, for every buffer. -/
def Signalled {ι : Type*} [Fintype ι] (s : BufferQueue ι) : Prop :=
  s.count ≤ s.dataAvail + ∑ i, (s.calls i).due

/-- The buffers leave in the order in which they entered. -/
def LeavesInOrder {ι : Type*} (s : BufferQueue ι) (h : History) : Prop :=
  h.left.map Prod.snd ++ s.buffers = h.entered

/-- A thread that pops gives up the permit before it takes the buffer, and `removeData` takes a
buffer from behind another one. -/
theorem not_signalled_not_inOrder :
    (¬ ∀ (limit : ℕ) (s : BufferQueue Unit) (h : History), Run limit s h → s.Signalled) ∧
      ¬ ∀ (limit : ℕ) (s : BufferQueue Unit) (h : History), Run limit s h → s.LeavesInOrder h := by
  have hnew : Run 2 (new 2 : BufferQueue Unit) .empty := Run.new
  have hentered := hnew.step (a := .pushOwn () 0) ⟨by decide, by decide⟩ rfl
  have hpushed := (hentered.step (a := .advance ()) trivial rfl).step (a := .advance ()) trivial rfl
  constructor
  · intro hall
    have hpop := hpushed.step (a := .pop () true) trivial rfl
    have htaken := hpop.step (a := .advance ()) trivial rfl
    exact absurd (hall _ _ _ htaken) (by unfold Signalled; decide)
  · intro hall
    have hsecond := hpushed.step (a := .pushOwn () 1) ⟨by decide, by decide⟩ rfl
    have hboth := (hsecond.step (a := .advance ()) trivial rfl).step (a := .advance ()) trivial rfl
    have hcall := hboth.step (a := .removeData () fun buf => buf == 1) trivial rfl
    have hremoved := hcall.step (a := .advance ()) trivial rfl
    exact absurd (hall _ _ _ hremoved) (by unfold LeavesInOrder; decide)

end BufferQueue

end Udp
