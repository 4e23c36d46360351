import HpccPlatform.Udp.BufferQueue

/-!
# The list of a buffer queue

What the critical sections of `queue_t` do to the linked list: a buffer is put behind the last one,
the first one is taken, or those that match a key are taken out.
-/

namespace Udp.BufferQueue

open Linked

variable {ι : Type*} {s s' t : BufferQueue ι} {q kept rest : List ℕ} {buf x k k' : ℕ}

/-- Outside of the critical sections the list has the buffers `q`. -/
structure Lists (s : BufferQueue ι) (q : List ℕ) : Prop where
  chain : Chain s.msgNext s.head q
  tail : s.tail = q.getLast?
  count : s.count = q.length
  nodup : q.Nodup

/-- The rest of the queue, which the list operations leave alone. -/
structure SameRest (s s' : BufferQueue ι) : Prop where
  limit : s'.limit = s.limit
  dataAvail : s'.dataAvail = s.dataAvail
  freeSl : s'.freeSl = s.freeSl
  calls : s'.calls = s.calls

theorem SameRest.trans (h : SameRest s s') (h' : SameRest s' t) : SameRest s t where
  limit := h'.limit.trans h.limit
  dataAvail := h'.dataAvail.trans h.dataAvail
  freeSl := h'.freeSl.trans h.freeSl
  calls := h'.calls.trans h.calls

/-- `k` waiting threads are to be woken.  With them there are enough for the places that have become
free, as long as others are left waiting. -/
structure Wakes (s s' : BufferQueue ι) (k : ℕ) : Prop where
  signalFreeSl : s'.signalFreeSl + k = s.signalFreeSl
  enough : ∀ n, (0 < s.signalFreeSl → s.limit ≤ s.count + n) → 0 < s'.signalFreeSl →
    s.limit ≤ s'.count + (n + k)

theorem Wakes.trans (h : Wakes s s' k) (h' : Wakes s' t k') (hlimit : s'.limit = s.limit) :
    Wakes s t (k + k') where
  signalFreeSl := by rw [← h.signalFreeSl, ← h'.signalFreeSl, Nat.add_assoc, Nat.add_comm k]
  enough := by
    intro n hn ht
    have hall := h'.enough (n + k) (fun hs' => by rw [hlimit]; exact h.enough n hn hs') ht
    rwa [hlimit, Nat.add_assoc n] at hall

theorem Wakes.refl (s : BufferQueue ι) : Wakes s s 0 where
  signalFreeSl := rfl
  enough := fun _ hn hs => hn hs

theorem Lists.buffers_eq (h : Lists s q) : s.buffers = q := by
  unfold buffers
  rw [h.count]
  exact h.chain.follow_eq

theorem lists_new (limit : ℕ) : Lists (new limit : BufferQueue ι) [] where
  chain := rfl
  tail := rfl
  count := rfl
  nodup := List.nodup_nil

/-- When a buffer has gone, a thread may be woken. -/
theorem wakeWaiter_spec (h : Lists t q) (hcount : s.count = t.count + 1)
    (hsignal : t.signalFreeSl = s.signalFreeSl) (hsame : SameRest s t) :
    Lists t.wakeWaiter.1 q ∧ Wakes s t.wakeWaiter.1 t.wakeWaiter.2 ∧
      SameRest s t.wakeWaiter.1 ∧ t.wakeWaiter.1.msgNext = t.msgNext := by
  have hlimit := hsame.limit
  unfold wakeWaiter
  split_ifs with hwake
  · refine ⟨⟨h.chain, h.tail, h.count, h.nodup⟩, ⟨?_, ?_⟩,
      ⟨hsame.limit, hsame.dataAvail, hsame.freeSl, hsame.calls⟩, rfl⟩
    · dsimp only
      rw [Nat.sub_add_cancel (Nat.pos_of_ne_zero hwake.2), hsignal]
    · dsimp only
      intro n hn _
      have hall := hn (Nat.pos_of_ne_zero (hsignal ▸ hwake.2))
      rw [hcount] at hall
      omega
  · refine ⟨h, ⟨hsignal, ?_⟩, hsame, rfl⟩
    intro n _ hleft
    rw [not_and, not_not] at hwake
    dsimp only at hleft ⊢
    by_contra hcon
    have hzero := hwake (by omega)
    omega

theorem Lists.doEnqueue (h : Lists s q) (hbuf : buf ∉ q) (hnone : s.msgNext buf = none) :
    ∃ s', s.doEnqueue buf = some s' ∧ Lists s' (q ++ [buf]) ∧ SameRest s s' ∧
      s'.signalFreeSl = s.signalFreeSl ∧ s'.count = s.count + 1 ∧
      ∀ y ∉ q, s'.msgNext y = s.msgNext y := by
  have hnodup : (q ++ [buf]).Nodup := by
    rw [List.nodup_append]
    refine ⟨h.nodup, List.nodup_singleton buf, ?_⟩
    intro y hy z hz heq
    rw [List.mem_singleton.mp hz] at heq
    exact hbuf (heq ▸ hy)
  unfold BufferQueue.doEnqueue
  rcases List.eq_nil_or_concat q with rfl | ⟨front, last, rfl⟩
  · have hhead : s.head = none := h.chain
    have htail : s.tail = none := h.tail
    have hcount : s.count = 0 := h.count
    rw [htail]
    dsimp only
    rw [if_neg (not_not.mpr hhead)]
    exact ⟨_, rfl, ⟨⟨rfl, hnone⟩, rfl, by dsimp only; rw [hcount]; rfl, hnodup⟩, ⟨rfl, rfl, rfl, rfl⟩,
      rfl, rfl, fun _ _ => rfl⟩
  · rw [List.concat_eq_append] at h hbuf hnodup ⊢
    have htail : s.tail = some last := by rw [h.tail, List.getLast?_concat]
    have hlast : s.msgNext last = none := h.chain.behind
    have hhead : s.head ≠ none := by
      rw [h.chain.head]
      simp
    rw [htail]
    dsimp only
    rw [if_neg (not_or.mpr ⟨hhead, not_not.mpr hlast⟩)]
    refine ⟨_, rfl, ⟨h.chain.append h.nodup hbuf hnone, ?_, ?_, hnodup⟩, ⟨rfl, rfl, rfl, rfl⟩, rfl,
      rfl, ?_⟩
    · dsimp only
      rw [List.getLast?_concat]
    · have hlength : (front ++ [last] ++ [buf]).length = (front ++ [last]).length + 1 :=
        List.length_append
      exact (congrArg (· + 1) h.count).trans hlength.symm
    · intro y hy
      refine Function.update_of_ne ?_ _ _
      rintro rfl
      exact hy (List.mem_append_right front (List.mem_singleton_self y))

theorem Lists.takeHead (h : Lists s (x :: q)) :
    ∃ s' k, s.takeHead = some (x, s', k) ∧ Lists s' q ∧ SameRest s s' ∧ Wakes s s' k ∧
      s.count = s'.count + 1 ∧ s'.msgNext = s.msgNext := by
  have hcount : s.count = q.length + 1 := h.count
  have hnext := h.chain.2.head
  have hnodup := (List.nodup_cons.mp h.nodup).2
  unfold BufferQueue.takeHead
  rw [h.chain.1]
  dsimp only
  rw [hcount, Nat.add_sub_cancel, hnext]
  cases q with
  | nil =>
    rw [List.head?_nil, List.length_nil, if_pos rfl, if_pos rfl]
    obtain ⟨hlists, hwakes, hsame, hlinks⟩ := wakeWaiter_spec (s := s)
      (t := { s with count := 0, head := none, tail := none }) (q := [])
      ⟨rfl, rfl, rfl, hnodup⟩ hcount rfl ⟨rfl, rfl, rfl, rfl⟩
    exact ⟨_, _, rfl, hlists, hsame, hwakes, congrArg (· + 1) hlists.count.symm, hlinks⟩
  | cons y q =>
    rw [if_neg (by simp)]
    obtain ⟨hlists, hwakes, hsame, hlinks⟩ := wakeWaiter_spec (s := s)
      (t := { s with count := (y :: q).length, head := some y }) (q := y :: q)
      ⟨⟨rfl, h.chain.2.2⟩, h.tail, rfl, hnodup⟩ hcount rfl ⟨rfl, rfl, rfl, rfl⟩
    exact ⟨_, _, rfl, hlists, hsame, hwakes, congrArg (· + 1) hlists.count.symm, hlinks⟩

/-- The last buffer when one is taken out. -/
theorem getLast?_remove (hnodup : (kept ++ x :: rest).Nodup) :
    (if (kept ++ x :: rest).getLast? = some x then kept.getLast?
      else (kept ++ x :: rest).getLast?) = (kept ++ rest).getLast? := by
  rcases List.eq_nil_or_concat rest with rfl | ⟨front, last, rfl⟩
  · rw [List.getLast?_concat, if_pos rfl, List.append_nil]
  · rw [List.concat_eq_append] at hnodup ⊢
    have hlast : (kept ++ x :: (front ++ [last])).getLast? = some last := by
      rw [← List.cons_append, ← List.append_assoc, List.getLast?_concat]
    have hne : last ≠ x := by
      rintro rfl
      have hcons := (List.nodup_append.mp hnodup).2.1
      exact (List.nodup_cons.mp hcons).1 (List.mem_append_right front (List.mem_singleton_self last))
    rw [hlast, if_neg (fun heq => hne (Option.some.inj heq)), ← List.append_assoc,
      List.getLast?_concat]

theorem Lists.unlink (h : Lists s (kept ++ x :: rest)) :
    ∃ s', s.unlink kept.getLast? x = some s' ∧ Lists s' (kept ++ rest) ∧ SameRest s s' ∧
      s'.signalFreeSl = s.signalFreeSl ∧ s.count = s'.count + 1 ∧
      ∀ y ∉ kept, s'.msgNext y = s.msgNext y := by
  have hcount : s.count = (kept ++ rest).length + 1 := by
    rw [h.count, List.length_append, List.length_append, List.length_cons, Nat.add_assoc]
  have hnodup : (kept ++ rest).Nodup := h.nodup.sublist
    (List.Sublist.append_left (List.sublist_cons_self x rest) kept)
  have htail := getLast?_remove h.nodup
  rw [← h.tail] at htail
  unfold BufferQueue.unlink
  dsimp only
  rw [htail, hcount, Nat.add_sub_cancel]
  rcases List.eq_nil_or_concat kept with rfl | ⟨front, p, rfl⟩
  · rw [List.getLast?_nil]
    dsimp only
    rw [if_pos h.chain.1]
    exact ⟨_, rfl, ⟨h.chain.2, rfl, rfl, hnodup⟩, ⟨rfl, rfl, rfl, rfl⟩, rfl, rfl, fun _ _ => rfl⟩
  · rw [List.concat_eq_append] at h hnodup ⊢
    rw [List.getLast?_concat]
    dsimp only
    have hchain := h.chain
    have hall := h.nodup
    rw [List.append_assoc] at hchain hall
    have hremoved := hchain.remove hall
    refine ⟨_, rfl, ⟨?_, rfl, rfl, hnodup⟩, ⟨rfl, rfl, rfl, rfl⟩, rfl, rfl, ?_⟩
    · rw [List.append_assoc]
      exact hremoved
    · intro y hy
      refine Function.update_of_ne ?_ _ _
      rintro rfl
      exact hy (List.mem_append_right front (List.mem_singleton_self y))

/-- The loop keeps what does not match, in its order. -/
theorem Lists.removeLoop (h : Lists s (kept ++ rest)) (pkCmpFn : ℕ → Bool) (fuel : ℕ)
    (hfuel : rest.length ≤ fuel) (signalFreeSlots : ℕ) (removed : List ℕ) :
    ∃ s' k, BufferQueue.removeLoop pkCmpFn fuel s kept.getLast? rest.head? signalFreeSlots removed =
        some (s', signalFreeSlots + k, removed ++ rest.filter pkCmpFn) ∧
      Lists s' (kept ++ rest.filter fun y => !pkCmpFn y) ∧ SameRest s s' ∧ Wakes s s' k ∧
      ∀ y ∉ kept ++ rest, s'.msgNext y = s.msgNext y := by
  induction rest generalizing s kept fuel signalFreeSlots removed with
  | nil =>
    refine ⟨s, 0, ?_, h, ⟨rfl, rfl, rfl, rfl⟩, Wakes.refl s, fun _ _ => rfl⟩
    rw [List.filter_nil, List.append_nil]
    cases fuel <;> rfl
  | cons x rest ih =>
    obtain ⟨fuel, rfl⟩ : ∃ n, fuel = n + 1 :=
      ⟨fuel - 1, (Nat.sub_add_cancel (le_trans (Nat.succ_pos _) hfuel)).symm⟩
    have hfuel' : rest.length ≤ fuel := Nat.le_of_succ_le_succ hfuel
    have hnext : s.msgNext x = rest.head? := h.chain.behind.head
    rw [List.head?_cons]
    unfold BufferQueue.removeLoop
    rw [hnext]
    cases hmatch : pkCmpFn x with
    | true =>
      rw [if_pos rfl, List.filter_cons_of_pos hmatch, List.filter_cons_of_neg (by simp [hmatch])]
      obtain ⟨t, hunlink, hlists, hsame, hsignal, hcount, hlinks⟩ := h.unlink
      obtain ⟨hlists', hwakes, hsame', hlinks'⟩ := wakeWaiter_spec hlists hcount hsignal hsame
      obtain ⟨s', k, hloop, hlists'', hsame'', hwakes', hlinks''⟩ :=
        ih hlists' fuel hfuel' (signalFreeSlots + t.wakeWaiter.2) (removed ++ [x])
      rw [hunlink]
      dsimp only
      rw [hloop, Nat.add_assoc, List.append_assoc]
      refine ⟨s', _, rfl, hlists'', hsame'.trans hsame'', hwakes.trans hwakes' hsame'.limit, ?_⟩
      intro y hy
      rw [List.mem_append, not_or] at hy
      have hrest : y ∉ kept ++ rest := by
        rw [List.mem_append, not_or]
        exact ⟨hy.1, fun hmem => hy.2 (List.mem_cons_of_mem x hmem)⟩
      rw [hlinks'' y hrest, hlinks', hlinks y hy.1]
    | false =>
      rw [if_neg Bool.false_ne_true, List.filter_cons_of_neg (by simp [hmatch]),
        List.filter_cons_of_pos (by simp [hmatch])]
      have hmoved : kept ++ x :: rest = kept ++ [x] ++ rest := by
        rw [List.append_assoc]
        rfl
      rw [hmoved] at h
      obtain ⟨s', k, hloop, hlists, hsame, hwakes, hlinks⟩ :=
        ih h fuel hfuel' signalFreeSlots removed
      rw [List.getLast?_concat] at hloop
      rw [List.append_assoc] at hlists
      refine ⟨s', k, hloop, hlists, hsame, hwakes, ?_⟩
      rwa [hmoved]

end Udp.BufferQueue
