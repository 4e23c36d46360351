import HpccPlatform.Task.CasTaskStack

/-!
# The stack of a task processor loses and duplicates nothing

`start` and `end` count modulo `2 ^ 32`; the invariant has a count `S` of the items that were ever
taken from the start, which does not wrap.  It goes up with every steal, and also when the owner pops
the last task.  A thief that read `start` when it was `S` and finds the same word again is therefore
right to believe that its task is still the first one, unless `2 ^ 32` tasks were taken meanwhile.
-/

namespace Task

open StealingDeque

namespace CasTaskStack

/-! ### The packed word -/

theorem makePair_eq {start : ℕ} (finish : ℕ) (hstart : start < 2 ^ 32) :
    makePair start finish = finish * 2 ^ 32 + start := by
  unfold makePair
  rw [← Nat.shiftLeft_add_eq_or_of_lt hstart, Nat.shiftLeft_eq]

/-- The word when `S` items were ever taken from the start and `n` are there. -/
def pack (S n : ℕ) : ℕ := makePair (S % 2 ^ 32) ((S + n) % 2 ^ 32)

theorem pack_eq (S n : ℕ) : pack S n = (S + n) % 2 ^ 32 * 2 ^ 32 + S % 2 ^ 32 :=
  makePair_eq _ (Nat.mod_lt _ (by norm_num))

theorem getStart_pack (S n : ℕ) : getStart (pack S n) = S % 2 ^ 32 := by
  rw [pack_eq]
  unfold getStart
  omega

theorem getEnd_pack (S n : ℕ) : getEnd (pack S n) = (S + n) % 2 ^ 32 := by
  have hstart : S % 2 ^ 32 < 2 ^ 32 := Nat.mod_lt _ (by norm_num)
  rw [pack_eq]
  unfold getEnd
  rw [Nat.shiftRight_eq_div_pow, Nat.add_comm, Nat.add_mul_div_right _ _ (by norm_num),
    Nat.div_eq_of_lt hstart, Nat.zero_add, Nat.mod_mod]

/-- The word tells how many there are. -/
theorem seqSub_pack {S n : ℕ} (hn : n < 2 ^ 32) :
    seqSub (getEnd (pack S n)) (getStart (pack S n)) = n := by
  rw [getEnd_pack, getStart_pack]
  unfold seqSub
  omega

theorem start_eq_end_iff {S n : ℕ} (hn : n < 2 ^ 32) :
    getStart (pack S n) = getEnd (pack S n) ↔ n = 0 := by
  rw [getEnd_pack, getStart_pack]
  omega

theorem add_makePair_pack (S n : ℕ) :
    (pack S n + makePair 0 1) % 2 ^ 64 = pack S (n + 1) := by
  rw [pack_eq, pack_eq, makePair_eq 1 (by norm_num)]
  omega

/-- The same word, with fewer than `2 ^ 32` items taken in between. -/
theorem eq_of_pack_eq {S n S₀ n₀ : ℕ} (h : pack S n = pack S₀ n₀) (hle : S₀ ≤ S)
    (hlt : S < S₀ + 2 ^ 32) : S₀ = S := by
  have hstart := congrArg getStart h
  rw [getStart_pack, getStart_pack] at hstart
  omega

/-! ### The invariant -/

variable {ι τ : Type*} {k : ℕ} {s : CasTaskStack ι τ} {S S' : ℕ} {xs xs' : List τ}

theorem and_mask (k index : ℕ) : index &&& (2 ^ k - 1) = index % 2 ^ k :=
  Nat.and_two_pow_sub_one_eq_mod index k

/-- The items of the array. -/
structure Shape (k : ℕ) (s : CasTaskStack ι τ) (S : ℕ) (xs : List τ) : Prop where
  startEnd : s.startEnd = pack S xs.length
  tasks : ∀ i t, xs[i]? = some t → s.tasks ((S + i) % 2 ^ k) = some t
  room : xs.length ≤ 2 ^ k

/-- A word that was read in a call: the counts at that time. -/
structure Seen (k : ℕ) (S : ℕ) (cur S₀ n : ℕ) : Prop where
  cur_eq : cur = pack S₀ n
  room : n ≤ 2 ^ k
  le : S₀ ≤ S

/-- What the owner knows: only thieves take tasks meanwhile, so that the end stays. -/
def OwnerKnows (k : ℕ) (s : CasTaskStack ι τ) (S : ℕ) (xs : List τ) (call : Option Call) : Prop :=
  match s.owner with
  | .idle => True
  | .pushLoaded _ cur => getEnd cur = (S + xs.length) % 2 ^ 32 ∧ xs.length < 2 ^ k
  | .pushSet task => s.tasks ((S + xs.length) % 2 ^ k) = some task ∧ xs.length < 2 ^ k
  | .popLoaded cur => ∃ c S₀ n, call = some c ∧ Seen k S cur S₀ n ∧ S₀ + n = S + xs.length ∧
      (n = 0 → c.sawEmpty)
  | .popLoop finish task cur => ∃ c S₀ n, call = some c ∧ Seen k S cur S₀ n ∧
      S₀ + n = S + xs.length ∧ (n = 0 → c.sawEmpty) ∧ finish = (S + xs.length) % 2 ^ 32 ∧
      ∀ ys y, xs = ys ++ [y] → task = some y

/-- What a thief knows: as long as no item has been taken since it read the word, the stack is not
empty, and the task it has read is the first one. -/
def ThiefKnows (k : ℕ) (S : ℕ) (xs : List τ) (call : Option Call) : ThiefPc τ → Prop
  | .idle => True
  | .stealLoop cur => ∃ c S₀ n, call = some c ∧ Seen k S cur S₀ n ∧ S ≤ S₀ + c.operations ∧
      (n = 0 → c.sawEmpty) ∧ (S₀ = S → n ≠ 0 → xs ≠ [])
  | .stealRead task cur => ∃ c S₀ n, call = some c ∧ Seen k S cur S₀ n ∧ S ≤ S₀ + c.operations ∧
      n ≠ 0 ∧ (S₀ = S → ∃ y ys, xs = y :: ys ∧ task = some y)

/-- The array and the threads agree with what has been observed. -/
def Agrees (k : ℕ) (s : CasTaskStack ι τ) (o : Observed ι τ) : Prop :=
  ∃ S, Shape k s S o.deque ∧ OwnerKnows k s S o.deque (o.calls none) ∧
    ∀ i, ThiefKnows k S o.deque (o.calls (some i)) (s.thieves i)

/-- What the first item sees of an operation: it stays, or an item has been taken. -/
def Moves (S : ℕ) (xs : List τ) (S' : ℕ) (xs' : List τ) : Prop :=
  S' = S ∧ (∀ y ys, xs = y :: ys → ∃ ys', xs' = y :: ys') ∨ S' = S + 1

theorem Seen.mono {cur S₀ n : ℕ} (h : Seen k S cur S₀ n) (hle : S ≤ S') : Seen k S' cur S₀ n :=
  ⟨h.cur_eq, h.room, h.le.trans hle⟩

theorem Moves.le (h : Moves S xs S' xs') : S ≤ S' := by
  rcases h with ⟨rfl, -⟩ | rfl
  · exact le_rfl
  · exact Nat.le_succ S

/-- The operations of other threads do not change what a thief knows. -/
theorem ThiefKnows.moves {pc : ThiefPc τ} {call : Option Call}
    (h : ThiefKnows k S xs call pc) (hmoves : Moves S xs S' xs') :
    ThiefKnows k S' xs' (call.map fun c => ⟨c.operations + 1, c.sawEmpty ∨ xs' = []⟩) pc := by
  have hle := hmoves.le
  have hsucc : S' ≤ S + 1 := by
    rcases hmoves with ⟨rfl, -⟩ | rfl
    · exact Nat.le_succ _
    · exact le_rfl
  -- nothing has been taken since only if nothing has been taken now
  have hstay : ∀ S₀, S₀ ≤ S → S₀ = S' → S' = S ∧
      ∀ y ys, xs = y :: ys → ∃ ys', xs' = y :: ys' := by
    intro S₀ hS₀ heq
    rcases hmoves with hsame | hnext
    · exact hsame
    · omega
  cases pc with
  | idle => trivial
  | stealLoop cur =>
    obtain ⟨c, S₀, n, rfl, hseen, hbound, hempty, hfull⟩ := h
    refine ⟨_, S₀, n, rfl, hseen.mono hle, ?_, fun hn => Or.inl (hempty hn), ?_⟩
    · dsimp only
      omega
    · intro heq hn
      obtain ⟨hS, hhead⟩ := hstay S₀ hseen.le heq
      cases hxs : xs with
      | nil => exact absurd hxs (hfull (heq.trans hS) hn)
      | cons y ys =>
        obtain ⟨ys', rfl⟩ := hhead y ys hxs
        exact List.cons_ne_nil y ys'
  | stealRead task cur =>
    obtain ⟨c, S₀, n, rfl, hseen, hbound, hn, hfirst⟩ := h
    refine ⟨_, S₀, n, rfl, hseen.mono hle, ?_, hn, ?_⟩
    · dsimp only
      omega
    · intro heq
      obtain ⟨hS, hhead⟩ := hstay S₀ hseen.le heq
      obtain ⟨y, ys, hxs, htask⟩ := hfirst (heq.trans hS)
      obtain ⟨ys', hxs'⟩ := hhead y ys hxs
      exact ⟨y, ys', hxs', htask⟩

/-! ### The steps of the thieves -/

/-- What a thread knows after it has read the word. -/
theorem Shape.seen (h : Shape k s S xs) : Seen k S s.startEnd S xs.length :=
  ⟨h.startEnd, h.room, le_rfl⟩

/-- A steal takes the first task, and the end stays where it is. -/
theorem OwnerKnows.steal {y : τ} {ys : List τ} {call : Option Call}
    (h : OwnerKnows k s S (y :: ys) call) {startEnd : ℕ} {thieves : ι → ThiefPc τ} :
    OwnerKnows k { s with startEnd := startEnd, thieves := thieves } (S + 1) ys
      (call.map fun c => ⟨c.operations + 1, c.sawEmpty ∨ ys = []⟩) := by
  have hend : S + 1 + ys.length = S + (y :: ys).length := by
    rw [List.length_cons]
    omega
  have hroom : ys.length < (y :: ys).length := by
    rw [List.length_cons]
    exact Nat.lt_succ_self _
  unfold OwnerKnows at h ⊢
  dsimp only
  rw [hend]
  cases howner : s.owner with
  | idle => trivial
  | pushLoaded task cur =>
    rw [howner] at h
    exact ⟨h.1, hroom.trans h.2⟩
  | pushSet task =>
    rw [howner] at h
    exact ⟨h.1, hroom.trans h.2⟩
  | popLoaded cur =>
    rw [howner] at h
    obtain ⟨c, S₀, n, rfl, hseen, hsum, hempty⟩ := h
    exact ⟨_, S₀, n, rfl, hseen.mono (Nat.le_succ S), hsum, fun hn => Or.inl (hempty hn)⟩
  | popLoop finish task cur =>
    rw [howner] at h
    obtain ⟨c, S₀, n, rfl, hseen, hsum, hempty, hfinish, htask⟩ := h
    refine ⟨_, S₀, n, rfl, hseen.mono (Nat.le_succ S), hsum, fun hn => Or.inl (hempty hn), hfinish,
      ?_⟩
    intro zs z hzs
    exact htask (y :: zs) z (by rw [hzs]; rfl)

/-! ### What an operation does to the items -/

theorem lt_of_room {n : ℕ} (hk : k ≤ 31) (hn : n ≤ 2 ^ k) : n < 2 ^ 32 :=
  hn.trans_lt (Nat.pow_lt_pow_right (by norm_num) (by omega))

theorem mod_mask (hk : k ≤ 31) (n : ℕ) : n % 2 ^ 32 &&& (2 ^ k - 1) = n % 2 ^ k := by
  rw [and_mask]
  exact Nat.mod_mod_of_dvd n (Nat.pow_dvd_pow 2 (by omega))

/-- Places of the array that are different. -/
theorem place_ne {S i n : ℕ} (hi : i < n) (hn : n < 2 ^ k) :
    (S + i) % 2 ^ k ≠ (S + n) % 2 ^ k := by
  intro heq
  have hmod : i % 2 ^ k = n % 2 ^ k := Nat.ModEq.add_left_cancel' S heq
  rw [Nat.mod_eq_of_lt (hi.trans hn), Nat.mod_eq_of_lt hn] at hmod
  exact hi.ne hmod

theorem shape_push (h : Shape k s S xs) {task : τ}
    (htask : s.tasks ((S + xs.length) % 2 ^ k) = some task) (hroom : xs.length < 2 ^ k) :
    Shape k { s with
      startEnd := (s.startEnd + makePair 0 1) % 2 ^ 64
      owner := .idle } S (xs ++ [task]) where
  startEnd := by
    dsimp only
    rw [h.startEnd, add_makePair_pack, List.length_append, List.length_singleton]
  tasks i t ht := by
    rcases Nat.lt_or_ge i xs.length with hi | hi
    · rw [List.getElem?_append_left hi] at ht
      exact h.tasks i t ht
    · rw [List.getElem?_append_right hi, List.getElem?_singleton] at ht
      split_ifs at ht with hzero
      rw [← Option.some.inj ht, show i = xs.length by omega]
      exact htask
  room := by
    rw [List.length_append, List.length_singleton]
    exact hroom

/-- The last task is taken: the end goes down, or the start goes up if there was no other. -/
theorem shape_pop (hk : k ≤ 31) {ys : List τ} {y : τ} (h : Shape k s S (ys ++ [y])) :
    ∃ S', Moves S (ys ++ [y]) S' ys ∧ Shape k { s with
      startEnd := if getStart s.startEnd = seqSub (getEnd s.startEnd) 1 then
        makePair (getEnd s.startEnd) (getEnd s.startEnd)
        else makePair (getStart s.startEnd) (seqSub (getEnd s.startEnd) 1)
      owner := .idle } S' ys := by
  have hlength : (ys ++ [y]).length = ys.length + 1 := by
    rw [List.length_append, List.length_singleton]
  have hlt := lt_of_room hk h.room
  have hroom : ys.length ≤ 2 ^ k := by
    have := h.room
    omega
  have hstart : getStart s.startEnd = S % 2 ^ 32 := by rw [h.startEnd, getStart_pack]
  have hend : getEnd s.startEnd = (S + ys.length + 1) % 2 ^ 32 := by
    rw [h.startEnd, getEnd_pack, hlength, Nat.add_assoc]
  have hprev : seqSub ((S + ys.length + 1) % 2 ^ 32) 1 = (S + ys.length) % 2 ^ 32 := by
    unfold seqSub
    omega
  rw [hstart, hend, hprev]
  rcases Nat.eq_zero_or_pos ys.length with hzero | hpos
  · rw [List.length_eq_zero_iff] at hzero
    subst hzero
    refine ⟨S + 1, Or.inr rfl, ?_, ?_, hroom⟩
    · dsimp only
      rw [List.length_nil, Nat.add_zero, if_pos rfl]
      rfl
    · intro i t ht
      cases ht
  · refine ⟨S, Or.inl ⟨rfl, ?_⟩, ?_, ?_, hroom⟩
    · intro z zs hzs
      cases ys with
      | nil => cases hpos
      | cons w ws => exact ⟨ws, by rw [(List.cons.inj hzs).1]⟩
    · dsimp only
      rw [if_neg (by omega)]
      rfl
    · intro i t ht
      have hi : i < ys.length := (List.getElem?_eq_some_iff.mp ht).1
      exact h.tasks i t (by rw [List.getElem?_append_left hi, ht])

variable {o : Observed ι τ}

/-- A step that changes only where the owner is. -/
theorem Agrees.setOwner (h : Agrees k s o) {calls : Option ι → Option Call} (pc : OwnerPc τ)
    (hcalls : ∀ i, calls (some i) = o.calls (some i))
    (hknows : ∀ S, Shape k s S o.deque → OwnerKnows k s S o.deque (o.calls none) →
      OwnerKnows k { s with owner := pc } S o.deque (calls none)) :
    Agrees k { s with owner := pc } { o with calls := calls } := by
  obtain ⟨S, hshape, howner, hthieves⟩ := h
  refine ⟨S, ⟨hshape.startEnd, hshape.tasks, hshape.room⟩, hknows S hshape howner, ?_⟩
  intro j
  dsimp only
  rw [hcalls j]
  exact hthieves j

/-- The task is put in the place behind the last one. -/
theorem agrees_set (hk : k ≤ 31) (h : Agrees k s o) {task : τ} {cur : ℕ}
    (hpc : s.owner = .pushLoaded task cur) :
    Agrees k { s.set (2 ^ k - 1) (getEnd cur) task with owner := .pushSet task } o := by
  obtain ⟨S, hshape, howner, hthieves⟩ := h
  unfold OwnerKnows at howner
  rw [hpc] at howner
  obtain ⟨hend, hroom⟩ := howner
  have hplace : getEnd cur &&& (2 ^ k - 1) = (S + o.deque.length) % 2 ^ k := by
    rw [hend, mod_mask hk]
  refine ⟨S, ⟨hshape.startEnd, ?_, hshape.room⟩, ⟨?_, hroom⟩, hthieves⟩
  · intro i t ht
    have hi : i < o.deque.length := (List.getElem?_eq_some_iff.mp ht).1
    change Function.update s.tasks _ (some task) _ = some t
    rw [hplace, Function.update_of_ne (place_ne hi hroom)]
    exact hshape.tasks i t ht
  · change Function.update s.tasks _ (some task) _ = some task
    rw [hplace, Function.update_self]

/-- The tasks of the array are those that have been observed. -/
theorem Agrees.contents (hk : k ≤ 31) (h : Agrees k s o) :
    s.contents (2 ^ k - 1) = o.deque.map some := by
  obtain ⟨S, hshape, -, -⟩ := h
  have hlt := lt_of_room hk hshape.room
  unfold CasTaskStack.contents
  rw [hshape.startEnd, seqSub_pack hlt, getStart_pack]
  apply List.ext_getElem?
  intro i
  rw [List.getElem?_map, List.getElem?_map]
  rcases Nat.lt_or_ge i o.deque.length with hi | hi
  · rw [List.getElem?_range hi, List.getElem?_eq_getElem hi, Option.map_some, Option.map_some]
    unfold CasTaskStack.get
    have hplace : (S % 2 ^ 32 + i) % 2 ^ k = (S + i) % 2 ^ k := by
      have hmod : S % 2 ^ 32 % 2 ^ k = S % 2 ^ k :=
        Nat.mod_mod_of_dvd S (Nat.pow_dvd_pow 2 (by omega))
      rw [Nat.add_mod, hmod, ← Nat.add_mod]
    rw [and_mask, hplace, hshape.tasks i _ (List.getElem?_eq_getElem hi)]
  · rw [List.getElem?_eq_none hi, List.getElem?_eq_none (by rwa [List.length_range])]
    rfl

theorem agrees_new (k : ℕ) : Agrees k (new : CasTaskStack ι τ) Observed.new := by
  refine ⟨0, ⟨(pack_eq 0 0).symm, ?_, Nat.zero_le _⟩, trivial, fun _ => trivial⟩
  intro i t ht
  cases ht

variable [DecidableEq ι]

/-- A step that changes only where a thief is. -/
theorem Agrees.setThief (h : Agrees k s o) {calls : Option ι → Option Call} (i : ι)
    (pc : ThiefPc τ) (hcalls : ∀ thread, thread ≠ some i → calls thread = o.calls thread)
    (hknows : ∀ S, Shape k s S o.deque → ThiefKnows k S o.deque (o.calls (some i)) (s.thieves i) →
      ThiefKnows k S o.deque (calls (some i)) pc) :
    Agrees k { s with thieves := Function.update s.thieves i pc } { o with calls := calls } := by
  obtain ⟨S, hshape, howner, hthieves⟩ := h
  refine ⟨S, ⟨hshape.startEnd, hshape.tasks, hshape.room⟩, ?_, ?_⟩
  · dsimp only
    rw [hcalls none (Option.some_ne_none i).symm]
    exact howner
  · intro j
    dsimp only
    by_cases hj : j = i
    · rw [hj, Function.update_self]
      exact hknows S hshape (hthieves i)
    · rw [Function.update_of_ne hj, hcalls (some j) (fun heq => hj (Option.some.inj heq))]
      exact hthieves j

theorem agrees_stealTask (h : Agrees k s o) (i : ι) :
    Agrees k { s with thieves := Function.update s.thieves i (.stealLoop s.startEnd) }
      (o.begin (some i)) := by
  refine h.setThief i _ (fun thread hne => Function.update_of_ne hne _ _) ?_
  intro S hshape _
  rw [Function.update_self]
  refine ⟨_, S, _, rfl, hshape.seen, le_rfl, ?_, ?_⟩
  · exact List.length_eq_zero_iff.mp
  · intro _ hlength hempty
    exact hlength (List.length_eq_zero_iff.mpr hempty)

/-- The step lemma for the thieves. -/
theorem Agrees.thiefStep (hk : k ≤ 31) (h : Agrees k s o) (hnoticed : o.Noticed)
    (hfew : o.FewerThan (2 ^ 32)) (i : ι) (fails : Bool) :
    ∃ o', Observed.Step o (s.thiefStep (2 ^ k - 1) i fails).2 o' ∧
      Agrees k (s.thiefStep (2 ^ k - 1) i fails).1 o' := by
  have hthief : ∃ S, Shape k s S o.deque ∧
      ThiefKnows k S o.deque (o.calls (some i)) (s.thieves i) := by
    obtain ⟨S, hshape, -, hthieves⟩ := h
    exact ⟨S, hshape, hthieves i⟩
  unfold CasTaskStack.thiefStep
  cases hpc : s.thieves i with
  | idle => exact ⟨o, .internal o, h⟩
  | stealLoop cur =>
    dsimp only
    obtain ⟨S, hshape, hknows⟩ := hthief
    rw [hpc] at hknows
    obtain ⟨c, S₀, n, hcall, hseen, -, hempty, -⟩ := hknows
    split_ifs with hequal
    · -- the stack was empty when the word was read
      rw [hseen.cur_eq, start_eq_end_iff (lt_of_room hk hseen.room)] at hequal
      refine ⟨_, .stolen_none o i c hcall (hempty hequal), ?_⟩
      exact h.setThief i .idle (fun thread hne => Function.update_of_ne hne _ _)
        (fun _ _ _ => trivial)
    · refine ⟨o, .internal o, h.setThief i _ (fun _ _ => rfl) ?_⟩
      intro S hshape hknows
      rw [hpc] at hknows
      obtain ⟨c, S₀, n, hcall, hseen, hbound, -, hfull⟩ := hknows
      rw [hseen.cur_eq, start_eq_end_iff (lt_of_room hk hseen.room)] at hequal
      refine ⟨c, S₀, n, hcall, hseen, hbound, hequal, ?_⟩
      rintro rfl
      cases hxs : o.deque with
      | nil => exact absurd hxs (hfull rfl hequal)
      | cons y ys =>
        refine ⟨y, ys, rfl, ?_⟩
        unfold CasTaskStack.get
        rw [hseen.cur_eq, getStart_pack, mod_mask hk]
        exact hshape.tasks 0 y (by rw [hxs]; rfl)
  | stealRead task cur =>
    dsimp only
    split_ifs with hcas
    · obtain ⟨S, hshape, howner, hthieves⟩ := h
      have hknows := hthieves i
      rw [hpc] at hknows
      obtain ⟨c, S₀, n, hcall, hseen, hbound, -, hfirst⟩ := hknows
      -- the word is the same, so that nothing has been taken
      have hsame : pack S o.deque.length = pack S₀ n := by
        rw [← hshape.startEnd, hcas.1, hseen.cur_eq]
      have hops := hfew i c hcall
      obtain ⟨y, ys, hxs, rfl⟩ := hfirst (eq_of_pack_eq hsame hseen.le (by omega))
      refine ⟨_, .stolen o i ys y hxs, S + 1, ⟨?_, ?_, ?_⟩, ?_, ?_⟩
      · change makePair _ _ = pack (S + 1) ys.length
        rw [← hcas.1, hshape.startEnd, getStart_pack, getEnd_pack, Nat.mod_add_mod, hxs,
          List.length_cons]
        unfold pack
        congr 2
        omega
      · intro j t ht
        have htasks := hshape.tasks (j + 1) t (by rw [hxs]; exact ht)
        rwa [Nat.add_assoc, Nat.add_comm 1 j]
      · have hroom := hshape.room
        rw [hxs, List.length_cons] at hroom
        exact (Nat.le_succ _).trans hroom
      · rw [hxs] at howner
        rw [Observed.calls_effect_of_ne o (Option.some_ne_none i).symm]
        exact howner.steal
      · intro j
        dsimp only
        by_cases hj : j = i
        · rw [hj, Function.update_self]
          trivial
        · rw [Observed.calls_effect_of_ne o (fun heq => hj (Option.some.inj heq)),
            Function.update_of_ne hj]
          exact (hthieves j).moves (Or.inr rfl)
    · refine ⟨o, .internal o, h.setThief i _ (fun _ _ => rfl) ?_⟩
      intro S hshape hknows
      rw [hpc] at hknows
      obtain ⟨c, S₀, n, hcall, -⟩ := hknows
      refine ⟨c, S, _, hcall, hshape.seen, Nat.le_add_right _ _, ?_, ?_⟩
      · intro hlength
        exact hnoticed (some i) c hcall (List.length_eq_zero_iff.mp hlength)
      · intro _ hlength hempty
        exact hlength (List.length_eq_zero_iff.mpr hempty)

/-! ### The steps of the owner -/

/-- An operation of the owner takes effect. -/
theorem agrees_effect {S' : ℕ} {deque pushed returned : List τ}
    (hthieves : ∀ i, ThiefKnows k S o.deque (o.calls (some i)) (s.thieves i))
    (hmoves : Moves S o.deque S' deque) {s' : CasTaskStack ι τ} (hshape : Shape k s' S' deque)
    (hidle : s'.owner = .idle) (hsame : s'.thieves = s.thieves) :
    Agrees k s' (o.effect none deque pushed returned) := by
  refine ⟨S', hshape, ?_, ?_⟩
  · unfold OwnerKnows
    rw [hidle]
    trivial
  · intro i
    rw [Observed.calls_effect_of_ne o (Option.some_ne_none i), hsame]
    exact (hthieves i).moves hmoves

theorem agrees_pushTask (hk : k ≤ 31) (h : Agrees k s o) (task : τ)
    (hroom : ¬2 ^ k - 1 < seqSub (getEnd s.startEnd) (getStart s.startEnd)) :
    Agrees k { s with owner := .pushLoaded task s.startEnd } (o.begin none) := by
  refine h.setOwner _ (fun i => Function.update_of_ne (Option.some_ne_none i) _ _) ?_
  intro S hshape _
  rw [hshape.startEnd, seqSub_pack (lt_of_room hk hshape.room)] at hroom
  have hpos : 0 < 2 ^ k := Nat.two_pow_pos k
  refine ⟨?_, by omega⟩
  rw [hshape.startEnd, getEnd_pack]

theorem agrees_popNextTask (h : Agrees k s o) :
    Agrees k { s with owner := .popLoaded s.startEnd } (o.begin none) := by
  refine h.setOwner _ (fun i => Function.update_of_ne (Option.some_ne_none i) _ _) ?_
  intro S hshape _
  rw [Function.update_self]
  exact ⟨_, S, _, rfl, hshape.seen, rfl, List.length_eq_zero_iff.mp⟩

/-- The step lemma for the owner. -/
theorem Agrees.ownerStep (hk : k ≤ 31) (h : Agrees k s o) (hnoticed : o.Noticed) (fails : Bool) :
    ∃ o', Observed.Step o (s.ownerStep (2 ^ k - 1) fails).2 o' ∧
      Agrees k (s.ownerStep (2 ^ k - 1) fails).1 o' := by
  unfold CasTaskStack.ownerStep
  cases hpc : s.owner with
  | idle => exact ⟨o, .internal o, h⟩
  | pushLoaded task cur => exact ⟨o, .internal o, agrees_set hk h hpc⟩
  | pushSet task =>
    obtain ⟨S, hshape, howner, hthieves⟩ := h
    unfold OwnerKnows at howner
    rw [hpc] at howner
    have hshape' := shape_push hshape howner.1 howner.2
    have hmoves : Moves S o.deque S (o.deque ++ [task]) := by
      refine Or.inl ⟨rfl, ?_⟩
      intro y ys hxs
      refine ⟨ys ++ [task], ?_⟩
      rw [hxs, List.cons_append]
    dsimp only
    refine ⟨_, .pushed o task, ?_⟩
    exact agrees_effect hthieves hmoves hshape' rfl rfl
  | popLoaded cur =>
    refine ⟨o, .internal o, h.setOwner _ (fun _ => rfl) ?_⟩
    intro S hshape howner
    unfold OwnerKnows at howner ⊢
    rw [hpc] at howner
    obtain ⟨c, S₀, n, hcall, hseen, hsum, hempty⟩ := howner
    have hend : getEnd cur = (S + o.deque.length) % 2 ^ 32 := by
      rw [hseen.cur_eq, getEnd_pack, hsum]
    refine ⟨c, S₀, n, hcall, hseen, hsum, hempty, hend, ?_⟩
    intro ys y hxs
    have hprev : seqSub (getEnd cur) 1 = (S + ys.length) % 2 ^ 32 := by
      rw [hend, hxs, List.length_append, List.length_singleton]
      unfold seqSub
      omega
    unfold CasTaskStack.get
    rw [hprev, mod_mask hk]
    refine hshape.tasks ys.length y ?_
    rw [hxs, List.getElem?_concat_length]
  | popLoop finish task cur =>
    dsimp only
    by_cases hequal : getStart cur = finish
    · -- the stack was empty when the word was read
      rw [if_pos hequal]
      have howner : ∃ c, o.calls none = some c ∧ c.sawEmpty := by
        obtain ⟨S, -, howner, -⟩ := h
        unfold OwnerKnows at howner
        rw [hpc] at howner
        obtain ⟨c, S₀, n, hcall, hseen, hsum, hempty, hfinish, -⟩ := howner
        refine ⟨c, hcall, hempty ?_⟩
        rw [hfinish, ← hsum, ← getEnd_pack, ← hseen.cur_eq] at hequal
        rwa [hseen.cur_eq, start_eq_end_iff (lt_of_room hk hseen.room)] at hequal
      obtain ⟨c, hcall, hempty⟩ := howner
      refine ⟨_, .popped_none o c hcall hempty, ?_⟩
      exact h.setOwner .idle (fun i => Function.update_of_ne (Option.some_ne_none i) _ _)
        (fun _ _ _ => trivial)
    · rw [if_neg hequal]
      by_cases hcas : s.startEnd = cur ∧ fails = false
      · rw [if_pos hcas]
        obtain ⟨S, hshape, howner, hthieves⟩ := h
        unfold OwnerKnows at howner
        rw [hpc] at howner
        obtain ⟨c, S₀, n, hcall, hseen, hsum, hempty, hfinish, htask⟩ := howner
        have hend : finish = getEnd s.startEnd := by
          rw [hfinish, hshape.startEnd, getEnd_pack]
        -- there is a task, because the word that is still there says so
        obtain ⟨ys, y, hxs⟩ : ∃ ys y, o.deque = ys ++ [y] := by
          rcases List.eq_nil_or_concat o.deque with hnil | ⟨ys, y, hxs⟩
          · exfalso
            apply hequal
            rw [hend, ← hcas.1, hshape.startEnd, hnil,
              (start_eq_end_iff (n := ([] : List τ).length) (by norm_num)).mpr rfl]
          · exact ⟨ys, y, by rw [hxs, List.concat_eq_append]⟩
        rw [htask ys y hxs, hend, ← hcas.1]
        rw [hxs] at hshape
        obtain ⟨S', hmoves, hshape'⟩ := shape_pop hk hshape
        rw [← hxs] at hmoves
        dsimp only
        refine ⟨_, .popped o ys y hxs, ?_⟩
        exact agrees_effect hthieves hmoves hshape' rfl rfl
      · rw [if_neg hcas]
        refine ⟨o, .internal o, h.setOwner _ (fun _ => rfl) ?_⟩
        intro S hshape howner
        unfold OwnerKnows at howner ⊢
        rw [hpc] at howner
        obtain ⟨c, S₀, n, hcall, hseen, hsum, hempty, hfinish, htask⟩ := howner
        refine ⟨c, S, _, hcall, hshape.seen, rfl, ?_, hfinish, htask⟩
        intro hlength
        exact hnoticed none c hcall (List.length_eq_zero_iff.mp hlength)

/-! ### The mask -/

/-- The bits of `v` together with those of the next lower places. -/
theorem testBit_smear {v w m n : ℕ} (hn : n = m + m)
    (h : ∀ i, w.testBit i = true ↔ ∃ d < m, v.testBit (i + d) = true) (i : ℕ) :
    (w ||| w >>> m).testBit i = true ↔ ∃ d < n, v.testBit (i + d) = true := by
  rw [Nat.testBit_or, Nat.testBit_shiftRight, Bool.or_eq_true, h, h]
  constructor
  · rintro (⟨d, hd, hbit⟩ | ⟨d, hd, hbit⟩)
    · exact ⟨d, by omega, hbit⟩
    · exact ⟨m + d, by omega, by rwa [← Nat.add_assoc, Nat.add_comm i m]⟩
  · rintro ⟨d, hd, hbit⟩
    rcases Nat.lt_or_ge d m with hlt | hge
    · exact Or.inl ⟨d, hlt, hbit⟩
    · refine Or.inr ⟨d - m, by omega, ?_⟩
      rwa [show m + i + (d - m) = i + d by omega]

/-- All bits from the highest one down. -/
theorem eq_two_pow_sub_one {v w : ℕ} (hv : v < 2 ^ 31)
    (h : ∀ i, w.testBit i = true ↔ ∃ d < 64, v.testBit (i + d) = true) :
    ∃ k ≤ 31, w = 2 ^ k - 1 := by
  rcases Nat.eq_zero_or_pos v with rfl | hpos
  · refine ⟨0, Nat.zero_le _, Nat.eq_of_testBit_eq ?_⟩
    intro i
    rw [Nat.pow_zero, Nat.sub_self, Nat.zero_testBit, Bool.eq_false_iff]
    intro hbit
    obtain ⟨d, -, hd⟩ := (h i).mp hbit
    rw [Nat.zero_testBit] at hd
    cases hd
  · have hlog : Nat.log2 v < 31 := (Nat.log2_lt hpos.ne').mpr hv
    refine ⟨Nat.log2 v + 1, hlog, Nat.eq_of_testBit_eq ?_⟩
    intro i
    rw [Nat.testBit_two_pow_sub_one, Bool.eq_iff_iff, h, decide_eq_true_iff]
    constructor
    · rintro ⟨d, -, hbit⟩
      by_contra hge
      have hhigh : v < 2 ^ (i + d) :=
        Nat.lt_log2_self.trans_le (Nat.pow_le_pow_right (by norm_num) (by omega))
      rw [Nat.testBit_lt_two_pow hhigh] at hbit
      cases hbit
    · intro hi
      refine ⟨Nat.log2 v - i, by omega, ?_⟩
      rw [Nat.add_sub_of_le (Nat.lt_succ_iff.mp hi)]
      exact Nat.testBit_log2 hpos.ne'

/-- The next power of 2 is one. -/
theorem nextPowerOf2_eq {n : ℕ} (hpos : 0 < n) (hle : n ≤ 2 ^ 31) :
    ∃ k ≤ 31, nextPowerOf2 n = 2 ^ k := by
  obtain ⟨v, rfl⟩ : ∃ v, n = v + 1 := ⟨n - 1, by omega⟩
  have hv : (v + 1 + (2 ^ 64 - 1)) % 2 ^ 64 = v := by omega
  have h1 : ∀ i, v.testBit i = true ↔ ∃ d < 1, v.testBit (i + d) = true := by
    intro i
    constructor
    · intro hbit
      exact ⟨0, Nat.one_pos, hbit⟩
    · rintro ⟨d, hd, hbit⟩
      rwa [Nat.lt_one_iff.mp hd] at hbit
  have h2 := testBit_smear (n := 2) rfl h1
  have h4 := testBit_smear (n := 4) rfl h2
  have h8 := testBit_smear (n := 8) rfl h4
  have h16 := testBit_smear (n := 16) rfl h8
  have h32 := testBit_smear (n := 32) rfl h16
  obtain ⟨k, hk, hw⟩ := eq_two_pow_sub_one (by omega) (testBit_smear (n := 64) rfl h32)
  have hbound : 2 ^ k ≤ 2 ^ 31 := Nat.pow_le_pow_right (by norm_num) hk
  have hpow : 0 < 2 ^ k := Nat.two_pow_pos k
  refine ⟨k, hk, ?_⟩
  unfold nextPowerOf2
  rw [hv]
  dsimp only
  rw [hw, Nat.sub_add_cancel hpow, Nat.mod_eq_of_lt (by omega)]

theorem Size.elementMask_eq (size : Size) : ∃ k ≤ 31, size.elementMask = 2 ^ k - 1 := by
  obtain ⟨k, hk, hpow⟩ := nextPowerOf2_eq size.pos size.le
  refine ⟨k, hk, ?_⟩
  unfold elementMask
  rw [hpow]

/-! ### Runs -/

/-- The step lemma. -/
theorem Agrees.step (hk : k ≤ 31) (h : Agrees k s o) (hnoticed : o.Noticed)
    (hfew : o.FewerThan (2 ^ 32)) (action : Action ι τ) :
    ∃ o', Observed.Step o (s.step (2 ^ k - 1) action).2 o' ∧
      Agrees k (s.step (2 ^ k - 1) action).1 o' := by
  cases action with
  | pushTask task =>
    unfold CasTaskStack.step
    cases s.owner with
    | idle =>
      dsimp only
      split_ifs with hfull
      · exact ⟨o, .internal o, h⟩
      · exact ⟨_, .call o none, agrees_pushTask hk h task hfull⟩
    | pushLoaded _ _ => exact ⟨o, .internal o, h⟩
    | pushSet _ => exact ⟨o, .internal o, h⟩
    | popLoaded _ => exact ⟨o, .internal o, h⟩
    | popLoop _ _ _ => exact ⟨o, .internal o, h⟩
  | popNextTask =>
    unfold CasTaskStack.step
    cases s.owner with
    | idle => exact ⟨_, .call o none, agrees_popNextTask h⟩
    | pushLoaded _ _ => exact ⟨o, .internal o, h⟩
    | pushSet _ => exact ⟨o, .internal o, h⟩
    | popLoaded _ => exact ⟨o, .internal o, h⟩
    | popLoop _ _ _ => exact ⟨o, .internal o, h⟩
  | owner fails => exact h.ownerStep hk hnoticed fails
  | stealTask i =>
    unfold CasTaskStack.step
    dsimp only
    cases s.thieves i with
    | idle => exact ⟨_, .call o (some i), agrees_stealTask h i⟩
    | stealLoop _ => exact ⟨o, .internal o, h⟩
    | stealRead _ _ => exact ⟨o, .internal o, h⟩
  | thief i fails => exact h.thiefStep hk hnoticed hfew i fails

theorem Agrees.runs (hk : k ≤ 31) (h : Agrees k s o) (hconserved : o.Conserved)
    (hnoticed : o.Noticed) (hfew : o.FewerThan (2 ^ 32)) (actions : List (Action ι τ)) :
    Runs (2 ^ k - 1) s o actions := by
  induction actions generalizing s o with
  | nil => exact ⟨h.contents hk, hconserved⟩
  | cons action actions ih =>
    obtain ⟨o', hstep, hnext⟩ := h.step hk hnoticed hfew action
    refine ⟨h.contents hk, hconserved, o', hstep, ?_⟩
    intro hfew'
    exact ih hnext (hstep.conserved hconserved) (hstep.noticed hnoticed) hfew'

end CasTaskStack

end Task
