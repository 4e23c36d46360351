import HpccPlatform.HashTable.Probing

/-!
# The hash table as a finite map

The purpose of a `SuperHashTable` is a finite map from find parameters, up to their equality, to
elements.  `Good` is the invariant of the table, `Represents` relates its elements to the map,
and `step_spec` says that every operation returns, keeps the invariant and does to the map what
`expected` says, unless it throws because the table cannot grow any more.

All of this needs a table with a slot.  A table is created with its size rounded up to a power
of two, and a size above `2 ^ 31` is rounded to zero: such a table has no slot at all, and a
search in it reads outside it.
-/

namespace SuperHash

open List

variable {E K : Type} {h : Hashing E K}

/-- Two elements with different find parameters. -/
def Differ (h : Hashing E K) (e f : E) : Prop :=
  h.sameParam (h.getFindParam e) (h.getFindParam f) = false

theorem Differ.symm {e f : E} (hd : Differ h e f) : Differ h f e := by
  unfold Differ at hd ⊢
  by_contra hsame
  rw [Bool.not_eq_false] at hsame
  rw [h.same_symm _ _ hsame] at hd
  exact absurd hd (by decide)

theorem pairwise_perm {l l' : List E} (hp : l ~ l') (hl : l.Pairwise (Differ h)) :
    l'.Pairwise (Differ h) :=
  (hp.pairwise_iff Differ.symm).mp hl

/-- A table of `n` slots in which every element can be found and no find parameter occurs
twice. -/
structure Sound (h : Hashing E K) (n : ℕ) (table : List (Option E)) : Prop where
  length : table.length = n
  settled : Probe.Settled n (home h n) (slotsOf table)
  distinct : (contents table).Pairwise (Differ h)

theorem contents_replicate (n : ℕ) : contents (List.replicate n (none : Option E)) = [] := by
  unfold contents
  induction n with
  | zero => rfl
  | succ n ih =>
    rw [List.replicate_succ, List.filterMap_cons_none rfl, ih]

theorem sound_replicate (n : ℕ) : Sound h n (List.replicate n none) := by
  refine ⟨List.length_replicate, ?_, ?_⟩
  · apply Probe.settled_empty
    intro w _
    exact slotsOf_replicate n w
  · rw [contents_replicate]
    exact List.Pairwise.nil

/-- A new element goes in the empty slot that the search for it ended at. -/
theorem Sound.put {n v : ℕ} {table : List (Option E)} {e : E} {stop : E → Bool}
    (hs : Sound h n table) (hv : v < n) (hnone : slotsOf table v = none)
    (hpassed : Passed n (slotsOf table) stop (home h n e) v)
    (hnew : ∀ f ∈ contents table, Differ h e f) :
    Sound h n (table.set v (some e)) ∧ contents (table.set v (some e)) ~ e :: contents table := by
  have hvl : v < table.length := hs.length ▸ hv
  obtain ⟨rest, hold, hset⟩ := contents_set hvl
  rw [hnone] at hold
  have hperm : contents (table.set v (some e)) ~ e :: contents table :=
    (hset (some e)).trans (hold.symm.cons e)
  refine ⟨⟨?_, ?_, ?_⟩, hperm⟩
  · rw [List.length_set, hs.length]
  · rw [slotsOf_set hvl]
    apply Probe.settled_put hs.settled
    intro u hu hlt
    obtain ⟨f, hf, -⟩ := hpassed u hu hlt
    rw [hf]
    exact Option.some_ne_none f
  · exact pairwise_perm hperm.symm (List.pairwise_cons.mpr ⟨hnew, hs.distinct⟩)

/-- An element takes the slot of the one with the same find parameter. -/
theorem Sound.replace {n v : ℕ} {table : List (Option E)} {e f : E} (hs : Sound h n table)
    (hf : slotsOf table v = some f)
    (hsame : h.sameParam (h.getFindParam f) (h.getFindParam e) = true) :
    Sound h n (table.set v (some e)) ∧
      ∃ rest, contents table ~ f :: rest ∧ contents (table.set v (some e)) ~ e :: rest := by
  have hvl := lt_length_of_slotsOf hf
  obtain ⟨rest, hold, hset⟩ := contents_set hvl
  rw [hf] at hold
  have hnew := hset (some e)
  have hhash : home h n e = home h n f := by
    unfold home Hashing.getHashFromElement
    rw [h.hash_eq _ _ hsame]
  refine ⟨⟨?_, ?_, ?_⟩, rest, hold, hnew⟩
  · rw [List.length_set, hs.length]
  · rw [slotsOf_set hvl]
    exact Probe.settled_replace hs.settled (hs.length ▸ hvl) hf hhash
  · have hpw := List.pairwise_cons.mp (pairwise_perm hold hs.distinct)
    refine pairwise_perm hnew.symm (List.pairwise_cons.mpr ⟨?_, hpw.2⟩)
    intro g hg
    have hfg := hpw.1 g hg
    unfold Differ at hfg ⊢
    by_contra heg
    rw [Bool.not_eq_false] at heg
    rw [h.same_trans _ _ _ hsame heg] at hfg
    exact absurd hfg (by decide)

/-- The loop of `expand`: every element of the old table goes into the new one. -/
theorem rehash_spec {k : ℕ} (hk : k ≤ 31) :
    ∀ old newtable : List (Option E), Sound h (2 ^ k) newtable →
      (contents old ++ contents newtable).Pairwise (Differ h) →
      (contents old).length + (contents newtable).length < 2 ^ k →
      ∃ table, rehash h (2 ^ k) old newtable = some table ∧ Sound h (2 ^ k) table ∧
        contents table ~ contents old ++ contents newtable := by
  intro old
  induction old with
  | nil =>
    intro newtable hs _ _
    exact ⟨newtable, rfl, hs, Perm.refl _⟩
  | cons a old ih =>
    intro newtable hs hpw hroom
    cases a with
    | none => exact ih newtable hs hpw hroom
    | some e =>
      have hcons : contents (some e :: old) = e :: contents old := rfl
      rw [hcons, List.length_cons] at hroom
      rw [hcons, List.cons_append, List.pairwise_cons] at hpw
      have hless : (contents newtable).length < newtable.length := by
        rw [hs.length]
        omega
      obtain ⟨z, hz, hnone⟩ := exists_empty hless
      have hhome : home h (2 ^ k) e < 2 ^ k := Nat.mod_lt _ (Nat.two_pow_pos k)
      obtain ⟨v, hv, hfree, hpassed, hempty⟩ := firstFree_spec hs.length hhome
        (hs.length ▸ hz) hnone (2 ^ k) (home h (2 ^ k) e) hhome (Nat.le_add_right _ _)
        (passed_start hhome)
      obtain ⟨hs', hperm⟩ := hs.put hv hempty hpassed
        (fun f hf => hpw.1 f (List.mem_append_right _ hf))
      have hmid : contents old ++ contents (newtable.set v (some e)) ~
          e :: (contents old ++ contents newtable) :=
        (hperm.append_left (contents old)).trans List.perm_middle
      obtain ⟨table, hrun, hsound, hcontents⟩ := ih (newtable.set v (some e)) hs'
        (pairwise_perm hmid.symm (List.pairwise_cons.mpr hpw))
        (by rw [hperm.length_eq, List.length_cons]; omega)
      refine ⟨table, ?_, hsound, hcontents.trans hmid⟩
      unfold rehash
      rw [and_mask hk]
      have hfree' : firstFree newtable (2 ^ k) (2 ^ k)
          ((h.getHashFromElement e).val % 2 ^ k) = some v := hfree
      rw [hfree']
      exact hrun

/-- The invariant of a table. -/
structure Good (h : Hashing E K) (t : Table E) : Prop where
  size : ∃ k ≤ 31, t.tablesize = 2 ^ k
  sound : Sound h t.tablesize t.table
  counted : t.tablecount = (contents t.table).length
  room : t.tablecount < t.tablesize

theorem Good.exists_empty {t : Table E} (hg : Good h t) :
    ∃ z < t.tablesize, slotsOf t.table z = none := by
  have hless : (contents t.table).length < t.table.length := by
    rw [← hg.counted, hg.sound.length]
    exact hg.room
  obtain ⟨z, hz, hnone⟩ := SuperHash.exists_empty hless
  exact ⟨z, hg.sound.length ▸ hz, hnone⟩

/-- The cache does not matter to the invariant. -/
theorem Good.setCache {t : Table E} (hg : Good h t) (v : ℕ) : Good h { t with cache := v } :=
  ⟨hg.size, hg.sound, hg.counted, hg.room⟩

theorem Good.and_mask {t : Table E} (hg : Good h t) (x : ℕ) :
    x &&& mask t.tablesize = x % t.tablesize := by
  obtain ⟨k, hk, hsize⟩ := hg.size
  rw [hsize]
  exact SuperHash.and_mask hk x

theorem Good.size_pos {t : Table E} (hg : Good h t) : 0 < t.tablesize :=
  Nat.zero_lt_of_lt hg.room

/-- What the search for `findParam` tells: the element with that parameter, or that there is
none and where one could be put. -/
theorem doFind_spec {t : Table E} (hg : Good h t) (fp : K) :
    ∃ v < t.tablesize,
      doFind h t (h.getHashFromFindParam fp).val fp = some (v, { t with cache := v }) ∧
      ((slotsOf t.table v = none ∧
          (∀ f ∈ contents t.table, h.sameParam (h.getFindParam f) fp = false) ∧
          Passed t.tablesize (slotsOf t.table) (fun et => h.matchesFindParam et fp)
            ((h.getHashFromFindParam fp).val % t.tablesize) v) ∨
        ∃ f, slotsOf t.table v = some f ∧ h.sameParam (h.getFindParam f) fp = true) := by
  obtain ⟨z, hz, hnone⟩ := hg.exists_empty
  have hvs : (h.getHashFromFindParam fp).val % t.tablesize < t.tablesize :=
    Nat.mod_lt _ hg.size_pos
  obtain ⟨v, hv, hprobe, hpassed, hend⟩ := probe_spec (fun et => h.matchesFindParam et fp)
    hg.sound.length hvs hz hnone
    (t.tablesize + 1) _ hvs (by omega) (passed_start hvs)
  refine ⟨v, hv, ?_, ?_⟩
  · unfold doFind
    rw [hg.and_mask]
    simp only [hprobe]
    rfl
  · obtain hempty | ⟨f, hf, hmatch⟩ := hend
    · refine .inl ⟨hempty, ?_, hpassed⟩
      intro f hf
      obtain ⟨w, hw⟩ := mem_contents.mp hf
      by_contra hsame
      rw [Bool.not_eq_false] at hsame
      have hwl : w < t.tablesize := hg.sound.length ▸ lt_length_of_slotsOf hw
      have hhome : home h t.tablesize f = (h.getHashFromFindParam fp).val % t.tablesize := by
        unfold home Hashing.getHashFromElement
        rw [h.hash_eq _ _ hsame]
      rcases Nat.lt_trichotomy
        (Probe.dist t.tablesize ((h.getHashFromFindParam fp).val % t.tablesize) w)
        (Probe.dist t.tablesize ((h.getHashFromFindParam fp).val % t.tablesize) v) with
        hlt | heq | hgt
      · obtain ⟨g, hwg, hno⟩ := hpassed w hwl hlt
        rw [hw] at hwg
        cases hwg
        exact absurd (hsame.symm.trans hno) (by decide)
      · rw [Probe.dist_inj hvs hwl hv heq, hempty] at hw
        exact absurd hw (by simp)
      · rw [← hhome] at hgt
        exact hg.sound.settled w hwl v hv f hw hgt hempty
    · exact .inr ⟨f, hf, hmatch⟩

/-- The search for a free slot for an element. -/
theorem doFindNew_spec {t : Table E} (hg : Good h t) (e : E) :
    ∃ v < t.tablesize,
      doFindNew t (h.getHashFromElement e).val = some (v, { t with cache := v }) ∧
      slotsOf t.table v = none ∧
      Passed t.tablesize (slotsOf t.table) (fun _ => false) (home h t.tablesize e) v := by
  obtain ⟨z, hz, hnone⟩ := hg.exists_empty
  have hvs : home h t.tablesize e < t.tablesize := Nat.mod_lt _ hg.size_pos
  obtain ⟨v, hv, hprobe, hpassed, hend⟩ := probe_spec (fun _ => false) hg.sound.length hvs hz hnone
    (t.tablesize + 1) _ hvs (by omega) (passed_start hvs)
  refine ⟨v, hv, ?_, ?_, hpassed⟩
  · unfold doFindNew
    rw [hg.and_mask]
    unfold home at hprobe
    simp only [hprobe]
    rfl
  · obtain hempty | ⟨f, hf, hmatch⟩ := hend
    · exact hempty
    · exact absurd hmatch (by decide)

/-- The search for an element by its address. -/
theorem doFindExact_spec [DecidableEq E] {t : Table E} (hg : Good h t) (e : E) :
    ∃ v < t.tablesize, doFindExact h t e = some (v, { t with cache := v }) ∧
      (slotsOf t.table v = some e ∨ slotsOf t.table v = none ∧ e ∉ contents t.table) := by
  unfold doFindExact
  split
  next hcache => exact ⟨t.cache, hcache.1, rfl, .inl (slotsOf_eq_some.mpr hcache.2)⟩
  next =>
    obtain ⟨z, hz, hnone⟩ := hg.exists_empty
    have hvs : home h t.tablesize e < t.tablesize := Nat.mod_lt _ hg.size_pos
    obtain ⟨v, hv, hprobe, hpassed, hend⟩ := probe_spec (fun cur => decide (cur = e))
      hg.sound.length hvs hz hnone
      (t.tablesize + 1) _ hvs (by omega) (passed_start hvs)
    refine ⟨v, hv, ?_, ?_⟩
    · rw [hg.and_mask]
      unfold home at hprobe
      simp only [hprobe]
      rfl
    · obtain hempty | ⟨f, hf, hmatch⟩ := hend
      · refine .inr ⟨hempty, ?_⟩
        intro hmem
        obtain ⟨w, hw⟩ := mem_contents.mp hmem
        have hwl : w < t.tablesize := hg.sound.length ▸ lt_length_of_slotsOf hw
        rcases Nat.lt_trichotomy (Probe.dist t.tablesize (home h t.tablesize e) w)
          (Probe.dist t.tablesize (home h t.tablesize e) v) with hlt | heq | hgt
        · obtain ⟨g, hwg, hno⟩ := hpassed w hwl hlt
          rw [hw] at hwg
          cases hwg
          exact absurd rfl (of_decide_eq_false hno)
        · rw [Probe.dist_inj hvs hwl hv heq, hempty] at hw
          exact absurd hw (by simp)
        · exact hg.sound.settled w hwl v hv e hw hgt hempty
      · rw [of_decide_eq_true hmatch] at hf
        exact .inl hf

/-- Emptying a slot closes the gap behind it and keeps every other element. -/
theorem doDeleteElement_spec {t : Table E} (hg : Good h t) {v : ℕ} {f : E}
    (hf : slotsOf t.table v = some f) :
    ∃ t', doDeleteElement h t v = some t' ∧ Good h t' ∧
      contents t.table ~ f :: contents t'.table := by
  obtain ⟨k, hk, hsize⟩ := hg.size
  obtain ⟨z, hz, hnone⟩ := hg.exists_empty
  have hvl := lt_length_of_slotsOf hf
  have hv : v < t.tablesize := hg.sound.length ▸ hvl
  have hvz : v ≠ z := by
    intro heq
    rw [heq, hnone] at hf
    exact absurd hf (by simp)
  have hholed := Probe.holed_of_settled hg.sound.settled hv
  rw [← slotsOf_set hvl] at hholed
  have hpos : Probe.dist t.tablesize v z ≠ 0 := by
    intro hzero
    exact hvz ((Probe.dist_eq_zero hv hz).mp hzero)
  have hdlt := Probe.dist_lt hv hz
  obtain ⟨table', hrun, hperm, hset⟩ : ∃ table',
      closeGap h t.tablesize t.tablesize (t.table.set v none) v v = some table' ∧
        table' ~ t.table.set v none ∧
        Probe.Settled t.tablesize (home h t.tablesize) (slotsOf table') := by
    rw [hsize] at hholed hv hz hpos hdlt ⊢
    refine closeGap_spec hk hz (2 ^ k) (t.table.set v none) v v ?_ hv ?_ ?_ ?_ ?_
    · rw [List.length_set, hg.sound.length, hsize]
    · rw [Probe.dist_self hv]
      exact hholed
    · rw [slotsOf_set hvl, Function.update_of_ne (Ne.symm hvz)]
      exact hnone
    · rw [Probe.dist_self hv]
      omega
    · omega
  obtain ⟨rest, hold, hnew⟩ := contents_set hvl
  rw [hf] at hold
  have hcontents : contents table' ~ rest := (hperm.filterMap id).trans (hnew none)
  have hall : contents t.table ~ f :: contents table' := hold.trans (hcontents.symm.cons f)
  refine ⟨{ t with table := table', tablecount := t.tablecount - 1 }, ?_, ?_, hall⟩
  · unfold doDeleteElement
    rw [hrun]
    rfl
  · have hcount := hg.counted
    rw [hall.length_eq, List.length_cons] at hcount
    refine ⟨hg.size, ⟨?_, hset, ?_⟩, ?_, ?_⟩
    · rw [hperm.length_eq, List.length_set, hg.sound.length]
    · exact (List.pairwise_cons.mp (pairwise_perm hall hg.sound.distinct)).2
    · simp only
      omega
    · exact lt_of_le_of_lt (Nat.sub_le _ _) hg.room

/-- A table with a new element in the slot found for it. -/
theorem Good.added {t : Table E} (hg : Good h t) {v : ℕ} {e : E} {stop : E → Bool}
    (hv : v < t.tablesize) (hnone : slotsOf t.table v = none)
    (hpassed : Passed t.tablesize (slotsOf t.table) stop (home h t.tablesize e) v)
    (hnew : ∀ f ∈ contents t.table, Differ h e f) (hroom : t.tablecount + 1 < t.tablesize) :
    Good h ({ t with tablecount := t.tablecount + 1 }.put v (some e)) ∧
      contents ({ t with tablecount := t.tablecount + 1 }.put v (some e)).table ~
        e :: contents t.table := by
  obtain ⟨hs, hperm⟩ := hg.sound.put hv hnone hpassed hnew
  refine ⟨⟨hg.size, hs, ?_, hroom⟩, hperm⟩
  unfold Table.put
  simp only
  rw [hperm.length_eq, List.length_cons, hg.counted]

/-- The loop of `expand` gives a table of the new size with the same elements. -/
theorem expandTo_spec {t : Table E} (hg : Good h t) {k : ℕ} (hk : k ≤ 31)
    (hle : t.tablesize ≤ 2 ^ k) :
    ∃ t', expandTo h t (2 ^ k) = some (false, t') ∧ Good h t' ∧ t'.tablesize = 2 ^ k ∧
      t'.tablecount = t.tablecount ∧ contents t'.table ~ contents t.table := by
  have hroom := hg.room
  have hcounted := hg.counted
  obtain ⟨table', hrun, hs, hperm⟩ := @rehash_spec E K h k hk t.table
    (List.replicate (2 ^ k) none) (sound_replicate _)
    (by rw [contents_replicate, List.append_nil]; exact hg.sound.distinct)
    (by rw [contents_replicate, List.length_nil]; omega)
  rw [contents_replicate, List.append_nil] at hperm
  refine ⟨{ t with table := table', tablesize := 2 ^ k }, ?_, ?_, rfl, rfl, hperm⟩
  · unfold expandTo
    rw [if_neg (Nat.not_lt.mpr hle), hrun]
    rfl
  · refine ⟨⟨k, hk, rfl⟩, hs, ?_, lt_of_lt_of_le hg.room hle⟩
    exact hg.counted.trans hperm.length_eq.symm

theorem getTableLimit_two_pow {k : ℕ} (hk : k ≤ 30) : getTableLimit (2 ^ k) = 2 ^ k * 3 / 4 := by
  have hle : 2 ^ k ≤ 2 ^ 30 := Nat.pow_le_pow_right (by decide) hk
  unfold getTableLimit
  rw [Nat.mod_eq_of_lt (by omega)]

theorem getTableLimit_top : getTableLimit (2 ^ 31) = 2 ^ 29 := by decide

/-- Below its limit a table has room for two elements. -/
theorem Good.room_of_limit {t : Table E} (hg : Good h t)
    (hlim : t.tablecount < getTableLimit t.tablesize) : t.tablecount + 1 < t.tablesize := by
  obtain ⟨k, hk, hsize⟩ := hg.size
  rw [hsize] at hlim ⊢
  by_cases h31 : k = 31
  · subst h31
    rw [getTableLimit_top] at hlim
    omega
  · rw [getTableLimit_two_pow (by omega)] at hlim
    omega

/-- `expand` doubles the table and leaves room in it; it throws from the largest size only. -/
theorem expand_spec {t : Table E} (hg : Good h t) :
    (∃ t', expand h t = some (false, t') ∧ Good h t' ∧ t'.tablecount = t.tablecount ∧
      t'.tablecount + 1 < t'.tablesize ∧ contents t'.table ~ contents t.table) ∨
    (t.tablesize = 2 ^ 31 ∧ expand h t = some (true, t)) := by
  obtain ⟨k, hk, hsize⟩ := hg.size
  unfold expand
  by_cases h31 : k = 31
  · subst h31
    refine .inr ⟨hsize, ?_⟩
    rw [hsize]
    unfold expandTo
    rw [if_pos (by rw [hsize]; decide)]
  · have hlt : 2 ^ (k + 1) ≤ 2 ^ 31 := Nat.pow_le_pow_right (by decide) (by omega)
    have hdouble : (t.tablesize + t.tablesize) % 2 ^ 32 = 2 ^ (k + 1) := by
      rw [hsize, ← Nat.two_mul, ← Nat.pow_succ']
      exact Nat.mod_eq_of_lt (by omega)
    have hle : t.tablesize ≤ 2 ^ (k + 1) := by
      rw [hsize]
      exact Nat.pow_le_pow_right (by decide) (by omega)
    rw [hdouble]
    obtain ⟨t', hrun, hg', hsize', hcount, hperm⟩ :=
      @expandTo_spec E K h t hg (k + 1) (by omega) hle
    refine .inl ⟨t', hrun, hg', hcount, ?_, hperm⟩
    have hroom := hg.room
    have hpos : 0 < 2 ^ k := Nat.two_pow_pos k
    rw [hcount, hsize', Nat.pow_succ']
    omega

/-- The size that `ensure` chooses; it throws only for more elements than the limit of the
largest table. -/
theorem growTo_spec {k mincount : ℕ} :
    ∀ fuel j, k ≤ j → j ≤ 31 → 32 ≤ fuel + j →
      (∃ i ≤ 31, k ≤ i ∧ growTo (2 ^ k) mincount fuel (2 ^ j) = some (some (2 ^ i))) ∨
      (growTo (2 ^ k) mincount fuel (2 ^ j) = some none ∧ (j < 31 → 2 ^ 29 < mincount)) := by
  intro fuel
  induction fuel with
  | zero =>
    intro j _ hj hfuel
    omega
  | succ fuel ih =>
    intro j hkj hj hfuel
    unfold growTo
    by_cases h31 : j = 31
    · subst h31
      have hwrap : (2 ^ 31 + 2 ^ 31) % 2 ^ 32 = 0 := by decide
      simp only [hwrap]
      rw [if_pos (Nat.two_pow_pos k)]
      exact .inr ⟨rfl, fun h => absurd h (by decide)⟩
    · have hlt : 2 ^ (j + 1) ≤ 2 ^ 31 := Nat.pow_le_pow_right (by decide) (by omega)
      have hdouble : (2 ^ j + 2 ^ j) % 2 ^ 32 = 2 ^ (j + 1) := by
        rw [← Nat.two_mul, ← Nat.pow_succ']
        exact Nat.mod_eq_of_lt (by omega)
      have hge : ¬ 2 ^ (j + 1) < 2 ^ k :=
        Nat.not_lt.mpr (Nat.pow_le_pow_right (by decide) (by omega))
      simp only [hdouble]
      rw [if_neg hge]
      by_cases hlim : mincount ≤ getTableLimit (2 ^ (j + 1))
      · rw [if_pos hlim]
        exact .inl ⟨j + 1, by omega, by omega, rfl⟩
      · rw [if_neg hlim]
        obtain hfound | ⟨hthrown, hbig⟩ := ih (j + 1) (by omega) (by omega) (by omega)
        · exact .inl hfound
        · refine .inr ⟨hthrown, ?_⟩
          intro _
          by_cases htop : j + 1 = 31
          · rw [htop, getTableLimit_top] at hlim
            omega
          · exact hbig (by omega)

end SuperHash
