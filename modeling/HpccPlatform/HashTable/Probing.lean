import HpccPlatform.HashTable.SuperHash

/-!
# The loops of the hash table

What each loop of `SuperHashTable` does to a table that is settled and has an empty slot: the
search stops at the first slot that is empty or accepted, filling an empty slot found that way
keeps the table settled, and the loop of `doDeleteElement` closes the gap it opened.  The
elements of a table are followed as the list `contents` up to a permutation, which no order of
the slots disturbs.
-/

namespace SuperHash

open List

variable {E K : Type} {h : Hashing E K} {table : List (Option E)} {n v : ℕ}

/-- The slots of a table as a function. -/
def slotsOf (table : List (Option E)) (v : ℕ) : Option E := table[v]?.join

/-- The elements of a table, in the order of their slots. -/
def contents (table : List (Option E)) : List E := table.filterMap id

/-- The slot where the search for an element starts. -/
def home (h : Hashing E K) (n : ℕ) (e : E) : ℕ := (h.getHashFromElement e).val % n

theorem slotsOf_eq_none_of_getElem? (hv : table[v]? = some none) : slotsOf table v = none := by
  unfold slotsOf
  rw [hv]
  rfl

theorem slotsOf_eq_some {e : E} : slotsOf table v = some e ↔ table[v]? = some (some e) := by
  unfold slotsOf
  rw [Option.join_eq_some_iff]

/-- A slot inside the table is empty or holds an element. -/
theorem slot_cases (hv : v < table.length) :
    table[v]? = some none ∧ slotsOf table v = none ∨
      ∃ e, table[v]? = some (some e) ∧ slotsOf table v = some e := by
  obtain ⟨a, ha⟩ : ∃ a, table[v]? = some a := ⟨table[v], List.getElem?_eq_getElem hv⟩
  cases a with
  | none => exact .inl ⟨ha, slotsOf_eq_none_of_getElem? ha⟩
  | some e => exact .inr ⟨e, ha, slotsOf_eq_some.mpr ha⟩

theorem lt_length_of_slotsOf {e : E} (hv : slotsOf table v = some e) : v < table.length := by
  have hget := slotsOf_eq_some.mp hv
  exact (List.getElem?_eq_some_iff.mp hget).1

theorem slotsOf_set (hv : v < table.length) (a : Option E) :
    slotsOf (table.set v a) = Function.update (slotsOf table) v a := by
  funext w
  unfold slotsOf
  rw [List.getElem?_set]
  by_cases hvw : v = w
  · subst hvw
    rw [if_pos rfl, if_pos hv, Function.update_self]
    rfl
  · rw [if_neg hvw, Function.update_of_ne (Ne.symm hvw)]

theorem slotsOf_replicate (n w : ℕ) : slotsOf (List.replicate n (none : Option E)) w = none := by
  unfold slotsOf
  rw [List.getElem?_replicate]
  split
  · rfl
  · rfl

theorem mem_contents {e : E} : e ∈ contents table ↔ ∃ v, slotsOf table v = some e := by
  unfold contents
  rw [List.mem_filterMap]
  constructor
  · rintro ⟨a, ha, hid⟩
    obtain ⟨v, hv⟩ := List.mem_iff_getElem?.mp ha
    refine ⟨v, slotsOf_eq_some.mpr ?_⟩
    rw [hv]
    exact congrArg some hid
  · rintro ⟨v, hv⟩
    exact ⟨some e, List.mem_iff_getElem?.mpr ⟨v, slotsOf_eq_some.mp hv⟩, rfl⟩

/-- Writing a slot exchanges one entry of the contents for another. -/
theorem contents_set (hv : v < table.length) :
    ∃ rest, contents table ~ (slotsOf table v).toList ++ rest ∧
      ∀ a : Option E, contents (table.set v a) ~ a.toList ++ rest := by
  have hcons : ∀ (a : Option E) (l : List (Option E)),
      contents (a :: l) = a.toList ++ contents l := by
    intro a l
    cases a with
    | none => rfl
    | some e => rfl
  refine ⟨contents (table.eraseIdx v), ?_, ?_⟩
  · have hperm := (List.getElem_cons_eraseIdx_perm hv).symm.filterMap id
    have hslot : slotsOf table v = table[v] := by
      unfold slotsOf
      rw [List.getElem?_eq_getElem hv]
      rfl
    rw [hslot, ← hcons]
    exact hperm
  · intro a
    rw [← hcons]
    exact (List.set_perm_cons_eraseIdx hv a).filterMap id

/-- A table with fewer elements than slots has an empty slot. -/
theorem exists_empty (hroom : (contents table).length < table.length) :
    ∃ z < table.length, slotsOf table z = none := by
  by_contra hall
  push Not at hall
  apply absurd hroom
  have hsome : ∀ a ∈ table, (id a).isSome = true := by
    intro a ha
    obtain ⟨v, hv, rfl⟩ := List.mem_iff_getElem.mp ha
    have hne := hall v hv
    unfold slotsOf at hne
    rw [List.getElem?_eq_getElem hv] at hne
    exact Option.isSome_iff_ne_none.mpr hne
  unfold contents
  rw [List.length_filterMap_eq_countP, List.countP_eq_length.mpr hsome]
  exact lt_irrefl _

/-- The slots passed on the way from `vs` to `v` are full, with elements that `stop` does not
accept. -/
def Passed (n : ℕ) (slots : ℕ → Option E) (stop : E → Bool) (vs v : ℕ) : Prop :=
  ∀ u < n, Probe.dist n vs u < Probe.dist n vs v → ∃ e, slots u = some e ∧ stop e = false

theorem passed_start {slots : ℕ → Option E} {stop : E → Bool} {vs : ℕ} (hvs : vs < n) :
    Passed n slots stop vs vs := by
  intro u _ hlt
  rw [Probe.dist_self hvs] at hlt
  omega

/-- One more full slot is passed; where the circle would close, all of them have been. -/
theorem passed_succ {slots : ℕ → Option E} {stop : E → Bool} {vs : ℕ} {e : E} (hvs : vs < n)
    (hv : v < n) (hpassed : Passed n slots stop vs v) (he : slots v = some e)
    (hstop : stop e = false) {z : ℕ} (hz : z < n) (hnone : slots z = none) :
    Probe.dist n vs v + 1 < n ∧ Passed n slots stop vs (Probe.succ n v) := by
  have hlast : ∀ u < n, Probe.dist n vs u < Probe.dist n vs v + 1 →
      ∃ f, slots u = some f ∧ stop f = false := by
    intro u hu hlt
    by_cases huv : Probe.dist n vs u = Probe.dist n vs v
    · have hu' : u = v := Probe.dist_inj hvs hu hv huv
      exact ⟨e, by rw [hu', he], hstop⟩
    · exact hpassed u hu (by omega)
  have hnext : Probe.dist n vs v + 1 < n := by
    by_contra hge
    have hd := Probe.dist_lt hvs hz
    obtain ⟨f, hf, -⟩ := hlast z hz (by omega)
    rw [hnone] at hf
    exact absurd hf (by simp)
  refine ⟨hnext, ?_⟩
  intro u hu hlt
  rw [Probe.dist_succ hvs hv hnext] at hlt
  exact hlast u hu hlt

/-- The search ends at the first slot that is empty or accepted. -/
theorem probe_spec (stop : E → Bool) {vs z : ℕ} (hlen : table.length = n) (hvs : vs < n)
    (hz : z < n) (hnone : slotsOf table z = none) :
    ∀ fuel v, v < n → n ≤ fuel + Probe.dist n vs v → Passed n (slotsOf table) stop vs v →
      ∃ r < n, probe table n stop vs fuel v = some r ∧ Passed n (slotsOf table) stop vs r ∧
        (slotsOf table r = none ∨ ∃ e, slotsOf table r = some e ∧ stop e = true) := by
  intro fuel
  induction fuel with
  | zero =>
    intro v hv hfuel _
    have hd := Probe.dist_lt hvs hv
    omega
  | succ fuel ih =>
    intro v hv hfuel hpassed
    unfold probe
    obtain ⟨hget, hslot⟩ | ⟨e, hget, hslot⟩ := slot_cases (hlen ▸ hv)
    · rw [hget]
      exact ⟨v, hv, rfl, hpassed, .inl hslot⟩
    · rw [hget]
      cases hstop : stop e with
      | true =>
        simp only [hstop, if_true]
        exact ⟨v, hv, rfl, hpassed, .inr ⟨e, hslot, hstop⟩⟩
      | false =>
        obtain ⟨hnext, hpassed'⟩ := passed_succ hvs hv hpassed hslot hstop hz hnone
        have hne : Probe.succ n v ≠ vs := by
          intro heq
          have := (Probe.succ_eq_start hvs hv).mp heq
          omega
        simp only [hstop, hne, Bool.false_eq_true, if_false]
        apply ih (Probe.succ n v) (Probe.succ_lt hv) _ hpassed'
        rw [Probe.dist_succ hvs hv hnext]
        omega

/-- The loop of `expand` finds the first empty slot. -/
theorem firstFree_spec {vs z : ℕ} (hlen : table.length = n) (hvs : vs < n)
    (hz : z < n) (hnone : slotsOf table z = none) :
    ∀ fuel v, v < n → n ≤ fuel + Probe.dist n vs v →
      Passed n (slotsOf table) (fun _ => false) vs v →
      ∃ r < n, firstFree table n fuel v = some r ∧
        Passed n (slotsOf table) (fun _ => false) vs r ∧ slotsOf table r = none := by
  intro fuel
  induction fuel with
  | zero =>
    intro v hv hfuel _
    have hd := Probe.dist_lt hvs hv
    omega
  | succ fuel ih =>
    intro v hv hfuel hpassed
    unfold firstFree
    obtain ⟨hget, hslot⟩ | ⟨e, hget, hslot⟩ := slot_cases (hlen ▸ hv)
    · rw [hget]
      exact ⟨v, hv, rfl, hpassed, hslot⟩
    · rw [hget]
      obtain ⟨hnext, hpassed'⟩ := passed_succ hvs hv hpassed hslot rfl hz hnone
      apply ih (Probe.succ n v) (Probe.succ_lt hv) _ hpassed'
      rw [Probe.dist_succ hvs hv hnext]
      omega

/-- The mask of a table whose size is a power of two takes the remainder. -/
theorem and_mask {k : ℕ} (hk : k ≤ 31) (x : ℕ) : x &&& mask (2 ^ k) = x % 2 ^ k := by
  have hle : 2 ^ k ≤ 2 ^ 31 := Nat.pow_le_pow_right (by decide) hk
  have hpos : 0 < 2 ^ k := Nat.two_pow_pos k
  have hmask : mask (2 ^ k) = 2 ^ k - 1 := by
    unfold mask
    have hsum : 2 ^ k + (2 ^ 32 - 1) = (2 ^ k - 1) + 2 ^ 32 := by omega
    rw [hsum, Nat.add_mod_right]
    exact Nat.mod_eq_of_lt (by omega)
  rw [hmask, Nat.and_two_pow_sub_one_eq_mod]

/-- The distance that `doDeleteElement` computes. -/
theorem diff_eq_dist {k a b : ℕ} (hk : k ≤ 31) (hb : b < 2 ^ k) :
    diff (2 ^ k) a b = Probe.dist (2 ^ k) b a := by
  have hdvd : (2 ^ k : ℕ) ∣ 2 ^ 32 := Nat.pow_dvd_pow 2 (by omega)
  unfold diff Probe.dist
  rw [and_mask hk, Nat.mod_mod_of_dvd _ hdvd]
  obtain ⟨c, hc⟩ := hdvd
  have hsum : a + 2 ^ k + 2 ^ 32 - b = (a + 2 ^ k - b) + 2 ^ k * c := by omega
  rw [hsum, Nat.add_mul_mod_self_left]

/-- The loop of `doDeleteElement` settles the table and only moves elements; the empty slot `z`
ends it. -/
theorem closeGap_spec {k z : ℕ} (hk : k ≤ 31) (hz : z < 2 ^ k) :
    ∀ fuel (table : List (Option E)) v vn, table.length = 2 ^ k → vn < 2 ^ k →
      Probe.Holed (2 ^ k) (home h (2 ^ k)) (slotsOf table) v (Probe.dist (2 ^ k) v vn) →
      slotsOf table z = none → Probe.dist (2 ^ k) v vn < Probe.dist (2 ^ k) v z →
      Probe.dist (2 ^ k) vn z ≤ fuel →
      ∃ table', closeGap h (2 ^ k) fuel table v vn = some table' ∧ table' ~ table ∧
        Probe.Settled (2 ^ k) (home h (2 ^ k)) (slotsOf table') := by
  have hhome : ∀ e, home h (2 ^ k) e < 2 ^ k := by
    intro e
    exact Nat.mod_lt _ (Nat.two_pow_pos k)
  intro fuel
  induction fuel with
  | zero =>
    intro table v vn _ hvn hholed _ hbefore hfuel
    have h1 := Probe.dist_by_way hholed.lt hvn hz
    have h2 := Probe.dist_lt hholed.lt hvn
    omega
  | succ fuel ih =>
    intro table v vn hlen hvn hholed hnone hbefore hfuel
    have hv := hholed.lt
    have h1 := Probe.dist_by_way hv hvn hz
    have h2 := Probe.dist_lt hv hz
    have hlt := Probe.succ_lt hvn
    have hd : Probe.dist (2 ^ k) v (Probe.succ (2 ^ k) vn) = Probe.dist (2 ^ k) v vn + 1 :=
      Probe.dist_succ hv hvn (by omega)
    have h3 := Probe.dist_by_way hv hlt hz
    have h4 := Probe.dist_lt hlt hz
    unfold closeGap
    have hin : Probe.succ (2 ^ k) vn < table.length := by omega
    obtain ⟨hget, hslot⟩ | ⟨e, hget, hslot⟩ := slot_cases hin
    · simp only [hget]
      exact ⟨table, rfl, Perm.refl _, hholed.settled hlt hd hhome hslot⟩
    · have hnz : Probe.succ (2 ^ k) vn ≠ z := by
        intro heq
        rw [heq, hnone] at hslot
        exact absurd hslot (by simp)
      have hpos : Probe.dist (2 ^ k) (Probe.succ (2 ^ k) vn) z ≠ 0 := by
        intro hzero
        exact hnz ((Probe.dist_eq_zero hlt hz).mp hzero)
      simp only [hget, and_mask hk, diff_eq_dist hk hv]
      have hhash : (h.getHashFromElement e).val % 2 ^ k = home h (2 ^ k) e := rfl
      rw [hhash, diff_eq_dist hk (hhome e)]
      by_cases hfar : Probe.dist (2 ^ k) v (Probe.succ (2 ^ k) vn) ≤
          Probe.dist (2 ^ k) (home h (2 ^ k) e) (Probe.succ (2 ^ k) vn)
      · -- the element moves into the hole, and the walk goes on from the hole it leaves
        rw [if_pos hfar]
        have hmove := hholed.move hlt hd hslot hfar (hhome e)
        have hvl : v < table.length := by omega
        have hsl : Probe.succ (2 ^ k) vn < (table.set v (some e)).length := by
          rw [List.length_set]
          omega
        have hslots : slotsOf ((table.set v (some e)).set (Probe.succ (2 ^ k) vn) none) =
            Function.update (Function.update (slotsOf table) v (some e))
              (Probe.succ (2 ^ k) vn) none := by
          rw [slotsOf_set hsl, slotsOf_set hvl]
        obtain ⟨table', hrun, hperm, hset⟩ := ih
          ((table.set v (some e)).set (Probe.succ (2 ^ k) vn) none) (Probe.succ (2 ^ k) vn)
          (Probe.succ (2 ^ k) vn)
          (by rw [List.length_set, List.length_set, hlen]) hlt
          (by rw [hslots, Probe.dist_self hlt]; exact hmove)
          (by
            rw [hslots, Function.update_of_ne (Ne.symm hnz), Function.update_of_ne]
            · exact hnone
            · intro heq
              rw [heq, Probe.dist_self hv] at hbefore
              omega)
          (by rw [Probe.dist_self hlt]; omega) (by omega)
        refine ⟨table', hrun, hperm.trans ?_, hset⟩
        have hswap := List.set_set_perm hvl hin
        obtain ⟨_, hev⟩ := List.getElem?_eq_some_iff.mp hget
        have hvnone : table[v] = none := by
          have hslotv := hholed.hole
          unfold slotsOf at hslotv
          rw [List.getElem?_eq_getElem hvl] at hslotv
          exact hslotv
        rw [hev, hvnone] at hswap
        exact hswap
      · rw [if_neg hfar]
        have hstay := hholed.stay hlt hd hslot (by omega) (hhome e)
        exact ih table v (Probe.succ (2 ^ k) vn) hlen hlt (by rw [hd]; exact hstay) hnone
          (by omega) (by omega)

end SuperHash
