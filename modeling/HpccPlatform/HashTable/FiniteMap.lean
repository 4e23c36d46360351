import HpccPlatform.HashTable.Refinement

/-!
# Runs of the hash table

The map that a run of operations builds, and the table that the code builds beside it.  `Run`
takes both through the same operations from a table of any initial size; `Refines` says what a
caller sees of the table, compared with the map.  `refines_iff` is the result: every run refines
the map exactly when the initial size is at most `2 ^ 31`.
-/

namespace SuperHash

open List

variable {E K : Type} {h : Hashing E K}

/-- The map after `e` has been put under its find parameter. -/
def putKey (h : Hashing E K) (m : K → Option E) (e : E) (k : K) : Option E :=
  if h.sameParam (h.getFindParam e) k then some e else m k

/-- The map without `fp`. -/
def eraseKey (h : Hashing E K) (m : K → Option E) (fp k : K) : Option E :=
  if h.sameParam fp k then none else m k

/-- The elements `l` are those of the map `m`. -/
def Represents (h : Hashing E K) (l : List E) (m : K → Option E) : Prop :=
  ∀ k e, m k = some e ↔ e ∈ l ∧ h.sameParam (h.getFindParam e) k = true

section Lists

variable {l l' : List E} {m : K → Option E} {e f : E}

theorem represents_nil : Represents h [] (fun _ => none) := by
  intro k e
  constructor
  · intro hk
    exact absurd hk (by simp)
  · rintro ⟨hmem, -⟩
    exact absurd hmem List.not_mem_nil

theorem Represents.perm (hr : Represents h l m) (hp : l' ~ l) : Represents h l' m := by
  intro k e
  rw [hr k e, hp.mem_iff]

theorem Represents.mem_iff (hr : Represents h l m) : e ∈ l ↔ m (h.getFindParam e) = some e := by
  rw [hr]
  exact ⟨fun hmem => ⟨hmem, h.same_refl _⟩, fun hmem => hmem.1⟩

/-- No element has a parameter that the map does not have. -/
theorem Represents.eq_none_iff (hr : Represents h l m) (k : K) :
    m k = none ↔ ∀ e ∈ l, h.sameParam (h.getFindParam e) k = false := by
  constructor
  · intro hk e he
    by_contra hsame
    rw [Bool.not_eq_false] at hsame
    rw [(hr k e).mpr ⟨he, hsame⟩] at hk
    exact absurd hk (by simp)
  · intro hall
    cases hk : m k with
    | none => rfl
    | some e =>
      obtain ⟨hmem, hsame⟩ := (hr k e).mp hk
      rw [hall e hmem] at hsame
      exact absurd hsame (by decide)

/-- An element in front of others with other parameters. -/
theorem Represents.cons (hr : Represents h l m) (hpw : (e :: l).Pairwise (Differ h)) :
    Represents h (e :: l) (putKey h m e) := by
  intro k f
  unfold putKey
  have hdiffer := (List.pairwise_cons.mp hpw).1
  by_cases hsame : h.sameParam (h.getFindParam e) k = true
  · rw [if_pos hsame]
    constructor
    · intro heq
      cases heq
      exact ⟨List.mem_cons_self, hsame⟩
    · rintro ⟨hmem, hf⟩
      rcases List.mem_cons.mp hmem with rfl | hmem
      · rfl
      · have hef := hdiffer f hmem
        unfold Differ at hef
        rw [h.same_trans _ _ _ hsame (h.same_symm _ _ hf)] at hef
        exact absurd hef (by decide)
  · rw [if_neg hsame, hr k f]
    constructor
    · rintro ⟨hmem, hf⟩
      exact ⟨List.mem_cons_of_mem e hmem, hf⟩
    · rintro ⟨hmem, hf⟩
      rcases List.mem_cons.mp hmem with rfl | hmem
      · exact absurd hf hsame
      · exact ⟨hmem, hf⟩

/-- The elements behind `f` are those of the map without its parameter. -/
theorem Represents.tail (hr : Represents h (f :: l) m) (hpw : (f :: l).Pairwise (Differ h))
    {fp : K} (hfp : h.sameParam (h.getFindParam f) fp = true) :
    Represents h l (eraseKey h m fp) := by
  intro k g
  unfold eraseKey
  have hdiffer := (List.pairwise_cons.mp hpw).1
  by_cases hsame : h.sameParam fp k = true
  · rw [if_pos hsame]
    constructor
    · intro heq
      exact absurd heq (by simp)
    · rintro ⟨hmem, hg⟩
      have hfg := hdiffer g hmem
      unfold Differ at hfg
      have hfk := h.same_trans _ _ _ hfp hsame
      rw [h.same_trans _ _ _ hfk (h.same_symm _ _ hg)] at hfg
      exact absurd hfg (by decide)
  · rw [if_neg hsame, hr k g]
    constructor
    · rintro ⟨hmem, hg⟩
      rcases List.mem_cons.mp hmem with rfl | hmem
      · exact absurd (h.same_trans _ _ _ (h.same_symm _ _ hfp) hg) hsame
      · exact ⟨hmem, hg⟩
    · rintro ⟨hmem, hg⟩
      exact ⟨List.mem_cons_of_mem f hmem, hg⟩

/-- Erasing a parameter that the new element has makes no difference to putting it. -/
theorem putKey_eraseKey {fp : K} (hfp : h.sameParam (h.getFindParam e) fp = true) :
    putKey h (eraseKey h m fp) e = putKey h m e := by
  funext k
  unfold putKey eraseKey
  by_cases hsame : h.sameParam (h.getFindParam e) k = true
  · rw [if_pos hsame, if_pos hsame]
  · rw [if_neg hsame, if_neg hsame, if_neg]
    intro hk
    exact hsame (h.same_trans _ _ _ hfp hk)

/-- An element takes the place of one with the same parameter. -/
theorem Represents.exchange (hr : Represents h (f :: l) m) (hpw : (f :: l).Pairwise (Differ h))
    (hpw' : (e :: l).Pairwise (Differ h))
    (hsame : h.sameParam (h.getFindParam f) (h.getFindParam e) = true) :
    Represents h (e :: l) (putKey h m e) := by
  have htail := (hr.tail hpw hsame).cons hpw'
  rw [putKey_eraseKey (h.same_refl _)] at htail
  exact htail

variable {t : Table E}

theorem table_at (t : Table E) (v : ℕ) : t.at v = slotsOf t.table v := rfl

/-- The parameters of an element not in the map differ from all others. -/
theorem Represents.differ (hr : Represents h l m)
    (hnone : m (h.getFindParam e) = none) : ∀ f ∈ l, Differ h e f := by
  intro f hf
  have hfe := (hr.eq_none_iff _).mp hnone f hf
  exact Differ.symm hfe

/-- The map at `fp` is what the search for it found. -/
theorem Represents.eq_slot {v : ℕ} {fp : K} (hr : Represents h (contents t.table) m)
    (hend : (slotsOf t.table v = none ∧
        ∀ f ∈ contents t.table, h.sameParam (h.getFindParam f) fp = false) ∨
      ∃ f, slotsOf t.table v = some f ∧ h.sameParam (h.getFindParam f) fp = true) :
    slotsOf t.table v = m fp := by
  obtain ⟨hempty, hall⟩ | ⟨f, hf, hsame⟩ := hend
  · rw [hempty, (hr.eq_none_iff fp).mpr hall]
  · rw [hf, (hr fp f).mpr ⟨mem_contents.mpr ⟨v, hf⟩, hsame⟩]

/-- The new element in the empty slot that `doFind` gave. -/
theorem answered_put {v : ℕ} {stop : E → Bool} (hg : Good h t)
    (hr : Represents h (contents t.table) m) (hm : m (h.getFindParam e) = none)
    (hv : v < t.tablesize) (hempty : slotsOf t.table v = none)
    (hpassed : Passed t.tablesize (slotsOf t.table) stop (home h t.tablesize e) v)
    (hroom : t.tablecount + 1 < t.tablesize) :
    Good h ({ t with tablecount := t.tablecount + 1, cache := v }.put v (some e)) ∧
      Represents h
        (contents ({ t with tablecount := t.tablecount + 1, cache := v }.put v (some e)).table)
        (putKey h m e) := by
  obtain ⟨hg', hperm⟩ := (hg.setCache v).added hv hempty hpassed (hr.differ hm) hroom
  refine ⟨hg', ?_⟩
  refine (hr.cons ?_).perm hperm
  exact List.pairwise_cons.mpr ⟨hr.differ hm, hg.sound.distinct⟩

/-- Deleting the element `f` takes its parameter out of the map. -/
theorem answered_delete {v : ℕ} {fp : K} (hg : Good h t)
    (hr : Represents h (contents t.table) m) (hf : slotsOf t.table v = some f)
    (hsame : h.sameParam (h.getFindParam f) fp = true) :
    ∃ t', doDeleteElement h t v = some t' ∧ Good h t' ∧
      Represents h (contents t'.table) (eraseKey h m fp) := by
  obtain ⟨t', hrun, hg', hperm⟩ := doDeleteElement_spec hg hf
  refine ⟨t', hrun, hg', ?_⟩
  exact (hr.perm hperm.symm).tail (pairwise_perm hperm hg.sound.distinct) hsame

end Lists

section Operations

variable [DecidableEq E]

/-- The reply of each operation and the map behind it, were there no limit on the size. -/
def expected (h : Hashing E K) (m : K → Option E) :
    Operation E K → Reply E × (K → Option E)
  | .doAdd donor replace =>
    if (m (h.getFindParam donor)).isSome && !replace then (.flag false, m)
    else (.flag true, putKey h m donor)
  | .addNew donor => (.done, putKey h m donor)
  | .remove fp => (.flag (m fp).isSome, eraseKey h m fp)
  | .removeExact et =>
    if m (h.getFindParam et) = some et then (.flag true, eraseKey h m (h.getFindParam et))
    else (.flag false, m)
  | .ensure _ => (.done, m)
  | .releaseAll => (.done, fun _ => none)
  | .find fp => (.element (m fp), m)
  | .findExact et => (.element (if m (h.getFindParam et) = some et then some et else none), m)

/-- `addNew` is for a find parameter that is not in the table. -/
def Permitted (h : Hashing E K) (m : K → Option E) : Operation E K → Prop
  | .addNew donor => m (h.getFindParam donor) = none
  | _ => True

/-- The operation needs more than `2 ^ 31` slots. -/
def TooLarge (t : Table E) : Operation E K → Prop
  | .doAdd _ _ => t.tablesize = 2 ^ 31 ∧ 2 ^ 29 ≤ t.tablecount
  | .addNew _ => t.tablesize = 2 ^ 31 ∧ 2 ^ 29 ≤ t.tablecount
  | .ensure mincount => 2 ^ 29 < mincount
  | _ => False

/-- The operation returned from `t` with the table `t'`, as the map has it or by throwing. -/
structure Answered (h : Hashing E K) (t : Table E) (m : K → Option E) (op : Operation E K)
    (reply : Reply E) (t' : Table E) : Prop where
  good : Good h t'
  outcome : (reply = (expected h m op).1 ∧ Represents h (contents t'.table) (expected h m op).2) ∨
    (reply = .thrown ∧ TooLarge t op ∧ Represents h (contents t'.table) m)

variable {t : Table E} {m : K → Option E}

theorem doAdd_spec (hg : Good h t) (hr : Represents h (contents t.table) m) (e : E)
    (replace : Bool) :
    ∃ reply t', doAdd h t e replace = some (reply, t') ∧
      Answered h t m (.doAdd e replace) reply t' := by
  obtain ⟨v, hv, hfind, hend⟩ := doFind_spec hg (h.getFindParam e)
  have hhash : (h.getHashFromElement e).val = (h.getHashFromFindParam (h.getFindParam e)).val :=
    rfl
  have hslot := hr.eq_slot (hend.imp (fun hx => ⟨hx.1, hx.2.1⟩) id)
  unfold doAdd
  simp only [hhash, hfind, Option.bind_eq_bind, Option.bind_some, table_at]
  obtain ⟨hempty, hall, hpassed⟩ | ⟨f, hf, hsame⟩ := hend
  · -- the parameter is new
    rw [hempty] at hslot
    have hexpected : expected h m (.doAdd e replace) = (.flag true, putKey h m e) := by
      simp only [expected, ← hslot, Option.isSome_none, Bool.false_and, Bool.false_eq_true,
        if_false]
    rw [hempty]
    simp only
    by_cases hlim : getTableLimit t.tablesize ≤ t.tablecount
    · rw [if_pos hlim]
      obtain ⟨t', hrun, hg', hcount, hroom, hperm⟩ | ⟨htop, hrun⟩ := expand_spec (hg.setCache v)
      · simp only [hrun, Option.bind_some]
        have hr' := hr.perm hperm
        obtain ⟨w, hw, hfind', hend'⟩ := doFind_spec hg' (h.getFindParam e)
        simp only [hfind', Option.bind_some]
        have hnone := (hr'.eq_slot (hend'.imp (fun hx => ⟨hx.1, hx.2.1⟩) id)).trans hslot.symm
        obtain ⟨hempty', -, hpassed'⟩ | ⟨f, hf, -⟩ := hend'
        · obtain ⟨hgood, hrep⟩ :=
            answered_put hg' hr' hslot.symm hw hempty' hpassed' hroom
          refine ⟨_, _, rfl, hgood, .inl ?_⟩
          rw [hexpected]
          exact ⟨rfl, hrep⟩
        · rw [hnone] at hf
          exact absurd hf (by simp)
      · simp only [hrun, Option.bind_some]
        refine ⟨_, _, rfl, hg.setCache v, .inr ⟨rfl, ⟨htop, ?_⟩, hr⟩⟩
        have htop' : t.tablesize = 2 ^ 31 := htop
        rw [htop', getTableLimit_top] at hlim
        exact hlim
    · rw [if_neg hlim]
      obtain ⟨hgood, hrep⟩ := answered_put hg hr hslot.symm hv hempty hpassed
        (hg.room_of_limit (Nat.lt_of_not_le hlim))
      refine ⟨_, _, rfl, hgood, .inl ?_⟩
      rw [hexpected]
      exact ⟨rfl, hrep⟩
  · rw [hf] at hslot
    rw [hf]
    simp only
    cases replace with
    | false =>
      refine ⟨_, _, rfl, hg.setCache v, .inl ?_⟩
      simp only [expected, ← hslot, Option.isSome_some, Bool.not_false, Bool.and_self, if_true]
      exact ⟨trivial, hr⟩
    | true =>
      obtain ⟨hs, rest, hold, hnew⟩ := hg.sound.replace hf hsame
      have hcount : (contents t.table).length = (contents (t.table.set v (some e))).length := by
        rw [hold.length_eq, hnew.length_eq, List.length_cons, List.length_cons]
      refine ⟨_, _, rfl, ⟨hg.size, hs, hg.counted.trans hcount, hg.room⟩, .inl ?_⟩
      simp only [expected, Bool.not_true, Bool.and_false, Bool.false_eq_true, if_false]
      refine ⟨trivial, ?_⟩
      refine Represents.perm ?_ hnew
      exact (hr.perm hold.symm).exchange (pairwise_perm hold hg.sound.distinct)
        (pairwise_perm hnew hs.distinct) hsame

theorem addNew_spec (hg : Good h t) (hr : Represents h (contents t.table) m) {e : E}
    (hm : m (h.getFindParam e) = none) :
    ∃ reply t', addNew h t e = some (reply, t') ∧ Answered h t m (.addNew e) reply t' := by
  unfold addNew
  by_cases hlim : getTableLimit t.tablesize ≤ t.tablecount
  · rw [if_pos hlim]
    obtain ⟨t', hrun, hg', hcount, hroom, hperm⟩ | ⟨htop, hrun⟩ := expand_spec hg
    · obtain ⟨w, hw, hfind, hempty, hpassed⟩ := doFindNew_spec hg' e
      simp only [hrun, hfind, Option.bind_eq_bind, Option.bind_some, Bool.false_eq_true, if_false]
      obtain ⟨hgood, hrep⟩ := answered_put hg' (hr.perm hperm) hm hw hempty hpassed hroom
      exact ⟨_, _, rfl, hgood, .inl ⟨rfl, hrep⟩⟩
    · simp only [hrun, Option.bind_eq_bind, Option.bind_some, if_true]
      refine ⟨_, _, rfl, hg, .inr ⟨rfl, ⟨htop, ?_⟩, hr⟩⟩
      rw [htop, getTableLimit_top] at hlim
      exact hlim
  · rw [if_neg hlim]
    obtain ⟨w, hw, hfind, hempty, hpassed⟩ := doFindNew_spec hg e
    simp only [hfind, Option.bind_eq_bind, Option.bind_some, Bool.false_eq_true, if_false]
    obtain ⟨hgood, hrep⟩ := answered_put hg hr hm hw hempty hpassed
      (hg.room_of_limit (Nat.lt_of_not_le hlim))
    exact ⟨_, _, rfl, hgood, .inl ⟨rfl, hrep⟩⟩

theorem remove_spec (hg : Good h t) (hr : Represents h (contents t.table) m) (fp : K) :
    ∃ reply t', remove h t fp = some (reply, t') ∧ Answered h t m (.remove fp) reply t' := by
  obtain ⟨v, hv, hfind, hend⟩ := doFind_spec hg fp
  have hslot := hr.eq_slot (hend.imp (fun hx => ⟨hx.1, hx.2.1⟩) id)
  unfold remove
  simp only [hfind, Option.bind_eq_bind, Option.bind_some, table_at]
  obtain ⟨hempty, hall, -⟩ | ⟨f, hf, hsame⟩ := hend
  · rw [hempty]
    refine ⟨_, _, rfl, hg.setCache v, .inl ?_⟩
    simp only [expected]
    rw [← hslot, hempty]
    refine ⟨rfl, ?_⟩
    have herase : eraseKey h m fp = m := by
      funext k
      unfold eraseKey
      by_cases hk : h.sameParam fp k = true
      · rw [if_pos hk, (hr.eq_none_iff k).mpr]
        intro f hf
        by_contra hfk
        rw [Bool.not_eq_false] at hfk
        have hffp := hall f hf
        rw [h.same_trans _ _ _ hfk (h.same_symm _ _ hk)] at hffp
        exact absurd hffp (by decide)
      · rw [if_neg hk]
    rw [herase]
    exact hr
  · obtain ⟨t', hrun, hg', hrep⟩ := answered_delete (hg.setCache v) hr hf hsame
    rw [hf]
    simp only [hrun, Option.bind_some]
    refine ⟨_, _, rfl, hg', .inl ⟨?_, hrep⟩⟩
    simp only [expected]
    rw [← hslot, hf]
    rfl

/-- The search by address finds the element exactly when the map has it. -/
theorem Represents.exact_iff {v : ℕ} {e : E} (hr : Represents h (contents t.table) m)
    (hend : slotsOf t.table v = some e ∨ slotsOf t.table v = none ∧ e ∉ contents t.table) :
    slotsOf t.table v = if m (h.getFindParam e) = some e then some e else none := by
  obtain hfound | ⟨hempty, hnot⟩ := hend
  · rw [hfound, if_pos (hr.mem_iff.mp (mem_contents.mpr ⟨v, hfound⟩))]
  · rw [hempty, if_neg]
    intro hm
    exact hnot (hr.mem_iff.mpr hm)

theorem removeExact_spec (hg : Good h t) (hr : Represents h (contents t.table) m) (e : E) :
    ∃ reply t', removeExact h t e = some (reply, t') ∧
      Answered h t m (.removeExact e) reply t' := by
  obtain ⟨v, hv, hfind, hend⟩ := doFindExact_spec hg e
  have hslot := hr.exact_iff hend
  unfold removeExact
  simp only [hfind, Option.bind_eq_bind, Option.bind_some, table_at]
  by_cases hm : m (h.getFindParam e) = some e
  · rw [if_pos hm] at hslot
    obtain ⟨t', hrun, hg', hrep⟩ :=
      answered_delete (hg.setCache v) hr hslot (h.same_refl _)
    simp only [hslot, if_true, hrun, Option.bind_some]
    refine ⟨_, _, rfl, hg', .inl ?_⟩
    simp only [expected]
    rw [if_pos hm]
    exact ⟨rfl, hrep⟩
  · rw [if_neg hm] at hslot
    simp only [hslot, reduceCtorEq, if_false]
    refine ⟨_, _, rfl, hg.setCache v, .inl ?_⟩
    simp only [expected]
    rw [if_neg hm]
    exact ⟨rfl, hr⟩

theorem ensure_spec (hg : Good h t) (hr : Represents h (contents t.table) m) (mincount : ℕ) :
    ∃ reply t', ensure h t mincount = some (reply, t') ∧
      Answered h t m (.ensure mincount) reply t' := by
  unfold ensure
  by_cases hlim : mincount ≤ getTableLimit t.tablesize
  · rw [if_pos hlim]
    exact ⟨_, _, rfl, hg, .inl ⟨rfl, hr⟩⟩
  · rw [if_neg hlim]
    obtain ⟨k, hk, hsize⟩ := hg.size
    rw [hsize]
    obtain ⟨i, hi, hki, hgrow⟩ | ⟨hgrow, hbig⟩ :=
      @growTo_spec k mincount 32 k le_rfl hk (by omega)
    · have hle : t.tablesize ≤ 2 ^ i := by
        rw [hsize]
        exact Nat.pow_le_pow_right (by decide) hki
      obtain ⟨t', hrun, hg', -, -, hperm⟩ := @expandTo_spec E K h t hg i hi hle
      simp only [hgrow, hrun, Option.bind_eq_bind, Option.bind_some, Bool.false_eq_true, if_false]
      exact ⟨_, _, rfl, hg', .inl ⟨rfl, hr.perm hperm⟩⟩
    · simp only [hgrow, Option.bind_eq_bind, Option.bind_some]
      refine ⟨_, _, rfl, hg, .inr ⟨rfl, ?_, hr⟩⟩
      by_cases h31 : k = 31
      · rw [hsize, h31, getTableLimit_top] at hlim
        exact Nat.lt_of_not_le hlim
      · exact hbig (by omega)

theorem releaseAll_spec (hg : Good h t) (m : K → Option E) :
    Answered h t m .releaseAll .done (releaseAll t) := by
  unfold releaseAll
  by_cases hzero : t.tablecount = 0
  · rw [if_pos hzero]
    refine ⟨hg, .inl ⟨rfl, ?_⟩⟩
    have hnil : contents t.table = [] := List.eq_nil_of_length_eq_zero (hg.counted ▸ hzero)
    rw [hnil]
    exact represents_nil
  · rw [if_neg hzero]
    have hmap : t.table.map (fun _ => (none : Option E)) =
        List.replicate t.tablesize none := by
      rw [List.map_const', hg.sound.length]
    rw [hmap]
    refine ⟨⟨hg.size, sound_replicate _, ?_, hg.size_pos⟩, .inl ⟨rfl, ?_⟩⟩
    · simp only [contents_replicate, List.length_nil]
    · simp only [contents_replicate]
      exact represents_nil

theorem find_spec (hg : Good h t) (hr : Represents h (contents t.table) m) (fp : K) :
    ∃ reply t', find h t fp = some (reply, t') ∧ Answered h t m (.find fp) reply t' := by
  obtain ⟨v, hv, hfind, hend⟩ := doFind_spec hg fp
  have hslot := hr.eq_slot (hend.imp (fun hx => ⟨hx.1, hx.2.1⟩) id)
  unfold find
  simp only [hfind, Option.bind_eq_bind, Option.bind_some, table_at, hslot]
  exact ⟨_, _, rfl, hg.setCache v, .inl ⟨rfl, hr⟩⟩

theorem findExact_spec (hg : Good h t) (hr : Represents h (contents t.table) m) (e : E) :
    ∃ reply t', findExact h t e = some (reply, t') ∧
      Answered h t m (.findExact e) reply t' := by
  obtain ⟨v, hv, hfind, hend⟩ := doFindExact_spec hg e
  have hslot := hr.exact_iff hend
  unfold findExact
  simp only [hfind, Option.bind_eq_bind, Option.bind_some, table_at, hslot]
  exact ⟨_, _, rfl, hg.setCache v, .inl ⟨rfl, hr⟩⟩

/-- Every operation returns, and does to the table what it should do to the map. -/
theorem step_spec (hg : Good h t) (hr : Represents h (contents t.table) m)
    (op : Operation E K) (hop : Permitted h m op) :
    ∃ reply t', step h t op = some (reply, t') ∧ Answered h t m op reply t' := by
  cases op with
  | doAdd donor replace => exact doAdd_spec hg hr donor replace
  | addNew donor => exact addNew_spec hg hr hop
  | remove fp => exact remove_spec hg hr fp
  | removeExact et => exact removeExact_spec hg hr et
  | ensure mincount => exact ensure_spec hg hr mincount
  | releaseAll => exact ⟨_, _, rfl, releaseAll_spec hg m⟩
  | find fp => exact find_spec hg hr fp
  | findExact et => exact findExact_spec hg hr et

end Operations

section Iteration

variable {t : Table E}

/-- The elements in the slots from `i` on. -/
theorem contents_drop {table : List (Option E)} {i : ℕ} (hi : i < table.length) :
    contents (table.drop i) = (slotsOf table i).toList ++ contents (table.drop (i + 1)) := by
  have hslot : slotsOf table i = table[i] := by
    unfold slotsOf
    rw [List.getElem?_eq_getElem hi]
    rfl
  rw [List.drop_eq_getElem_cons hi, hslot]
  cases table[i] with
  | none => rfl
  | some e => rfl

/-- `validIdx` gives the next full slot. -/
theorem validIdxFrom_spec (hlen : t.table.length = t.tablesize) :
    ∀ fuel i, i + fuel = t.tablesize →
      (validIdxFrom t fuel i = t.tablesize ∧ contents (t.table.drop i) = []) ∨
      ∃ j e, validIdxFrom t fuel i = j ∧ i ≤ j ∧ j < t.tablesize ∧ t.at j = some e ∧
        contents (t.table.drop i) = e :: contents (t.table.drop (j + 1)) := by
  intro fuel
  induction fuel with
  | zero =>
    intro i hi
    refine .inl ⟨hi, ?_⟩
    rw [List.drop_eq_nil_of_le (by omega)]
    rfl
  | succ fuel ih =>
    intro i hi
    have hdrop := @contents_drop E t.table i (by omega)
    unfold validIdxFrom
    rw [table_at]
    cases hslot : slotsOf t.table i with
    | none =>
      rw [hslot] at hdrop
      simp only [Option.isNone_none, if_true]
      rw [hdrop]
      obtain hend | ⟨j, e, hj, hij, hjn, hat, hrest⟩ := ih (i + 1) (by omega)
      · exact .inl hend
      · exact .inr ⟨j, e, hj, by omega, hjn, hat, hrest⟩
    | some e =>
      rw [hslot] at hdrop
      simp only [Option.isNone_some, Bool.false_eq_true, if_false]
      exact .inr ⟨i, e, rfl, le_rfl, by omega, hslot, hdrop⟩

theorem validIdx_spec (hlen : t.table.length = t.tablesize) {i : ℕ} (hi : i ≤ t.tablesize) :
    (validIdx t i = t.tablesize ∧ contents (t.table.drop i) = []) ∨
      ∃ j e, validIdx t i = j ∧ i ≤ j ∧ j < t.tablesize ∧ t.at j = some e ∧
        contents (t.table.drop i) = e :: contents (t.table.drop (j + 1)) :=
  validIdxFrom_spec hlen (t.tablesize - i) i (by omega)

theorem slotsFrom_spec (hlen : t.table.length = t.tablesize) :
    ∀ fuel i, i ≤ t.tablesize → t.tablesize < fuel + i →
      slotsFrom t fuel (validIdx t i) = some (contents (t.table.drop i)) := by
  intro fuel
  induction fuel with
  | zero =>
    intro i hi hfuel
    omega
  | succ fuel ih =>
    intro i hi hfuel
    unfold slotsFrom
    obtain ⟨hend, hnil⟩ | ⟨j, e, hj, hij, hjn, hat, hrest⟩ := validIdx_spec hlen hi
    · rw [if_pos hend, hnil]
    · rw [if_neg (by omega), hj, hat, hrest]
      simp only [ih (j + 1) (by omega) (by omega), Option.bind_eq_bind, Option.bind_some]
      rfl

/-- The range loop visits the elements in the order of their slots. -/
theorem iterateSlots_eq (hg : Good h t) : iterateSlots t = some (contents t.table) := by
  unfold iterateSlots firstIdx
  split
  next hzero =>
    have hnil : contents t.table = [] := List.eq_nil_of_length_eq_zero (hg.counted ▸ hzero)
    unfold slotsFrom
    rw [if_pos rfl, hnil]
  next => exact slotsFrom_spec hg.sound.length (t.tablesize + 1) 0 (Nat.zero_le _) (by omega)

/-- An element is in one slot only. -/
theorem Good.slot_unique (hg : Good h t) {v w : ℕ} {e : E} (hv : slotsOf t.table v = some e)
    (hw : slotsOf t.table w = some e) : v = w := by
  by_contra hne
  have hvl := lt_length_of_slotsOf hv
  obtain ⟨rest, hold, hset⟩ := contents_set hvl
  rw [hv] at hold
  have hmem : e ∈ contents (t.table.set v none) := by
    apply mem_contents.mpr
    refine ⟨w, ?_⟩
    rw [slotsOf_set hvl, Function.update_of_ne (Ne.symm hne)]
    exact hw
  have hrest : e ∈ rest := (hset none).mem_iff.mp hmem
  have hdiffer := (List.pairwise_cons.mp (pairwise_perm hold hg.sound.distinct)).1 e hrest
  unfold Differ at hdiffer
  rw [h.same_refl] at hdiffer
  exact absurd hdiffer (by decide)

variable [DecidableEq E]

/-- `next` moves to the next full slot. -/
theorem next_spec (hg : Good h t) {i : ℕ} {e : E} (he : slotsOf t.table i = some e) :
    (contents (t.table.drop (i + 1)) = [] ∧ ∃ t', next h t (some e) = some (none, t')) ∨
      ∃ j f, i < j ∧ j < t.tablesize ∧ slotsOf t.table j = some f ∧
        contents (t.table.drop (i + 1)) = f :: contents (t.table.drop (j + 1)) ∧
        next h t (some e) = some (some f, { t with cache := j }) := by
  have hmem : e ∈ contents t.table := mem_contents.mpr ⟨i, he⟩
  have hin : i < t.tablesize := hg.sound.length ▸ lt_length_of_slotsOf he
  obtain ⟨v, hv, hfind, hfound | ⟨-, hnot⟩⟩ := doFindExact_spec hg e
  · have hvi := hg.slot_unique hfound he
    subst hvi
    unfold next
    simp only [hfind, Option.bind_eq_bind, Option.bind_some, table_at, hfound, if_true]
    obtain ⟨hend, hnil⟩ | ⟨j, f, hj, hij, hjn, hat, hrest⟩ :=
      @validIdx_spec E { t with cache := v } hg.sound.length (v + 1)
        (Nat.succ_le_of_lt hv)
    · refine .inl ⟨hnil, ?_⟩
      rw [hend, if_pos le_rfl]
      exact ⟨_, rfl⟩
    · refine .inr ⟨j, f, by omega, hjn, hat, hrest, ?_⟩
      rw [hj, if_neg (Nat.not_le.mpr hjn)]
      rw [table_at] at hat
      simp only at hat
      rw [hat]
      rfl
  · exact absurd hmem hnot

theorem iterateFrom_spec :
    ∀ fuel (t : Table E) i e, Good h t → slotsOf t.table i = some e →
      t.tablesize < fuel + i + 1 →
      iterateFrom h fuel t (some e) = some (contents (t.table.drop (i + 1))) := by
  intro fuel
  induction fuel with
  | zero =>
    intro t i e hg he hfuel
    have hin : i < t.tablesize := hg.sound.length ▸ lt_length_of_slotsOf he
    omega
  | succ fuel ih =>
    intro t i e hg he hfuel
    unfold iterateFrom
    obtain ⟨hnil, t', hnext⟩ | ⟨j, f, hij, hjn, hf, hrest, hnext⟩ := next_spec hg he
    · simp only [hnext, Option.bind_eq_bind, Option.bind_some]
      rw [hnil]
      rfl
    · simp only [hnext, Option.bind_eq_bind, Option.bind_some]
      rw [ih _ j f (hg.setCache j) hf (by simp only; omega), hrest]
      rfl

/-- A `SuperHashIterator` yields the elements in the order of their slots. -/
theorem iterate_eq (hg : Good h t) : iterate h t = some (contents t.table) := by
  unfold iterate iterateFrom next
  by_cases hzero : t.tablecount = 0
  · have hnil : contents t.table = [] := List.eq_nil_of_length_eq_zero (hg.counted ▸ hzero)
    simp only [hzero, if_true, hnil]
    rfl
  · simp only [hzero, if_false]
    obtain ⟨hend, hnil⟩ | ⟨j, f, hj, hij, hjn, hat, hrest⟩ :=
      @validIdx_spec E t hg.sound.length 0 (Nat.zero_le _)
    · rw [List.drop_zero] at hnil
      rw [hend, if_pos le_rfl, hnil]
      rfl
    · rw [List.drop_zero] at hrest
      rw [hj, if_neg (Nat.not_le.mpr hjn), hat, hrest]
      simp only [Option.bind_eq_bind]
      have hfrom := iterateFrom_spec t.tablesize { t with cache := j } j f (hg.setCache j) hat
        (by simp only; omega)
      simp only at hfrom
      have hbind : (pure (some f, { t with cache := j }) : Option (Option E × Table E)) =
        some (some f, { t with cache := j }) := rfl
      rw [hbind]
      simp only [Option.bind_some, hfrom]
      rfl

end Iteration

section InitialSize

/-- One step of smearing: the `m` highest bits become `2 * m`. -/
theorem smear_spec {w k m : ℕ} (hlt : w < 2 ^ (k + 1))
    (hbits : ∀ i ≤ k, k < i + m → w.testBit i = true) :
    w ||| (w >>> m) < 2 ^ (k + 1) ∧
      ∀ i ≤ k, k < i + 2 * m → (w ||| (w >>> m)).testBit i = true := by
  refine ⟨?_, ?_⟩
  · apply Nat.or_lt_two_pow hlt
    exact lt_of_le_of_lt (Nat.shiftRight_le w m) hlt
  · intro i hik hi
    rw [Nat.testBit_or, Nat.testBit_shiftRight]
    by_cases hnear : k < i + m
    · rw [hbits i hik hnear, Bool.true_or]
    · rw [hbits (m + i) (by omega) (by omega), Bool.or_true]

/-- A number all of whose bits are set. -/
theorem eq_two_pow_sub_one {w k : ℕ} (hlt : w < 2 ^ (k + 1))
    (hbits : ∀ i ≤ k, w.testBit i = true) : w = 2 ^ (k + 1) - 1 := by
  apply Nat.eq_of_testBit_eq
  intro i
  rw [Nat.testBit_two_pow_sub_one]
  by_cases hi : i ≤ k
  · rw [hbits i hi, decide_eq_true (by omega)]
  · have hge : w < 2 ^ i := lt_of_lt_of_le hlt (Nat.pow_le_pow_right (by decide) (by omega))
    rw [Nat.testBit_lt_two_pow hge, decide_eq_false (by omega)]

/-- The smearing of a number with highest bit `k`. -/
theorem smear_all {w k : ℕ} (hk : k ≤ 31) (hlt : w < 2 ^ (k + 1)) (hge : 2 ^ k ≤ w) :
    let w := w ||| (w >>> 1)
    let w := w ||| (w >>> 2)
    let w := w ||| (w >>> 4)
    let w := w ||| (w >>> 8)
    w ||| (w >>> 16) = 2 ^ (k + 1) - 1 := by
  have h0 : ∀ i ≤ k, k < i + 1 → w.testBit i = true := by
    intro i hik hi
    have hki : i = k := by omega
    have hone : w / 2 ^ k = 1 := by
      apply Nat.div_eq_of_lt_le
      · omega
      · rw [Nat.pow_succ'] at hlt
        omega
    rw [hki, Nat.testBit_eq_decide_div_mod_eq, hone]
    rfl
  obtain ⟨l1, h1⟩ := smear_spec hlt h0
  obtain ⟨l2, h2⟩ := smear_spec l1 h1
  obtain ⟨l3, h3⟩ := smear_spec l2 h2
  obtain ⟨l4, h4⟩ := smear_spec l3 h3
  obtain ⟨l5, h5⟩ := smear_spec l4 h4
  apply eq_two_pow_sub_one l5
  intro i hi
  exact h5 i hi (by omega)

theorem nextPowerOf2_eq {v k : ℕ} (hk : k ≤ 31) (hlt : v ≤ 2 ^ (k + 1)) (hge : 2 ^ k < v) :
    nextPowerOf2 v = 2 ^ (k + 1) % 2 ^ 32 := by
  have hle : 2 ^ (k + 1) ≤ 2 ^ 32 := Nat.pow_le_pow_right (by decide) (by omega)
  have hpred : (v + (2 ^ 32 - 1)) % 2 ^ 32 = v - 1 := by
    have hsum : v + (2 ^ 32 - 1) = (v - 1) + 2 ^ 32 := by omega
    rw [hsum, Nat.add_mod_right]
    exact Nat.mod_eq_of_lt (by omega)
  have hall := @smear_all (v - 1) k hk (by omega) (by omega)
  simp only at hall
  have hpos : 0 < 2 ^ (k + 1) := Nat.two_pow_pos _
  have hsucc : 2 ^ (k + 1) - 1 + 1 = 2 ^ (k + 1) := by omega
  unfold nextPowerOf2
  simp only [hpred]
  rw [hall, hsucc]

/-- A number is between two successive powers of two. -/
theorem exists_two_pow {v : ℕ} (hv : 2 ≤ v) : ∃ k, 2 ^ k < v ∧ v ≤ 2 ^ (k + 1) := by
  have hne : v - 1 ≠ 0 := by omega
  refine ⟨(v - 1).log2, ?_, ?_⟩
  · have hle := Nat.log2_self_le hne
    omega
  · have hlt := @Nat.lt_log2_self (v - 1)
    omega

/-- The size of a new table is a power of two up to `2 ^ 31`, and zero above. -/
theorem init_tablesize (initsize : Fin (2 ^ 32)) :
    (initsize.val ≤ 2 ^ 31 ∧ ∃ k ≤ 31, (init initsize.val : Table E).tablesize = 2 ^ k) ∨
      (2 ^ 31 < initsize.val ∧ (init initsize.val : Table E).tablesize = 0) := by
  have hbound := initsize.isLt
  unfold init
  simp only
  by_cases h0 : initsize.val = 0
  · rw [if_pos h0]
    exact .inl ⟨by omega, 4, by decide, by decide⟩
  · rw [if_neg h0]
    by_cases h1 : initsize.val = 1
    · rw [h1]
      exact .inl ⟨by decide, 0, by decide, by decide⟩
    · obtain ⟨k, hk, hk1⟩ := @exists_two_pow initsize.val (by omega)
      have hk31 : k ≤ 31 := by
        by_contra hgt
        have := Nat.pow_le_pow_right (show 0 < 2 by decide) (show 32 ≤ k by omega)
        omega
      rw [nextPowerOf2_eq hk31 hk1 hk]
      by_cases htop : k = 31
      · subst htop
        exact .inr ⟨hk, by decide⟩
      · have hle : 2 ^ (k + 1) ≤ 2 ^ 31 := Nat.pow_le_pow_right (by decide) (by omega)
        refine .inl ⟨by omega, k + 1, by omega, ?_⟩
        exact Nat.mod_eq_of_lt (by omega)

theorem good_init {k : ℕ} {initsize : Fin (2 ^ 32)} (hk : k ≤ 31)
    (hsize : (init initsize.val : Table E).tablesize = 2 ^ k) :
    Good h (init initsize.val : Table E) := by
  have htable : (init initsize.val : Table E).table =
      List.replicate (init initsize.val : Table E).tablesize none := rfl
  have hcount : (init initsize.val : Table E).tablecount = 0 := rfl
  refine ⟨⟨k, hk, hsize⟩, ?_, ?_, ?_⟩
  · rw [htable]
    exact sound_replicate _
  · rw [htable, contents_replicate, hcount]
    rfl
  · rw [hcount, hsize]
    exact Nat.two_pow_pos k

end InitialSize

/-- A table and a map taken through the same operations, from a new table. -/
inductive Run [DecidableEq E] (h : Hashing E K) (initsize : Fin (2 ^ 32)) :
    Table E → (K → Option E) → Prop where
  | start : Run h initsize (init initsize.val) (fun _ => none)
  | step {t t' : Table E} {m : K → Option E} (op : Operation E K) (reply : Reply E)
      (hrun : Run h initsize t m) (hop : Permitted h m op)
      (hstep : SuperHash.step h t op = some (reply, t')) :
      Run h initsize t' (match reply with | .thrown => m | _ => (expected h m op).2)

/-- What a caller sees of the table `t`, compared with the map `m`. -/
structure Refines [DecidableEq E] (h : Hashing E K) (t : Table E) (m : K → Option E) : Prop where
  find : ∀ fp, ∃ t', find h t fp = some (.element (m fp), t')
  findExact : ∀ e, ∃ t', findExact h t e =
    some (.element (if m (h.getFindParam e) = some e then some e else none), t')
  remove : ∀ fp, ∃ t', remove h t fp = some (.flag (m fp).isSome, t')
  elements : ∃ elems : List E, elems.Nodup ∧ (∀ e, e ∈ elems ↔ m (h.getFindParam e) = some e) ∧
    count t = elems.length ∧ iterateSlots t = some elems ∧ iterate h t = some elems
  gapless : ∀ v < t.tablesize, ∀ e, t.at v = some e →
    ∀ u < t.tablesize, Probe.dist t.tablesize (home h t.tablesize e) u <
      Probe.dist t.tablesize (home h t.tablesize e) v → t.at u ≠ none
  counted : t.tablecount = t.table.countP Option.isSome
  room : ∃ v < t.tablesize, t.at v = none
  returns : ∀ op, Permitted h m op → ∃ reply t', step h t op = some (reply, t') ∧
    (reply = (expected h m op).1 ∨ reply = .thrown ∧ TooLarge t op)

section Runs

variable [DecidableEq E] {t : Table E} {m : K → Option E}

/-- The invariant and the map go along with every run. -/
theorem run_good {initsize : Fin (2 ^ 32)} (hsmall : initsize.val ≤ 2 ^ 31)
    (hrun : Run h initsize t m) : Good h t ∧ Represents h (contents t.table) m := by
  induction hrun with
  | start =>
    obtain ⟨-, k, hk, hsize⟩ | ⟨hbig, -⟩ := @init_tablesize E initsize
    · refine ⟨good_init hk hsize, ?_⟩
      have htable : (init initsize.val : Table E).table =
          List.replicate (init initsize.val : Table E).tablesize none := rfl
      rw [htable, contents_replicate]
      exact represents_nil
    · omega
  | step op reply hrun hop hstep ih =>
    obtain ⟨hg, hr⟩ := ih
    obtain ⟨reply', t'', hstep', hanswer⟩ := step_spec hg hr op hop
    rw [hstep] at hstep'
    cases hstep'
    refine ⟨hanswer.good, ?_⟩
    obtain ⟨hreply, hrep⟩ | ⟨rfl, -, hrep⟩ := hanswer.outcome
    · have hne : reply ≠ .thrown := by
        rw [hreply]
        cases op <;> simp only [expected] <;> (try split) <;> simp
      cases reply with
      | thrown => exact absurd rfl hne
      | done => exact hrep
      | flag b => exact hrep
      | element e => exact hrep
    · exact hrep

/-- A good table shows the map it represents. -/
theorem refines_of_good (hg : Good h t) (hr : Represents h (contents t.table) m) :
    Refines h t m := by
  have hreturns : ∀ op, Permitted h m op → ∃ reply t', step h t op = some (reply, t') ∧
      (reply = (expected h m op).1 ∨ reply = .thrown ∧ TooLarge t op) := by
    intro op hop
    obtain ⟨reply, t', hstep, hanswer⟩ := step_spec hg hr op hop
    refine ⟨reply, t', hstep, ?_⟩
    obtain ⟨hreply, -⟩ | ⟨hthrown, hlarge, -⟩ := hanswer.outcome
    · exact .inl hreply
    · exact .inr ⟨hthrown, hlarge⟩
  -- a search or a removal never throws
  have hquiet : ∀ op, Permitted h m op → (¬ TooLarge t op) →
      ∃ t', step h t op = some ((expected h m op).1, t') := by
    intro op hop hsmall
    obtain ⟨reply, t', hstep, hreply | ⟨-, hlarge⟩⟩ := hreturns op hop
    · exact ⟨t', by rw [hstep, hreply]⟩
    · exact absurd hlarge hsmall
  refine ⟨fun fp => hquiet (.find fp) trivial id, fun e => hquiet (.findExact e) trivial id,
    fun fp => hquiet (.remove fp) trivial id, ?_, ?_, ?_, ?_, hreturns⟩
  · refine ⟨contents t.table, ?_, fun e => hr.mem_iff, hg.counted, iterateSlots_eq hg,
      iterate_eq hg⟩
    refine hg.sound.distinct.imp ?_
    intro e f hdiffer heq
    unfold Differ at hdiffer
    rw [heq, h.same_refl] at hdiffer
    exact absurd hdiffer (by decide)
  · intro v hv e he u hu hlt
    exact hg.sound.settled v hv u hu e he hlt
  · rw [hg.counted]
    unfold contents
    rw [List.length_filterMap_eq_countP]
    rfl
  · exact hg.exists_empty

/-- Every run from a new table refines the map exactly when the initial size is at most
`2 ^ 31`. -/
theorem refines_iff (h : Hashing E K) (initsize : Fin (2 ^ 32)) :
    (∀ (t : Table E) (m : K → Option E), Run h initsize t m → Refines h t m) ↔
      initsize.val ≤ 2 ^ 31 := by
  constructor
  · intro hall
    obtain ⟨hsmall, -⟩ | ⟨-, hsize⟩ := @init_tablesize E initsize
    · exact hsmall
    · obtain ⟨v, hv, -⟩ := (hall _ _ Run.start).room
      rw [hsize] at hv
      exact absurd hv (Nat.not_lt_zero v)
  · intro hsmall t m hrun
    obtain ⟨hg, hr⟩ := run_good hsmall hrun
    exact refines_of_good hg hr

/-- Numbers that are their own find parameter and hash. -/
def numberHashing : Hashing ℕ ℕ where
  getFindParam e := e
  getHashFromFindParam k := Fin.ofNat (2 ^ 32) k
  sameParam a b := decide (a = b)
  same_refl a := decide_eq_true rfl
  same_symm a b hab := decide_eq_true (of_decide_eq_true hab).symm
  same_trans a b c hab hbc := decide_eq_true ((of_decide_eq_true hab).trans (of_decide_eq_true hbc))
  hash_eq a b hab := by rw [of_decide_eq_true hab]

/-- A table of initial size `2 ^ 31 + 1` has no slot, and a search in it does not return. -/
theorem oversized_unsearchable :
    find numberHashing (init (2 ^ 31 + 1)) 5 = none ∧
      ¬ ∀ (t : Table ℕ) (m : ℕ → Option ℕ),
        Run numberHashing ⟨2 ^ 31 + 1, by decide⟩ t m → Refines numberHashing t m := by
  have hfind : find numberHashing (init (2 ^ 31 + 1)) 5 = none := by
    unfold find doFind
    have hsize : (init (2 ^ 31 + 1) : Table ℕ) =
        { cache := 0, table := [], tablesize := 0, tablecount := 0 } := by
      have hzero : nextPowerOf2 (if 2 ^ 31 + 1 = 0 then 16 else 2 ^ 31 + 1) = 0 := by decide
      simp only [init, hzero, List.replicate_zero]
    rw [hsize]
    rfl
  refine ⟨hfind, ?_⟩
  intro hall
  obtain ⟨t', ht'⟩ := (hall _ _ Run.start).find 5
  have hnone : find numberHashing (init (2 ^ 31 + 1)) 5 = some (.element none, t') := ht'
  rw [hfind] at hnone
  exact absurd hnone (by simp)

end Runs

end SuperHash
