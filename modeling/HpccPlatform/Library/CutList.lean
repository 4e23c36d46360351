import Mathlib

/-!
# Sets of points stored as increasing lists of cuts

A finite union of intervals of a line can be stored as the increasing list of the places where
membership changes.  Such a place is a *cut*: it has a part of the line below it and a part above
it.  A point determines the cuts that lie below it, and these form an initial segment of the
linear order of cuts, so a point is represented here by a `LowerSet` of cuts.  A point belongs to
the set when an odd number of the stored cuts lie below it.

`fill b l u L` is the one editing operation: it makes membership equal to `b` between the cuts
`l` and `u` and leaves it alone elsewhere.  Adding an interval is `fill true`, removing one is
`fill false`.  Complementation toggles the two extreme cuts (`toggleBot`, `toggleTop`).

Nothing in this file depends on how cuts are represented.
-/

namespace CutList

open Classical in
/-- The point with the cuts `D` below it belongs to the set stored as `L`. -/
def Inside {C : Type*} [LE C] (D : LowerSet C) (L : List C) : Prop :=
  Odd (L.countP fun c => decide (c ∈ D))

section Counting

variable {C : Type*} [Preorder C] {D : LowerSet C}

/-- No point belongs to the set without cuts. -/
@[simp] lemma inside_nil : ¬ Inside D [] := by
  simp [Inside]

/-- A cut that lies above the point does not change membership. -/
lemma inside_cons_of_notMem {c : C} {L : List C} (hc : c ∉ D) :
    Inside D (c :: L) ↔ Inside D L := by
  simp [Inside, hc]

/-- A cut that lies below the point toggles membership. -/
lemma inside_cons_of_mem {c : C} {L : List C} (hc : c ∈ D) :
    Inside D (c :: L) ↔ ¬ Inside D L := by
  simp [Inside, hc, Nat.odd_add_one]

/-- When every cut lies above the point, the point does not belong to the set. -/
lemma not_inside_of_forall_notMem {L : List C} (h : ∀ c ∈ L, c ∉ D) : ¬ Inside D L := by
  induction L with
  | nil => exact inside_nil
  | cons c L ih =>
    rw [inside_cons_of_notMem (h c (by simp))]
    exact ih fun d hd => h d (by simp [hd])

/-- Membership in a concatenation, when the cuts of the first part all lie below the point. -/
lemma inside_append_of_forall_mem {L M : List C} (h : ∀ c ∈ L, c ∈ D) :
    Inside D (L ++ M) ↔ (Inside D M ↔ Even L.length) := by
  induction L with
  | nil => simp
  | cons c L ih =>
    have hc : c ∈ D := h c (by simp)
    have hL := ih fun d hd => h d (by simp [hd])
    rw [List.cons_append, inside_cons_of_mem hc, hL, List.length_cons, Nat.even_add_one]
    tauto

/-- Membership in a concatenation, when the cuts of the second part all lie above the point. -/
lemma inside_append_of_forall_notMem {L M : List C} (h : ∀ c ∈ M, c ∉ D) :
    Inside D (L ++ M) ↔ Inside D L := by
  induction L with
  | nil => simpa using not_inside_of_forall_notMem h
  | cons c L ih =>
    by_cases hc : c ∈ D
    · rw [List.cons_append, inside_cons_of_mem hc, inside_cons_of_mem hc, ih]
    · rw [List.cons_append, inside_cons_of_notMem hc, inside_cons_of_notMem hc, ih]

/-- When every cut lies below the point, membership is the parity of the number of cuts. -/
lemma inside_iff_odd_of_forall_mem {L : List C} (h : ∀ c ∈ L, c ∈ D) :
    Inside D L ↔ Odd L.length := by
  have := inside_append_of_forall_mem (M := []) h
  simpa using this

/-- Membership in an increasing list is decided by its first interval or by the rest. -/
lemma inside_cons_cons {l u : C} {L : List C} (hs : (l :: u :: L).Pairwise (· < ·)) :
    Inside D (l :: u :: L) ↔ (l ∈ D ∧ u ∉ D) ∨ Inside D L := by
  simp only [List.pairwise_cons, List.mem_cons, forall_eq_or_imp] at hs
  obtain ⟨⟨hlu, -⟩, huL, -⟩ := hs
  by_cases hl : l ∈ D
  · by_cases hu : u ∈ D
    · rw [inside_cons_of_mem hl, inside_cons_of_mem hu]
      tauto
    · have hL : ¬ Inside D L :=
        not_inside_of_forall_notMem fun c hc hcD => hu (D.lower (huL c hc).le hcD)
      rw [inside_cons_of_mem hl, inside_cons_of_notMem hu]
      tauto
  · have hu : u ∉ D := fun hu => hl (D.lower hlu.le hu)
    rw [inside_cons_of_notMem hl, inside_cons_of_notMem hu]
    tauto

end Counting

section Parts

variable {C : Type*}

/-- The cuts `A` below `l`, with `l` stored after them when membership `b` has to begin there. -/
def openPart (b : Bool) (l : C) (A : List C) : List C :=
  A ++ if decide (Even A.length) = b then [l] else []

/-- The cuts `B` above `u`, with `u` stored before them when membership `b` has to end there. -/
def closePart (b : Bool) (u : C) (B : List C) : List C :=
  (if decide (Even B.length) = b then [u] else []) ++ B

/-- The lower part holds an odd number of cuts exactly when `b` is membership. -/
lemma odd_length_openPart (b : Bool) (l : C) (A : List C) :
    Odd (openPart b l A).length ↔ b = true := by
  rcases Nat.even_or_odd A.length with h | h
  · cases b <;> simp [openPart, h, Nat.not_odd_iff_even.2 h]
  · cases b <;> simp [openPart, h, Nat.not_even_iff_odd.2 h]

/-- The upper part holds an odd number of cuts exactly when `b` is membership. -/
lemma odd_length_closePart (b : Bool) (u : C) (B : List C) :
    Odd (closePart b u B).length ↔ b = true := by
  rcases Nat.even_or_odd B.length with h | h
  · cases b <;> simp [closePart, h, Nat.not_odd_iff_even.2 h]
  · cases b <;> simp [closePart, h, Nat.not_even_iff_odd.2 h]

/-- A cut of the lower part is one of the old cuts or the new one. -/
lemma mem_openPart {b : Bool} {l c : C} {A : List C} (h : c ∈ openPart b l A) :
    c ∈ A ∨ c = l := by
  rw [openPart, List.mem_append] at h
  refine h.imp_right fun h => ?_
  split at h <;> simp_all

/-- A cut of the upper part is one of the old cuts or the new one. -/
lemma mem_closePart {b : Bool} {u c : C} {B : List C} (h : c ∈ closePart b u B) :
    c = u ∨ c ∈ B := by
  rw [closePart, List.mem_append] at h
  refine h.imp_left fun h => ?_
  split at h <;> simp_all

/-- An odd number of cuts above `u`: membership runs through `u`. -/
lemma closePart_of_odd {b : Bool} {u : C} {L : List C} (h : Odd L.length) :
    closePart b u L = if b then L else u :: L := by
  cases b <;> simp [closePart, Nat.not_even_iff_odd.2 h]

/-- An even number of cuts above `u`: there is no membership right above `u`. -/
lemma closePart_of_even {b : Bool} {u : C} {L : List C} (h : Even L.length) :
    closePart b u L = if b then u :: L else L := by
  cases b <;> simp [closePart, h]

end Parts

section Fill

variable {C : Type*} [LinearOrder C]

/-- Make membership equal to `b` between the cuts `l` and `u`.  The cuts strictly below `l` and
strictly above `u` stay; `l` itself is stored when membership changes there, and so is `u`. -/
def fill (b : Bool) (l u : C) (L : List C) : List C :=
  openPart b l (L.filter (· < l)) ++ closePart b u (L.filter (u < ·))

/-- A cut up to `u` is not above `u`. -/
lemma filter_cons_of_le {u c : C} {L : List C} (h : c ≤ u) :
    (c :: L).filter (u < ·) = L.filter (u < ·) := by
  rw [List.filter_cons_of_neg]
  simpa using h

/-- Closing at a cut that is not above any of the cuts changes nothing when the number of cuts
already has the right parity. -/
lemma closePart_filter_of_le {b : Bool} {u n : C} {L : List C} (hs : (n :: L).Pairwise (· < ·))
    (hb : Odd (n :: L).length ↔ b = true) (hle : u ≤ n) :
    closePart b u ((n :: L).filter (u < ·)) = n :: L := by
  rw [List.pairwise_cons] at hs
  rcases hle.lt_or_eq with hlt | rfl
  · have hall : (n :: L).filter (u < ·) = n :: L := by
      rw [List.filter_eq_self]
      simp only [List.mem_cons, decide_eq_true_eq, forall_eq_or_imp]
      exact ⟨hlt, fun c hc => hlt.trans (hs.1 c hc)⟩
    rw [hall]
    rcases Nat.even_or_odd (n :: L).length with he | ho
    · rw [closePart_of_even he, if_neg fun h => Nat.not_even_iff_odd.2 (hb.2 h) he]
    · rw [closePart_of_odd ho, if_pos (hb.1 ho)]
  · have hall : L.filter (u < ·) = L := by
      rw [List.filter_eq_self]
      simpa using hs.1
    rw [List.length_cons, Nat.odd_add_one, Nat.not_odd_iff_even] at hb
    rw [filter_cons_of_le le_rfl, hall]
    rcases Nat.even_or_odd L.length with he | ho
    · rw [closePart_of_even he, if_pos (hb.1 he)]
    · rw [closePart_of_odd ho, if_neg fun h => Nat.not_even_iff_odd.2 ho (hb.2 h)]

/-- The lower part of a filled list does not pass `l`. -/
lemma le_of_mem_openPart {b : Bool} {l c : C} {L : List C}
    (h : c ∈ openPart b l (L.filter (· < l))) : c ≤ l := by
  rcases mem_openPart h with h | rfl
  · exact le_of_lt (by simpa using (List.mem_filter.1 h).2)
  · exact le_rfl

/-- The upper part of a filled list does not start before `u`. -/
lemma le_of_mem_closePart {b : Bool} {u c : C} {L : List C}
    (h : c ∈ closePart b u (L.filter (u < ·))) : u ≤ c := by
  rcases mem_closePart h with rfl | h
  · exact le_rfl
  · exact le_of_lt (by simpa using (List.mem_filter.1 h).2)

/-- Filling keeps the cuts in order. -/
lemma pairwise_fill (b : Bool) {l u : C} (hlu : l < u) {L : List C} (hs : L.Pairwise (· < ·)) :
    (fill b l u L).Pairwise (· < ·) := by
  rw [fill, List.pairwise_append]
  refine ⟨?_, ?_, fun a ha c hc =>
    (le_of_mem_openPart ha).trans_lt (hlu.trans_le (le_of_mem_closePart hc))⟩
  · rw [openPart, List.pairwise_append]
    refine ⟨hs.filter _, by split <;> simp, fun a ha c hc => ?_⟩
    split at hc <;> simp at hc ha
    exact hc ▸ ha.2
  · rw [closePart, List.pairwise_append]
    refine ⟨by split <;> simp, hs.filter _, fun a ha c hc => ?_⟩
    split at ha <;> simp at ha hc
    exact ha ▸ hc.2

/-- Filling leaves an even number of cuts. -/
lemma even_length_fill (b : Bool) (l u : C) (L : List C) : Even (fill b l u L).length := by
  rw [fill, List.length_append, Nat.even_add]
  have h₁ := odd_length_openPart b l (L.filter (· < l))
  have h₂ := odd_length_closePart b u (L.filter (u < ·))
  rw [← Nat.not_even_iff_odd] at h₁ h₂
  tauto

/-- Filling changes no cut above its end. -/
lemma filter_le_fill (b : Bool) {l u v : C} (hlu : l < u) (huv : u < v) (L : List C) :
    (fill b l u L).filter (v ≤ ·) = L.filter (v ≤ ·) := by
  have hopen : (openPart b l (L.filter (· < l))).filter (v ≤ ·) = [] := by
    refine List.filter_eq_nil_iff.2 fun c hc => ?_
    simpa using (le_of_mem_openPart hc).trans_lt (hlu.trans huv)
  have hfilter : (L.filter (u < ·)).filter (v ≤ ·) = L.filter (v ≤ ·) := by
    rw [List.filter_filter]
    refine List.filter_congr fun c _ => ?_
    by_cases hc : v ≤ c
    · simp [hc, huv.trans_le hc]
    · simp [hc]
  rw [fill, List.filter_append, hopen, List.nil_append, closePart, List.filter_append, hfilter]
  split <;> simp [huv]

/-- An increasing list is its part up to a cut followed by its part above that cut. -/
lemma filter_le_append_filter_lt {L : List C} (hs : L.Pairwise (· < ·)) (u : C) :
    L.filter (· ≤ u) ++ L.filter (u < ·) = L := by
  induction L with
  | nil => rfl
  | cons c L ih =>
    rw [List.pairwise_cons] at hs
    rcases le_or_gt c u with hc | hc
    · simp [hc, not_lt.2 hc, ih hs.2]
    · have hL : ∀ d ∈ L, u < d := fun d hd => hc.trans (hs.1 d hd)
      have hnil : L.filter (· ≤ u) = [] := by
        simpa [List.filter_eq_nil_iff] using hL
      have hall : L.filter (u < ·) = L := by
        simpa [List.filter_eq_self] using hL
      simp [hc, not_le.2 hc, hnil, hall]

/-- An increasing list is its part below a cut followed by its part from that cut on. -/
lemma filter_lt_append_filter_le {L : List C} (hs : L.Pairwise (· < ·)) (l : C) :
    L.filter (· < l) ++ L.filter (l ≤ ·) = L := by
  induction L with
  | nil => rfl
  | cons c L ih =>
    rw [List.pairwise_cons] at hs
    rcases lt_or_ge c l with hc | hc
    · simp [hc, not_le.2 hc, ih hs.2]
    · have hL : ∀ d ∈ L, l ≤ d := fun d hd => hc.trans (hs.1 d hd).le
      have hnil : L.filter (· < l) = [] := by
        simpa [List.filter_eq_nil_iff] using hL
      have hall : L.filter (l ≤ ·) = L := by
        simpa [List.filter_eq_self] using hL
      simp [hc, not_lt.2 hc, hnil, hall]

/-- Above `u` a list with an even number of cuts is read off its upper part alone. -/
lemma inside_iff_inside_filter_lt {L : List C} (hs : L.Pairwise (· < ·)) (he : Even L.length)
    {D : LowerSet C} {u : C} (hu : u ∈ D) :
    Inside D L ↔ (Inside D (L.filter (u < ·)) ↔ Even (L.filter (u < ·)).length) := by
  have hsplit : Inside D (L.filter (· ≤ u) ++ L.filter (u < ·)) ↔
      (Inside D (L.filter (u < ·)) ↔ Even (L.filter (· ≤ u)).length) := by
    refine inside_append_of_forall_mem fun c hc => D.lower ?_ hu
    simpa using (List.mem_filter.1 hc).2
  have hlen : Even ((L.filter (· ≤ u)).length + (L.filter (u < ·)).length) := by
    rw [← List.length_append, filter_le_append_filter_lt hs]
    exact he
  rw [filter_le_append_filter_lt hs] at hsplit
  rw [Nat.even_add] at hlen
  rw [hsplit, hlen]

/-- The point just above a cut belongs to the set when an odd number of cuts lies above it. -/
lemma inside_Iic_iff {L : List C} (hs : L.Pairwise (· < ·)) (he : Even L.length) (u : C) :
    Inside (LowerSet.Iic u) L ↔ Odd (L.filter (u < ·)).length := by
  have hnone : ¬ Inside (LowerSet.Iic u) (L.filter (u < ·)) :=
    not_inside_of_forall_notMem fun c hc => by
      simpa using (List.mem_filter.1 hc).2
  rw [inside_iff_inside_filter_lt hs he (LowerSet.mem_Iic_iff.2 le_rfl), iff_false_left hnone,
    Nat.not_even_iff_odd]

/-- A cut of the list is the first one of those from it on. -/
lemma filter_le_of_mem {L : List C} (hs : L.Pairwise (· < ·)) {c : C} (hc : c ∈ L) :
    L.filter (c ≤ ·) = c :: L.filter (c < ·) := by
  induction L with
  | nil => simp at hc
  | cons d L ih =>
    rw [List.pairwise_cons] at hs
    rcases List.mem_cons.1 hc with rfl | hc
    · rw [List.filter_cons_of_pos (by simp), List.filter_cons_of_neg (by simp)]
      have hall : ∀ e ∈ L, c < e := hs.1
      rw [List.filter_eq_self.2 fun e he => by simpa using (hall e he).le,
        List.filter_eq_self.2 fun e he => by simpa using hall e he]
    · have hdc := hs.1 c hc
      rw [List.filter_cons_of_neg (by simpa using hdc), List.filter_cons_of_neg (by simpa using hdc.le),
        ih hs.2 hc]

/-- Filling sets membership to `b` for the points between `l` and `u` and changes no other. -/
theorem inside_fill (b : Bool) {l u : C} (hlu : l < u) {L : List C} (hs : L.Pairwise (· < ·))
    (he : Even L.length) (D : LowerSet C) :
    Inside D (fill b l u L) ↔
      (b = true ∧ l ∈ D ∧ u ∉ D) ∨ (¬ (l ∈ D ∧ u ∉ D) ∧ Inside D L) := by
  rw [fill]
  by_cases hu : u ∈ D
  · -- the point lies above both cuts: the lower part contributes only its parity
    have hl : l ∈ D := D.lower hlu.le hu
    have hodd := odd_length_openPart b l (L.filter (· < l))
    rw [inside_append_of_forall_mem fun c hc => D.lower (le_of_mem_openPart hc) hl,
      inside_iff_inside_filter_lt hs he hu, ← Nat.not_odd_iff_even (n := (openPart b l _).length),
      hodd]
    rcases Nat.even_or_odd (L.filter (u < ·)).length with hB | hB
    · cases b
      · simp [closePart, hB, hu]
      · simp [closePart, hB, hu, inside_cons_of_mem hu]
    · cases b
      · simp [closePart, Nat.not_even_iff_odd.2 hB, hu, inside_cons_of_mem hu]
      · simp [closePart, Nat.not_even_iff_odd.2 hB, hu]
  · have hclose : ∀ c ∈ closePart b u (L.filter (u < ·)), c ∉ D := fun c hc hcD =>
      hu (D.lower (le_of_mem_closePart hc) hcD)
    rw [inside_append_of_forall_notMem hclose]
    by_cases hl : l ∈ D
    · rw [inside_iff_odd_of_forall_mem fun c hc => D.lower (le_of_mem_openPart hc) hl,
        odd_length_openPart]
      tauto
    · -- the point lies below both cuts: only the cuts below `l` can count
      have hnew : ∀ c ∈ (if decide (Even (L.filter (· < l)).length) = b then [l] else []),
          c ∉ D := by
        intro c hc
        split at hc <;> simp at hc
        exact hc ▸ hl
      have hge : ∀ c ∈ L.filter (l ≤ ·), c ∉ D := by
        intro c hc hcD
        exact hl (D.lower (by simpa using (List.mem_filter.1 hc).2) hcD)
      rw [openPart, inside_append_of_forall_notMem hnew, ← inside_append_of_forall_notMem hge,
        filter_lt_append_filter_le hs]
      tauto

end Fill

end CutList
