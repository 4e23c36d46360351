import HpccPlatform.StringSet.ByteKinds
import HpccPlatform.StringSet.Membership
import HpccPlatform.StringSet.SuccessorIndex

/-!
# The algebra of string sets

A string set is made by any sequence of the functions of `CStringSet`, also out of other sets.  Next to
what the functions do to the transitions stands what they mean for the values: `inRange` answers for
the set that is meant.
-/

namespace HpccPlatform

namespace StringSet

open RangeEnds

variable {V : Type*} {kind : ValueKind V} {rank : V → ℕ} {M : ℕ} {ts : List (Transition V)}

/-- The calls that make a set. -/
inductive SetExpr (V : Type*) where
  | createStringSet
  | reset (set : SetExpr V)
  | addRange (set : SetExpr V) (loval hival : Option V)
  | killRange (set : SetExpr V) (loval hival : Option V)
  | addAll (set : SetExpr V)
  | unionSet (set other : SetExpr V)
  | intersectSet (set other : SetExpr V)
  | invertSet (set : SetExpr V)

/-- The values of a range, a null value standing for no bound. -/
def between (rank : V → ℕ) (loval hival : Option V) : Set V :=
  {v | (∀ lo ∈ loval, rank lo ≤ rank v) ∧ ∀ hi ∈ hival, rank v ≤ rank hi}

namespace SetExpr

/-- The transitions of the set; `none` when an assertion fails. -/
def eval (kind : ValueKind V) : SetExpr V → Option (List (Transition V))
  | createStringSet => some []
  | reset set => do
    let _ ← set.eval kind
    return []
  | addRange set loval hival => do
    let transitions ← set.eval kind
    StringSet.addRange kind transitions loval hival
  | killRange set loval hival => do
    let transitions ← set.eval kind
    StringSet.killRange kind transitions loval hival
  | addAll set => do
    let _ ← set.eval kind
    return StringSet.addAll kind
  | unionSet set other => do
    let a ← set.eval kind
    let b ← other.eval kind
    unionOrIntersect kind true a b
  | intersectSet set other => do
    let a ← set.eval kind
    let b ← other.eval kind
    unionOrIntersect kind false a b
  | invertSet set => do
    let transitions ← set.eval kind
    StringSet.invertSet kind transitions

/-- The values that are meant. -/
def values (rank : V → ℕ) : SetExpr V → Set V
  | createStringSet => ∅
  | reset _ => ∅
  | addRange set loval hival => set.values rank ∪ between rank loval hival
  | killRange set loval hival => set.values rank \ between rank loval hival
  | addAll _ => Set.univ
  | unionSet set other => set.values rank ∪ other.values rank
  | intersectSet set other => set.values rank ∩ other.values rank
  | invertSet set => (set.values rank)ᶜ

/-- Every range that is removed has values. -/
def KillsValues (rank : V → ℕ) : SetExpr V → Prop
  | createStringSet => True
  | reset set => set.KillsValues rank
  | addRange set _ _ => set.KillsValues rank
  | killRange set loval hival => set.KillsValues rank ∧ (between rank loval hival).Nonempty
  | addAll set => set.KillsValues rank
  | unionSet set other => set.KillsValues rank ∧ other.KillsValues rank
  | intersectSet set other => set.KillsValues rank ∧ other.KillsValues rank
  | invertSet set => set.KillsValues rank

end SetExpr

/-! ### The transitions of a set -/

theorem mem_between (h : Ranked kind rank M) (loval hival : Option V) (v : V) :
    v ∈ between rank loval hival ↔
      rank (loval.getD kind.low) ≤ rank v ∧ rank v ≤ rank (hival.getD kind.high) := by
  have hhigh : rank v ≤ rank kind.high := by
    apply Nat.le_of_lt_succ
    rw [Nat.succ_eq_add_one, h.high]
    exact h.lt v
  refine and_congr ?_ ?_
  · cases loval with
    | none => exact iff_of_true (fun lo hlo => by cases hlo) (h.low ▸ Nat.zero_le _)
    | some lo => exact ⟨fun hall => hall lo rfl, fun hle w hw => Option.some.inj hw ▸ hle⟩
  · cases hival with
    | none => exact iff_of_true (fun hi hhi => by cases hhi) hhigh
    | some hi => exact ⟨fun hall => hall hi rfl, fun hle w hw => Option.some.inj hw ▸ hle⟩

/-- The assertion of `killRange` holds for a range that has values. -/
theorem between_nonempty_iff (h : Ranked kind rank M) (loval hival : Option V) :
    (between rank loval hival).Nonempty ↔
      ¬ 0 < kind.memcmp (loval.getD kind.low) (hival.getD kind.high) := by
  rw [h.pos_iff, not_lt]
  constructor
  · rintro ⟨v, hv⟩
    obtain ⟨hlo, hhi⟩ := (mem_between h loval hival v).mp hv
    exact hlo.trans hhi
  · intro hle
    exact ⟨loval.getD kind.low, (mem_between h loval hival _).mpr ⟨le_rfl, hle⟩⟩

/-- The transitions stand for the values. -/
structure Represents (rank : V → ℕ) (ts : List (Transition V)) (values : Set V) : Prop where
  valid : Valid rank ts
  member : ∀ v, Member rank ts v ↔ v ∈ values

section Represents

variable {a b : List (Transition V)} {A B S : Set V}

theorem represents_nil : Represents rank ([] : List (Transition V)) ∅ :=
  ⟨nil_canonical.valid, fun v => iff_of_false Bool.false_ne_true (Set.notMem_empty v)⟩

theorem represents_addAll (h : Ranked kind rank M) : Represents rank (addAll kind) Set.univ :=
  ⟨(addAll_canonical h).valid, fun v => iff_of_true (addAll_member h v) (Set.mem_univ v)⟩

theorem Represents.addRange (h : Ranked kind rank M) (hts : Represents rank ts S)
    (loval hival : Option V) :
    ∃ ts', StringSet.addRange kind ts loval hival = some ts' ∧
      Represents rank ts' (S ∪ between rank loval hival) := by
  obtain ⟨ts', hadd, hvalid, hmem⟩ := addRange_spec h hts.valid loval hival
  refine ⟨ts', hadd, hvalid, fun v => ?_⟩
  rw [hmem, hts.member, ← mem_between h]
  exact Iff.rfl

theorem Represents.killRange (h : Ranked kind rank M) (hts : Represents rank ts S)
    {loval hival : Option V} (hvalues : (between rank loval hival).Nonempty) :
    ∃ ts', StringSet.killRange kind ts loval hival = some ts' ∧
      Represents rank ts' (S \ between rank loval hival) := by
  obtain ⟨ts', hkill, hvalid, hmem⟩ := killRange_spec h hts.valid loval hival
    ((between_nonempty_iff h loval hival).mp hvalues)
  refine ⟨ts', hkill, hvalid, fun v => ?_⟩
  rw [hmem, hts.member, ← mem_between h]
  exact Iff.rfl

theorem Represents.unionSet (h : Ranked kind rank M) (ha : Represents rank a A)
    (hb : Represents rank b B) :
    ∃ ts, unionOrIntersect kind true a b = some ts ∧ Represents rank ts (A ∪ B) := by
  obtain ⟨ts, hunion, hvalid, hmem⟩ := unionOrIntersect_spec h true ha.valid hb.valid
  exact ⟨ts, hunion, hvalid, fun v => (hmem v).trans (or_congr (ha.member v) (hb.member v))⟩

theorem Represents.intersectSet (h : Ranked kind rank M) (ha : Represents rank a A)
    (hb : Represents rank b B) :
    ∃ ts, unionOrIntersect kind false a b = some ts ∧ Represents rank ts (A ∩ B) := by
  obtain ⟨ts, hintersect, hvalid, hmem⟩ := unionOrIntersect_spec h false ha.valid hb.valid
  exact ⟨ts, hintersect, hvalid, fun v => (hmem v).trans (and_congr (ha.member v) (hb.member v))⟩

theorem Represents.invertSet (h : Ranked kind rank M) (hts : Represents rank ts S) :
    ∃ ts', StringSet.invertSet kind ts = some ts' ∧ Represents rank ts' Sᶜ := by
  obtain ⟨ts', hinvert, hvalid, hmem⟩ := invertSet_spec h hts.valid
  exact ⟨ts', hinvert, hvalid, fun v => (hmem v).trans (not_congr (hts.member v))⟩

end Represents

/-! ### All calls -/

namespace SetExpr

/-- The calls make the set that is meant. -/
theorem eval_represents (h : Ranked kind rank M) {set : SetExpr V} (hkills : set.KillsValues rank) :
    ∃ ts, set.eval kind = some ts ∧ Represents rank ts (set.values rank) := by
  induction set with
  | createStringSet => exact ⟨[], rfl, represents_nil⟩
  | reset set ih =>
    obtain ⟨ts, hts, -⟩ := ih hkills
    exact ⟨[], by rw [eval, hts]; rfl, represents_nil⟩
  | addRange set loval hival ih =>
    obtain ⟨ts, hts, hrep⟩ := ih hkills
    obtain ⟨ts', hadd, hrep'⟩ := hrep.addRange h loval hival
    exact ⟨ts', by rw [eval, hts]; exact hadd, hrep'⟩
  | killRange set loval hival ih =>
    obtain ⟨ts, hts, hrep⟩ := ih hkills.1
    obtain ⟨ts', hkill, hrep'⟩ := hrep.killRange h hkills.2
    exact ⟨ts', by rw [eval, hts]; exact hkill, hrep'⟩
  | addAll set ih =>
    obtain ⟨ts, hts, -⟩ := ih hkills
    exact ⟨StringSet.addAll kind, by rw [eval, hts]; rfl, represents_addAll h⟩
  | unionSet set other iha ihb =>
    obtain ⟨a, ha, hrepA⟩ := iha hkills.1
    obtain ⟨b, hb, hrepB⟩ := ihb hkills.2
    obtain ⟨ts, hunion, hrep⟩ := hrepA.unionSet h hrepB
    exact ⟨ts, by rw [eval, ha, hb]; exact hunion, hrep⟩
  | intersectSet set other iha ihb =>
    obtain ⟨a, ha, hrepA⟩ := iha hkills.1
    obtain ⟨b, hb, hrepB⟩ := ihb hkills.2
    obtain ⟨ts, hintersect, hrep⟩ := hrepA.intersectSet h hrepB
    exact ⟨ts, by rw [eval, ha, hb]; exact hintersect, hrep⟩
  | invertSet set ih =>
    obtain ⟨ts, hts, hrep⟩ := ih hkills
    obtain ⟨ts', hinvert, hrep'⟩ := hrep.invertSet h
    exact ⟨ts', by rw [eval, hts]; exact hinvert, hrep'⟩

/-- Only `killRange` has an assertion that fails, when a range has no values. -/
theorem killsValues_of_eval (h : Ranked kind rank M) {set : SetExpr V}
    (heval : set.eval kind = some ts) : set.KillsValues rank := by
  induction set generalizing ts with
  | createStringSet => exact trivial
  | reset set ih | addRange set loval hival ih | addAll set ih | invertSet set ih =>
    obtain ⟨ts', hts', -⟩ := Option.bind_eq_some_iff.mp heval
    exact ih hts'
  | killRange set loval hival ih =>
    obtain ⟨ts', hts', hkill⟩ := Option.bind_eq_some_iff.mp heval
    refine ⟨ih hts', (between_nonempty_iff h loval hival).mpr fun hpos => ?_⟩
    rw [StringSet.killRange, if_pos hpos] at hkill
    cases hkill
  | unionSet set other iha ihb | intersectSet set other iha ihb =>
    obtain ⟨a, ha, hrest⟩ := Option.bind_eq_some_iff.mp heval
    obtain ⟨b, hb, -⟩ := Option.bind_eq_some_iff.mp hrest
    exact ⟨iha ha, ihb hb⟩

end SetExpr

/-! ### The answers of a set -/

/-- `inRange` has told whether the value belongs to the set, and which transition is next; the stored
ranges only have values of the set. -/
structure Answers (rank : V → ℕ) (ts : List (Transition V)) (values : Set V) (v : V)
    (answer : Bool × Option ℕ) : Prop where
  member : answer.1 = true ↔ v ∈ values
  next : NextTransition rank ts v answer
  stored : ∀ i t u, RangeAt rank ts i v t u → v ∈ values

variable {S : Set V}

theorem Represents.inRange_answers (h : Ranked kind rank M) (hts : Represents rank ts S) (v : V) :
    Answers rank ts S v (inRange kind ts v) :=
  ⟨(inRange_iff h hts.valid v).trans (hts.member v), inRange_next h hts.valid v,
    fun _ _ _ hrange => (hts.member v).mp (hrange.member hts.valid)⟩

theorem Represents.inRangeLinear_answers (h : Ranked kind rank M) (hts : Represents rank ts S) (v : V) :
    Answers rank ts S v (inRangeLinear kind ts v) :=
  ⟨(inRangeLoop_iff h v hts.valid.alternates hts.valid.sorted).trans (hts.member v),
    inRangeLinear_next h hts.valid v, fun _ _ _ hrange => (hts.member v).mp (hrange.member hts.valid)⟩

theorem Represents.inRangeChop_answers (h : Ranked kind rank M) (hts : Represents rank ts S)
    (hne : ts ≠ []) (v : V) : Answers rank ts S v (inRangeChop kind ts v) :=
  ⟨(inRangeChop_iff h hts.valid v).trans (hts.member v), inRangeChop_next h hts.valid hne v,
    fun _ _ _ hrange => (hts.member v).mp (hrange.member hts.valid)⟩

/-- The calls make a set unless a range without values is removed.  `inRange` answers for the values
that are meant, and each of its two ways does. -/
structure Faithful (kind : ValueKind V) (rank : V → ℕ) (set : SetExpr V) : Prop where
  evaluates : (∃ ts, set.eval kind = some ts) ↔ set.KillsValues rank
  inRange : ∀ ts, set.eval kind = some ts → ∀ v,
    Answers rank ts (set.values rank) v (inRange kind ts v)
  linear : ∀ ts, set.eval kind = some ts → ts ≠ [] → ∀ v,
    Answers rank ts (set.values rank) v (inRangeLinear kind ts v)
  chop : ∀ ts, set.eval kind = some ts → ts ≠ [] → ∀ v,
    Answers rank ts (set.values rank) v (inRangeChop kind ts v)

/-- The sets of the four kinds are faithful. -/
theorem createStringSet_faithful {n : ℕ} (hn : 0 < n) (bigEndian isSigned : Bool)
    (set : SetExpr (FixedBytes n)) :
    Faithful (createStringSet n bigEndian isSigned) (valueRank bigEndian isSigned) set := by
  have h := ranked_createStringSet hn bigEndian isSigned
  have hrep : ∀ ts, set.eval (createStringSet n bigEndian isSigned) = some ts →
      Represents (valueRank bigEndian isSigned) ts (set.values (valueRank bigEndian isSigned)) := by
    intro ts heval
    obtain ⟨ts', heval', hrep⟩ := set.eval_represents h (set.killsValues_of_eval h heval)
    obtain rfl := Option.some.inj (heval'.symm.trans heval)
    exact hrep
  refine ⟨⟨?_, ?_⟩, ?_, ?_, ?_⟩
  · rintro ⟨ts, heval⟩
    exact set.killsValues_of_eval h heval
  · intro hkills
    obtain ⟨ts, heval, -⟩ := set.eval_represents h hkills
    exact ⟨ts, heval⟩
  · exact fun ts heval v => (hrep ts heval).inRange_answers h v
  · exact fun ts heval _ v => (hrep ts heval).inRangeLinear_answers h v
  · exact fun ts heval hne v => (hrep ts heval).inRangeChop_answers h hne v

/-- Two ranges of signed bytes that share a value. -/
theorem createStringSet_faithful_shared :
    Faithful (createStringSet 1 true true) (valueRank true true)
      (.unionSet (.addRange .createStringSet none (some ⟨[7], rfl⟩))
        (.addRange .createStringSet (some ⟨[7], rfl⟩) (some ⟨[9], rfl⟩))) :=
  createStringSet_faithful (by decide) true true _

end StringSet

end HpccPlatform
