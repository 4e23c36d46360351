import HpccPlatform.Escape.XmlEncode

/-!
# Text out of XML

`decodeXML` of `system/jlib/jstring.cpp`.  In strict mode it throws at an ampersand with which no
entity begins, but not where the name of one of its own entities is begun and goes on otherwise.
-/

namespace Escape

open Ctype

/-- The names of entities that the caller knows, with their texts. -/
abbrev EntityHelper := Option (List UInt8 → Option (List UInt8))

/-- What is behind the expected characters, which are compared up to the first difference. -/
def matchText : List UInt8 → List UInt8 → Except Fault (Option (List UInt8))
  | [], x => .ok (some x)
  | _ :: _, [] => .error .readsPast
  | e :: expected, c :: x => if c = e then matchText expected x else .ok none

/-- One of the entities that are known. -/
def knownEntity (name : String) (text : List UInt8) (x : List UInt8) :
    Except Fault (Option (List UInt8 × List UInt8)) :=
  (matchText (ascii name) x).map (Option.map fun rest => (text, rest))

/-- Nothing is replaced, which is an error in strict mode. -/
def notAnEntity (strict : Bool) : Except Fault (Option (List UInt8 × List UInt8)) :=
  if strict then .error (.thrown (-1) "invalid escaped sequence") else .ok none

/-- The character of a number, behind `&#`. -/
def numericEntity (strict : Bool) (x : List UInt8) :
    Except Fault (Option (List UInt8 × List UInt8)) :=
  if x = [] then .error .readsPast
  else
    let hex := x.head? = some 120
    let numstart := if hex then x.tail else x
    (strtoul (if hex then 16 else 10) numstart).bind fun r =>
      if r.2.length = numstart.length ∨ r.2.head? ≠ some 59 then notAnEntity strict
      else (writeUtf8 (r.1 % 2 ^ 32)).map fun text => some (text, r.2.tail)

/-- The text up to a semicolon or to its end. -/
def entityName : List UInt8 → Except Fault (List UInt8 × List UInt8)
  | [] => .error .readsPast
  | c :: x =>
    if c = 0 ∨ c = 59 then .ok ([], c :: x) else (entityName x).map fun r => (c :: r.1, r.2)

/-- An entity that the caller may know. -/
def otherEntity (entityHelper : EntityHelper) (strict : Bool) (start : List UInt8) :
    Except Fault (Option (List UInt8 × List UInt8)) :=
  match entityHelper with
  | none => notAnEntity strict
  | some find =>
    (entityName start).bind fun r =>
      if r.2.head? = some 59 then
        match find r.1 with
        | some value => .ok (some (value, r.2.tail))
        | none => notAnEntity strict
      else notAnEntity strict

/-- What stands behind an ampersand: the text for it and what follows, or nothing if the ampersand
is kept as it is. -/
def xmlEntity (entityHelper : EntityHelper) (strict : Bool) :
    List UInt8 → Except Fault (Option (List UInt8 × List UInt8))
  | [] => .error .readsPast
  | c :: x =>
    if c = 97 then
      (knownEntity "mp;" [38] x).bind fun r =>
        if r.isSome then .ok r else knownEntity "pos;" [39] x
    else if c = 108 then knownEntity "t;" [60] x
    else if c = 103 then knownEntity "t;" [62] x
    else if c = 113 then knownEntity "uot;" [34] x
    else if c = 110 then (writeUtf8 0xa0).bind fun text => knownEntity "bsp;" text x
    else if c = 35 then numericEntity strict x
    else if c = 59 ∨ c = 0 then notAnEntity strict
    else otherEntity entityHelper strict (c :: x)

/-! ### The rest is shorter -/

/-- What is left of `x` is not longer. -/
def Shortens (x : List UInt8) (r : Except Fault (Option (List UInt8 × List UInt8))) : Prop :=
  ∀ text rest, r = .ok (some (text, rest)) → rest.length ≤ x.length

theorem matchText_length {expected x rest : List UInt8}
    (h : matchText expected x = .ok (some rest)) : rest.length ≤ x.length := by
  induction expected generalizing x with
  | nil =>
    cases h
    exact le_refl _
  | cons e expected ih =>
    cases x with
    | nil => cases h
    | cons c x =>
      rw [matchText] at h
      split_ifs at h with hc
      · exact (ih h).trans (Nat.le_succ _)
      · cases h

theorem Shortens.trans {x y : List UInt8} {r : Except Fault (Option (List UInt8 × List UInt8))}
    (h : Shortens x r) (hle : x.length ≤ y.length) : Shortens y r :=
  fun text rest hr => (h text rest hr).trans hle

theorem knownEntity_shortens (name : String) (text x : List UInt8) :
    Shortens x (knownEntity name text x) := by
  intro t rest h
  obtain ⟨r, hmatch, hr⟩ := map_eq_ok h
  cases r with
  | none => cases hr
  | some r =>
    cases hr
    exact matchText_length hmatch

theorem notAnEntity_shortens (strict : Bool) (x : List UInt8) : Shortens x (notAnEntity strict) := by
  intro text rest h
  cases strict <;> cases h

theorem numericEntity_shortens (strict : Bool) (x : List UInt8) :
    Shortens x (numericEntity strict x) := by
  intro text rest h
  unfold numericEntity at h
  split_ifs at h with hempty
  dsimp only at h
  obtain ⟨r, hnumber, hr⟩ := bind_eq_ok h
  have hstart : (if x.head? = some 120 then x.tail else x).length ≤ x.length := by
    split_ifs
    · rw [List.length_tail]
      exact Nat.sub_le _ _
    · exact le_refl _
  by_cases hend : r.2.length = (if x.head? = some 120 then x.tail else x).length ∨
      r.2.head? ≠ some 59
  · rw [if_pos hend] at hr
    exact notAnEntity_shortens strict x text rest hr
  · rw [if_neg hend] at hr
    obtain ⟨value, -, hvalue⟩ := map_eq_ok hr
    cases hvalue
    rw [List.length_tail]
    exact (Nat.sub_le _ _).trans ((strtoul_length hnumber).trans hstart)

theorem entityName_length {x name rest : List UInt8} (h : entityName x = .ok (name, rest)) :
    rest.length ≤ x.length := by
  induction x generalizing name with
  | nil => cases h
  | cons c x ih =>
    rw [entityName] at h
    split_ifs at h with hc
    · cases h
      exact le_refl _
    · obtain ⟨⟨name', rest'⟩, hname, hr⟩ := map_eq_ok h
      cases hr
      exact (ih hname).trans (Nat.le_succ _)

theorem otherEntity_shortens (entityHelper : EntityHelper) (strict : Bool) (x : List UInt8) :
    Shortens x (otherEntity entityHelper strict x) := by
  intro text rest h
  cases entityHelper with
  | none => exact notAnEntity_shortens strict x text rest h
  | some find =>
    obtain ⟨⟨name, behind⟩, hname, hr⟩ := bind_eq_ok h
    dsimp only at hr
    split_ifs at hr with hend
    · cases hfind : find name with
      | none =>
        rw [hfind] at hr
        exact notAnEntity_shortens strict x text rest hr
      | some value =>
        rw [hfind] at hr
        cases hr
        rw [List.length_tail]
        exact (Nat.sub_le _ _).trans (entityName_length hname)
    · exact notAnEntity_shortens strict x text rest hr

theorem xmlEntity_shortens (entityHelper : EntityHelper) (strict : Bool) (x : List UInt8) :
    Shortens x (xmlEntity entityHelper strict x) := by
  cases x with
  | nil =>
    intro text rest h
    cases h
  | cons c x =>
    have hle : x.length ≤ (c :: x).length := Nat.le_succ _
    rw [xmlEntity]
    split_ifs
    · intro text rest h
      obtain ⟨r, hfirst, hr⟩ := bind_eq_ok h
      split_ifs at hr with hsome
      · cases hr
        exact (knownEntity_shortens "mp;" _ x).trans hle text rest hfirst
      · exact (knownEntity_shortens "pos;" _ x).trans hle text rest hr
    · exact (knownEntity_shortens "t;" _ x).trans hle
    · exact (knownEntity_shortens "t;" _ x).trans hle
    · exact (knownEntity_shortens "uot;" _ x).trans hle
    · intro text rest h
      obtain ⟨value, -, hr⟩ := bind_eq_ok h
      exact (knownEntity_shortens "bsp;" value x).trans hle text rest hr
    · exact (numericEntity_shortens strict x).trans hle
    · exact notAnEntity_shortens strict _
    · exact otherEntity_shortens entityHelper strict _

def decodeXML (entityHelper : EntityHelper) (strict : Bool) :
    List UInt8 → Except Fault (List UInt8)
  | [] => .error .readsPast
  | c :: x =>
    if c = 0 then .ok []
    else if c = 38 then
      match _h : xmlEntity entityHelper strict x with
      | .error fault => .error fault
      | .ok none => (decodeXML entityHelper strict x).map (c :: ·)
      | .ok (some (text, rest)) => (decodeXML entityHelper strict rest).map (text ++ ·)
    else (decodeXML entityHelper strict x).map (c :: ·)
termination_by x => x.length
decreasing_by
  · exact Nat.lt_succ_self _
  · exact Nat.lt_succ_of_le (xmlEntity_shortens entityHelper strict x text rest ‹_›)
  · exact Nat.lt_succ_self _

end Escape
