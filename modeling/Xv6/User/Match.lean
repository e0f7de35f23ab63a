import Mathlib.Computability.Language
import Xv6.Proc.Table

namespace Xv6.Grep

open scoped Computability

abbrev Text := List Byte

/-- `matchstar`, given what `matchhere` says about the rest of the expression; 46 is the dot. -/
def matchstar (c : Byte) (matchhere : Text → Bool) : Text → Bool
  | [] => matchhere []
  | t :: text => matchhere (t :: text) || (t == c || c == 46) && matchstar c matchhere text

/-- 42 is the star, 36 the dollar. -/
def matchhere : Text → Text → Bool
  | [], _ => true
  | c :: 42 :: re, text => matchstar c (fun text => matchhere re text) text
  | [36], text => text.isEmpty
  | c :: re, t :: text => (c == 46 || c == t) && matchhere re text
  | _ :: _, [] => false

def matchFrom (re : Text) : Text → Bool
  | [] => matchhere re []
  | t :: text => matchhere re (t :: text) || matchFrom re text

/-- `match`; 94 is the caret. -/
def matchText : Text → Text → Bool
  | 94 :: re, text => matchhere re text
  | re, text => matchFrom re text

inductive Item
  | one : Byte → Item
  | star : Byte → Item
  deriving DecidableEq

structure Pattern where
  items : List Item
  atEnd : Bool
  deriving DecidableEq

def Pattern.cons (i : Item) (p : Pattern) : Pattern := { p with items := i :: p.items }

def parse : Text → Pattern
  | [] => ⟨[], false⟩
  | c :: 42 :: re => (parse re).cons (.star c)
  | [36] => ⟨[], true⟩
  | c :: re => (parse re).cons (.one c)

def chars (c : Byte) : Language Byte := {s | ∃ t, s = [t] ∧ (c = 46 ∨ c = t)}

def Item.language : Item → Language Byte
  | .one c => chars c
  | .star c => (chars c)∗

def Pattern.language (p : Pattern) : Language Byte := (p.items.map Item.language).prod

def Pattern.Starts (p : Pattern) (text : Text) : Prop :=
  ∃ mid post, text = mid ++ post ∧ mid ∈ p.language ∧ (p.atEnd → post = [])

theorem Pattern.starts_cons (i : Item) (p : Pattern) : (p.cons i).Starts text ↔
    ∃ mid post, text = mid ++ post ∧ mid ∈ i.language ∧ p.Starts post := by
  constructor
  · rintro ⟨mid, post, rfl, hmid, hend⟩
    rw [language, cons, List.map_cons, List.prod_cons, Language.mem_mul] at hmid
    obtain ⟨a, ha, b, hb, rfl⟩ := hmid
    exact ⟨a, b ++ post, List.append_assoc .., ha, b, post, rfl, hb, hend⟩
  · rintro ⟨a, _, rfl, ha, b, post, rfl, hb, hend⟩
    refine ⟨a ++ b, post, (List.append_assoc ..).symm, ?_, hend⟩
    rw [language, cons, List.map_cons, List.prod_cons]
    exact Language.append_mem_mul ha hb

theorem mem_chars_star : text ∈ (chars c)∗ ↔ ∀ t ∈ text, c = 46 ∨ c = t := by
  constructor
  · rintro ⟨parts, rfl, hparts⟩ t ht
    obtain ⟨s, hs, hts⟩ := List.mem_flatten.1 ht
    obtain ⟨u, rfl, hu⟩ := hparts s hs
    rwa [List.mem_singleton.1 hts]
  · intro h
    refine ⟨text.map ([·]), (List.flatMap_singleton' text).symm, ?_⟩
    intro s hs
    obtain ⟨t, ht, rfl⟩ := List.mem_map.1 hs
    exact ⟨t, rfl, h t ht⟩

theorem matchstar_iff : matchstar c f text ↔
    ∃ mid post, text = mid ++ post ∧ mid ∈ (chars c)∗ ∧ f post := by
  simp only [mem_chars_star]
  induction text with
  | nil => simp [matchstar]
  | cons t text ih =>
    have hfits : (t == c || c == 46) ↔ c = 46 ∨ c = t := by
      rw [Bool.or_eq_true, beq_iff_eq, beq_iff_eq, or_comm, eq_comm (a := t)]
    rw [matchstar, Bool.or_eq_true, Bool.and_eq_true, hfits, ih]
    constructor
    · rintro (h | ⟨ht, mid, post, rfl, hmid, hpost⟩)
      · exact ⟨[], _, rfl, by simp, h⟩
      · exact ⟨t :: mid, post, rfl, List.forall_mem_cons.2 ⟨ht, hmid⟩, hpost⟩
    · rintro ⟨_ | ⟨u, mid⟩, post, heq, hmid, hpost⟩
      · exact .inl (heq ▸ hpost)
      · obtain ⟨rfl, rfl⟩ := List.cons.inj heq
        rw [List.forall_mem_cons] at hmid
        exact .inr ⟨hmid.1, mid, post, rfl, hmid.2, hpost⟩

theorem parse_one (hstar : ∀ re', re = 42 :: re' → False) (hdollar : c = 36 → re = [] → False) :
    parse (c :: re) = (parse re).cons (.one c) := by
  rw [parse]
  · exact hstar
  · exact hdollar

theorem matchhere_iff (re text : Text) : matchhere re text ↔ (parse re).Starts text := by
  fun_induction matchhere re text
  case case1 text => simp [parse, Pattern.Starts, Pattern.language]
  case case2 c re text ih =>
    rw [parse, Pattern.starts_cons, matchstar_iff]
    simp only [ih]
    rfl
  case case3 text =>
    rw [List.isEmpty_iff]
    constructor
    · rintro rfl
      exact ⟨[], [], rfl, rfl, fun _ => rfl⟩
    · rintro ⟨mid, post, rfl, hmid, hend⟩
      rw [hend rfl, List.append_nil]
      exact hmid
  case case4 c re t text hstar hdollar ih =>
    have hfits : (c == 46 || c == t) ↔ c = 46 ∨ c = t := by rw [Bool.or_eq_true, beq_iff_eq, beq_iff_eq]
    rw [parse_one hstar hdollar, Pattern.starts_cons, Bool.and_eq_true, hfits, ih]
    constructor
    · exact fun ⟨ht, h⟩ => ⟨[t], text, rfl, ⟨t, rfl, ht⟩, h⟩
    · rintro ⟨_, post, heq, ⟨u, rfl, hu⟩, h⟩
      obtain ⟨rfl, rfl⟩ := List.cons.inj heq
      exact ⟨hu, h⟩
  case case5 c re hstar hdollar =>
    rw [parse_one hstar hdollar, Pattern.starts_cons]
    refine iff_of_false Bool.false_ne_true ?_
    rintro ⟨_, post, heq, ⟨u, rfl, hu⟩, -⟩
    cases heq

theorem matchFrom_iff (re text : Text) :
    matchFrom re text ↔ ∃ pre post, text = pre ++ post ∧ (parse re).Starts post := by
  induction text with
  | nil => simp [matchFrom, matchhere_iff]
  | cons t text ih =>
    rw [matchFrom, Bool.or_eq_true, matchhere_iff, ih]
    constructor
    · rintro (h | ⟨pre, post, rfl, h⟩)
      · exact ⟨[], _, rfl, h⟩
      · exact ⟨t :: pre, post, rfl, h⟩
    · rintro ⟨_ | ⟨u, pre⟩, post, heq, h⟩
      · exact .inl (heq ▸ h)
      · exact .inr ⟨pre, post, (List.cons.inj heq).2, h⟩

def body (re : Text) : Text := if re.head? = some 94 then re.tail else re

theorem matchText_iff (re text : Text) : matchText re text = true ↔
    ∃ pre mid post, text = pre ++ mid ++ post ∧ mid ∈ (parse (body re)).language ∧
      (re.head? = some 94 → pre = []) ∧ ((parse (body re)).atEnd → post = []) := by
  fun_cases matchText re text
  case case1 re =>
    rw [matchhere_iff]
    constructor
    · rintro ⟨mid, post, rfl, hmid, hend⟩
      exact ⟨[], mid, post, rfl, hmid, fun _ => rfl, hend⟩
    · rintro ⟨pre, mid, post, rfl, hmid, hbegin, hend⟩
      exact ⟨mid, post, by rw [hbegin rfl, List.nil_append], hmid, hend⟩
  case case2 hcaret =>
    have hhead : re.head? ≠ some 94 := by
      cases re with
      | nil => simp
      | cons c re => exact fun h => hcaret re (by simpa using h)
    rw [matchFrom_iff, body, if_neg hhead]
    constructor
    · rintro ⟨pre, _, rfl, mid, post, rfl, hmid, hend⟩
      exact ⟨pre, mid, post, (List.append_assoc ..).symm, hmid, fun h => (hhead h).elim, hend⟩
    · rintro ⟨pre, mid, post, rfl, hmid, -, hend⟩
      exact ⟨pre, mid ++ post, List.append_assoc .., mid, post, rfl, hmid, hend⟩

end Xv6.Grep
