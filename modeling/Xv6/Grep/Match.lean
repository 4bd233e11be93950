/-
The matcher of `grep.c`: `match`, `matchhere` and `matchstar`.

A string is the list of the bytes before its NUL, so a test for '\0' is a test for the empty list. The three functions call
each other on strings that get shorter, and always return.

What they are for is said in Mathlib's languages. A pattern is read once from left to right (`parse`): a character followed
by '*' stands for any number of bytes that the character stands for, '.' stands for any byte, a '$' that is the last
character for the end of the text, and any other character for itself. `Pattern.lang` is the set of strings that the
characters match, in order.
- `matchhere_iff`: `matchhere` finds a match at the beginning of the text whenever there is one;
- `grepMatch_iff`: `match` finds one anywhere, or at the beginning of the text if the pattern begins with '^'.
-/
import Mathlib.Computability.Language
import Xv6.Core.Bytes

namespace Xv6.Grep

open Bytes (Byte)
open Computability

abbrev Str := List Byte

/-- the code of a character -/
def chr (c : Char) : Byte := BitVec.ofNat 8 c.toNat

/-! ## The code -/

mutual

/-- search for re at beginning of text -/
def matchhere (re text : Str) : Bool :=
  match re with
  | [] => true
  | c :: re =>
    if re.head? = some (chr '*') then matchstar c re.tail text
    else if c = chr '$' ∧ re = [] then text = []
    else
      match text with
      | [] => false
      | t :: text => if c = chr '.' ∨ c = t then matchhere re text else false
termination_by 2 * (re.length + text.length)
decreasing_by all_goals simp only [List.length_cons, List.length_tail]; omega

/-- search for c*re at beginning of text -/
def matchstar (c : Byte) (re text : Str) : Bool :=
  if matchhere re text then true
  else
    match text with
    | [] => false
    | t :: text => if t = c ∨ c = chr '.' then matchstar c re text else false
termination_by 2 * (re.length + text.length) + 1

end

/-- the loop of `match`; it must look at empty string -/
def search (re : Str) : Str → Bool
  | [] => matchhere re []
  | t :: text => if matchhere re (t :: text) then true else search re text

/-- `match` -/
def grepMatch (re text : Str) : Bool :=
  if re.head? = some (chr '^') then matchhere re.tail text else search re text

/-! ## What a pattern means -/

/-- a character, once or any number of times -/
inductive Item where
  | one (c : Byte)
  | star (c : Byte)
deriving DecidableEq, Repr

/-- a pattern without the '^' before it -/
structure Pattern where
  items : List Item
  /-- there is a '$' at its end -/
  atEnd : Bool
deriving DecidableEq, Repr

def Pattern.cons (i : Item) (p : Pattern) : Pattern := ⟨i :: p.items, p.atEnd⟩

def parse : Str → Pattern
  | [] => ⟨[], false⟩
  | [c] => if c = chr '$' then ⟨[], true⟩ else ⟨[.one c], false⟩
  | c :: d :: re => if d = chr '*' then (parse re).cons (.star c) else (parse (d :: re)).cons (.one c)

/-- the character c stands for the byte b -/
def StandsFor (c b : Byte) : Prop := c = chr '.' ∨ c = b

/-- the strings of one byte that c stands for -/
def letter (c : Byte) : Language Byte := {w | ∃ b, StandsFor c b ∧ w = [b]}

def Item.lang : Item → Language Byte
  | .one c => letter c
  | .star c => (letter c)∗

def Pattern.lang (p : Pattern) : Language Byte := (p.items.map Item.lang).prod

/-- p matches w when rest is what follows w -/
def Pattern.Fits (p : Pattern) (w rest : Str) : Prop := w ∈ p.lang ∧ (p.atEnd = true → rest = [])

/-- p matches a string that text begins with -/
def Pattern.Begins (p : Pattern) (text : Str) : Prop := ∃ w rest, text = w ++ rest ∧ p.Fits w rest

/-- re matches a substring of text, or a prefix of text if re begins with '^' -/
def Found (re text : Str) : Prop :=
  ∃ pre w post, text = pre ++ w ++ post ∧
    if re.head? = some (chr '^') then pre = [] ∧ (parse re.tail).Fits w post else (parse re).Fits w post

/-! ## One character of the pattern -/

theorem begins_nil (text : Str) : Pattern.Begins ⟨[], false⟩ text :=
  ⟨[], text, rfl, Language.mem_one _ |>.2 rfl, Bool.noConfusion⟩

theorem begins_end (text : Str) : Pattern.Begins ⟨[], true⟩ text ↔ text = [] := by
  constructor
  · rintro ⟨w, rest, rfl, hw, hrest⟩
    have hw : w = [] := (Language.mem_one _).1 hw
    rw [hw, hrest rfl, List.append_nil]
  · rintro rfl
    exact ⟨[], [], rfl, (Language.mem_one _).2 rfl, fun _ => rfl⟩

theorem begins_one (c : Byte) (p : Pattern) (text : Str) :
    (p.cons (.one c)).Begins text ↔ ∃ t text', text = t :: text' ∧ StandsFor c t ∧ p.Begins text' := by
  constructor
  · rintro ⟨w, rest, rfl, hw, hrest⟩
    obtain ⟨_, ⟨t, ht, rfl⟩, w', hw', rfl⟩ := Language.mem_mul.1 hw
    exact ⟨t, w' ++ rest, rfl, ht, w', rest, rfl, hw', hrest⟩
  · rintro ⟨t, _, rfl, ht, w, rest, rfl, hw, hrest⟩
    exact ⟨t :: w, rest, rfl, Language.append_mem_mul (a := [t]) ⟨t, ht, rfl⟩ hw, hrest⟩

/-- a star is nothing, or one byte and the star again -/
theorem star_lang (c : Byte) (p : Pattern) :
    (p.cons (.star c)).lang = p.lang + letter c * (p.cons (.star c)).lang :=
  calc (letter c)∗ * p.lang
      = (1 + letter c * (letter c)∗) * p.lang := by rw [Language.one_add_self_mul_kstar_eq_kstar]
    _ = p.lang + letter c * ((letter c)∗ * p.lang) := by rw [add_mul, one_mul, mul_assoc]

theorem begins_star (c : Byte) (p : Pattern) (text : Str) : (p.cons (.star c)).Begins text ↔
    p.Begins text ∨ ∃ t text', text = t :: text' ∧ StandsFor c t ∧ (p.cons (.star c)).Begins text' := by
  constructor
  · rintro ⟨w, rest, rfl, hw, hrest⟩
    rw [star_lang] at hw
    rcases (Language.mem_add ..).1 hw with hw | hw
    · exact .inl ⟨w, rest, rfl, hw, hrest⟩
    · obtain ⟨_, ⟨t, ht, rfl⟩, w', hw', rfl⟩ := Language.mem_mul.1 hw
      exact .inr ⟨t, w' ++ rest, rfl, ht, w', rest, rfl, hw', hrest⟩
  · rintro (⟨w, rest, rfl, hw, hrest⟩ | ⟨t, _, rfl, ht, w, rest, rfl, hw, hrest⟩)
    · refine ⟨w, rest, rfl, ?_, hrest⟩
      rw [star_lang]
      exact (Language.mem_add ..).2 (.inl hw)
    · refine ⟨t :: w, rest, rfl, ?_, hrest⟩
      rw [star_lang]
      exact (Language.mem_add ..).2 (.inr (Language.append_mem_mul (a := [t]) ⟨t, ht, rfl⟩ hw))

/-! ## The code finds what there is -/

theorem matchhere_cons (c : Byte) (re text : Str) : matchhere (c :: re) text =
    if re.head? = some (chr '*') then matchstar c re.tail text
    else if c = chr '$' ∧ re = [] then decide (text = [])
    else match text with
      | [] => false
      | t :: text => if c = chr '.' ∨ c = t then matchhere re text else false := by
  rw [matchhere.eq_def]

/-- the loop of `matchstar`, over the bytes of the text -/
theorem matchstar_iff (c : Byte) (re : Str) (hre : ∀ text, matchhere re text = true ↔ (parse re).Begins text)
    (text : Str) : matchstar c re text = true ↔ ((parse re).cons (.star c)).Begins text := by
  induction text with
  | nil =>
    rw [matchstar, begins_star, ← hre]
    simp
  | cons t text ih =>
    have hstands : (t = c ∨ c = chr '.') ↔ StandsFor c t := by
      rw [StandsFor, or_comm, eq_comm (a := t)]
    rw [matchstar, begins_star, ← hre]
    simp [hstands, ih]

/-- a character that is not followed by '*' and is not a last '$' -/
theorem matchhere_one (c : Byte) (re : Str) (hstar : re.head? ≠ some (chr '*')) (hend : ¬ (c = chr '$' ∧ re = []))
    (hre : ∀ text, matchhere re text = true ↔ (parse re).Begins text) (text : Str) :
    matchhere (c :: re) text = true ↔ ((parse re).cons (.one c)).Begins text := by
  rw [matchhere_cons, if_neg hstar, if_neg hend, begins_one]
  cases text with
  | nil => simp
  | cons t text => simp [StandsFor, hre]

/-- **A match at the beginning of the text.** -/
theorem matchhere_iff (re text : Str) : matchhere re text = true ↔ (parse re).Begins text := by
  induction re using parse.induct generalizing text with
  | case1 => simp [matchhere, parse, begins_nil]
  | case2 => simp [matchhere_cons, parse, begins_end]
  | case3 c hc =>
    rw [parse, if_neg hc]
    refine matchhere_one c [] (by simp) (fun h => hc h.1) (fun text => ?_) text
    simp [matchhere, parse, begins_nil]
  | case4 c re ih =>
    rw [matchhere_cons, if_pos List.head?_cons, parse, if_pos rfl]
    exact matchstar_iff c re ih text
  | case5 c d re hd ih =>
    rw [parse, if_neg hd]
    refine matchhere_one c (d :: re) (fun h => hd (Option.some.inj h)) (fun h => ?_) ih text
    exact List.cons_ne_nil _ _ h.2

/-- the loop of `match`, over the places where the match can begin -/
theorem search_iff (re text : Str) :
    search re text = true ↔ ∃ pre w post, text = pre ++ w ++ post ∧ (parse re).Fits w post := by
  induction text with
  | nil =>
    rw [search, matchhere_iff]
    constructor
    · rintro ⟨w, rest, h, hfits⟩
      exact ⟨[], w, rest, h, hfits⟩
    · rintro ⟨pre, w, post, h, hfits⟩
      have hpre : pre = [] := (List.append_eq_nil_iff.1 (List.append_eq_nil_iff.1 h.symm).1).1
      exact ⟨w, post, by rw [h, hpre, List.nil_append], hfits⟩
  | cons t text ih =>
    have hhere := matchhere_iff re (t :: text)
    rw [search]
    constructor
    · intro h
      split_ifs at h with hm
      · obtain ⟨w, rest, htext, hfits⟩ := hhere.1 hm
        exact ⟨[], w, rest, htext, hfits⟩
      · obtain ⟨pre, w, post, htext, hfits⟩ := ih.1 h
        exact ⟨t :: pre, w, post, by rw [htext]; rfl, hfits⟩
    · rintro ⟨pre, w, post, htext, hfits⟩
      cases pre with
      | nil => rw [if_pos (hhere.2 ⟨w, post, htext, hfits⟩)]
      | cons t' pre =>
        have hlater : search re text = true := ih.2 ⟨pre, w, post, (List.cons.inj htext).2, hfits⟩
        split_ifs
        · rfl
        · exact hlater

/-- **The matcher is sound and complete.** -/
theorem grepMatch_iff (re text : Str) : grepMatch re text = true ↔ Found re text := by
  unfold grepMatch Found
  split_ifs with h
  · rw [matchhere_iff]
    constructor
    · rintro ⟨w, rest, htext, hfits⟩
      exact ⟨[], w, rest, htext, rfl, hfits⟩
    · rintro ⟨pre, w, post, htext, hpre, hfits⟩
      exact ⟨w, post, by rw [htext, hpre, List.nil_append], hfits⟩
  · exact search_iff re text

end Xv6.Grep
