/-
The tokens of a line.

`lex` cuts a line into its tokens: the longest words without white space and symbols, `>>`, and the other symbols one by
one. `Sees mem es s ts` says that from s on the tokens are ts, and what `peek` and `gettoken` do is said in these terms:
- `Sees.peek`: the next token is looked at;
- `Sees.gettoken`: it is taken.
-/
import Mathlib.Data.List.TakeWhile
import Xv6.Sh.Model

namespace Xv6.Sh

open Xv6.Bytes

/-! ## Tokens -/

/-- a word: where it is, and its text -/
structure Word where
  pos : ℕ
  text : List Byte
deriving DecidableEq

/-- q and eq of the word -/
def Word.ptrs (w : Word) : Ptrs := (w.pos, w.pos + w.text.length)

/-- a symbol, `>>`, or a word -/
inductive Token where
  | sym (c : Byte)
  | append
  | word (w : Word)
deriving DecidableEq

/-- what `gettoken` returns for it -/
def Token.code : Token → Byte
  | .sym c => c
  | .append => ch '+'
  | .word _ => ch 'a'

/-- its first byte -/
def Token.first : Token → Byte
  | .sym c => c
  | .append => ch '>'
  | .word w => w.text.headD 0

def blank (c : Byte) : Bool := strchr whitespace c

/-- neither white space nor a symbol -/
def plain (c : Byte) : Bool := !strchr whitespace c && !strchr symbols c

/-- the tokens of l, which is at s; the number of rounds is at most the length -/
def lexLoop : ℕ → ℕ → List Byte → List Token
  | 0, _, _ => []
  | _ + 1, _, [] => []
  | k + 1, s, c :: l =>
    if blank c then lexLoop k (s + 1) l
    else if plain c then
      .word ⟨s, c :: l.takeWhile plain⟩ :: lexLoop k (s + (c :: l.takeWhile plain).length) (l.dropWhile plain)
    else if c = ch '>' ∧ l.head? = some (ch '>') then .append :: lexLoop k (s + 2) l.tail
    else .sym c :: lexLoop k (s + 1) l

def lex (s : ℕ) (l : List Byte) : List Token := lexLoop l.length s l

section

variable {s k : ℕ} {c : Byte} {l : List Byte}

/-- more rounds than bytes change nothing -/
theorem lexLoop_eq (hk : l.length ≤ k) : lexLoop k s l = lex s l := by
  unfold lex
  induction hn : l.length using Nat.strong_induction_on generalizing k s l with
  | _ n ih =>
    cases l with
    | nil =>
      subst hn
      cases k <;> rfl
    | cons c l =>
      subst hn
      obtain ⟨k, rfl⟩ := Nat.exists_eq_add_one_of_ne_zero (Nat.ne_of_gt (Nat.lt_of_lt_of_le (Nat.succ_pos _) hk))
      have hk : l.length ≤ k := Nat.le_of_succ_le_succ hk
      have hdrop : (l.dropWhile plain).length ≤ l.length := (List.dropWhile_sublist plain).length_le
      have htail : l.tail.length ≤ l.length := by simp
      have heq : ∀ s (m : List Byte), m.length ≤ l.length → lexLoop k s m = lexLoop l.length s m := by
        intro s m hm
        rw [ih m.length (Nat.lt_succ_of_le hm) (hm.trans hk) rfl, ih m.length (Nat.lt_succ_of_le hm) hm rfl]
      rw [List.length_cons, lexLoop, lexLoop, heq _ l le_rfl, heq _ _ hdrop, heq _ _ htail]

@[simp] theorem lex_nil : lex s [] = [] := rfl

theorem lex_cons : lex s (c :: l) =
    if blank c then lex (s + 1) l
    else if plain c then
      .word ⟨s, c :: l.takeWhile plain⟩ :: lex (s + (c :: l.takeWhile plain).length) (l.dropWhile plain)
    else if c = ch '>' ∧ l.head? = some (ch '>') then .append :: lex (s + 2) l.tail
    else .sym c :: lex (s + 1) l := by
  have hdrop : (l.dropWhile plain).length ≤ l.length := (List.dropWhile_sublist plain).length_le
  have htail : l.tail.length ≤ l.length := by simp
  rw [lex, List.length_cons, lexLoop, lexLoop_eq le_rfl, lexLoop_eq hdrop, lexLoop_eq htail]

end

/-! ## The line in memory -/

/-- l is at s, and then comes the NUL at es -/
structure At (mem : ℕ → Byte) (es s : ℕ) (l : List Byte) : Prop where
  bytes : ∀ i c, l[i]? = some c → mem (s + i) = c
  ends : es = s + l.length
  nul : mem es = 0
  nonzero : 0 ∉ l

namespace At

variable {mem : ℕ → Byte} {es s : ℕ} {c : Byte} {l : List Byte}

theorem head (h : At mem es s (c :: l)) : mem s = c ∧ s < es ∧ At mem es (s + 1) l := by
  have hends := h.ends
  rw [List.length_cons] at hends
  refine ⟨h.bytes 0 c rfl, by omega, fun i b hb => ?_, by omega, h.nul, fun hc => h.nonzero (List.mem_cons_of_mem c hc)⟩
  rw [Nat.add_assoc, Nat.add_comm 1 i]
  exact h.bytes (i + 1) b hb

theorem eq_end (h : At mem es s []) : s = es := h.ends.symm

/-- a loop over bytes of one kind -/
theorem advance {p : Byte → Bool} {k : ℕ} (h : At mem es s l) (hk : l.length ≤ k) :
    advance mem es p k s = s + (l.takeWhile p).length ∧ At mem es (s + (l.takeWhile p).length) (l.dropWhile p) := by
  induction l generalizing s k with
  | nil =>
    refine ⟨?_, h⟩
    cases k with
    | zero => rfl
    | succ k => simp [Sh.advance, h.eq_end]
  | cons c l ih =>
    obtain ⟨k, rfl⟩ := Nat.exists_eq_add_one_of_ne_zero (Nat.ne_of_gt (Nat.lt_of_lt_of_le (Nat.succ_pos _) hk))
    obtain ⟨hc, hlt, htail⟩ := h.head
    rw [Sh.advance, hc]
    cases hp : p c with
    | false =>
      simp only [hp, Bool.false_eq_true, and_false, if_false, List.takeWhile_cons, List.dropWhile_cons, List.length_nil,
        Nat.add_zero, true_and]
      exact h
    | true =>
      obtain ⟨h1, h2⟩ := ih htail (Nat.le_of_succ_le_succ hk)
      simp only [hp, hlt, and_self, if_true, List.takeWhile_cons, List.dropWhile_cons, List.length_cons]
      rw [h1, Nat.add_assoc, Nat.add_comm 1]
      rw [Nat.add_assoc, Nat.add_comm 1] at h2
      exact ⟨rfl, h2⟩

theorem skip (h : At mem es s l) : At mem es (skip mem es s) (l.dropWhile blank) ∧
    lex (Sh.skip mem es s) (l.dropWhile blank) = lex s l := by
  obtain ⟨h1, h2⟩ := h.advance (p := blank) (k := es - s) (by rw [h.ends]; omega)
  have hskip : Sh.skip mem es s = s + (l.takeWhile blank).length := h1
  rw [hskip]
  refine ⟨h2, ?_⟩
  clear h h1 h2 hskip
  induction l generalizing s with
  | nil => rfl
  | cons c l ih =>
    rw [lex_cons, List.takeWhile_cons, List.dropWhile_cons]
    cases hb : blank c with
    | false => simp [lex_cons, hb]
    | true =>
      simp only [if_true, List.length_cons]
      rw [← ih, Nat.add_assoc, Nat.add_comm 1]

end At

/-- a byte that is not blank and not plain is a symbol -/
theorem symbol_of_not_plain {c : Byte} (hb : blank c = false) (hp : plain c = false) : c ∈ symbols := by
  unfold plain at hp
  unfold blank at hb
  have hsym : strchr symbols c = true := by simpa [hb] using hp
  exact List.contains_iff_mem.1 hsym

/-- a plain byte is no symbol -/
theorem not_symbol_of_plain {c d : Byte} (hp : plain c = true) (hd : d ∈ symbols) : c ≠ d := by
  rintro rfl
  have hsym : strchr symbols c = true := List.contains_iff_mem.2 hd
  unfold plain at hp
  simp [hsym] at hp

/-- the tokens from s on -/
def Sees (mem : ℕ → Byte) (es s : ℕ) (ts : List Token) : Prop := ∃ l, At mem es s l ∧ lex s l = ts

namespace Sees

variable {mem : ℕ → Byte} {es s : ℕ} {t : Token} {ts : List Token}

/-- white space does not matter -/
theorem skip (h : Sees mem es s ts) : ∃ l, At mem es (skip mem es s) l ∧ lex (Sh.skip mem es s) l = ts ∧
    ∀ c ∈ l.head?, blank c = false := by
  obtain ⟨l, hat, rfl⟩ := h
  obtain ⟨h1, h2⟩ := hat.skip
  refine ⟨_, h1, h2, fun c hc => ?_⟩
  have := List.head?_dropWhile_not blank l
  rw [hc] at this
  simpa using this

theorem of_skip {l : List Byte} (h : At mem es s l) : Sees mem es (Sh.skip mem es s) (lex s l) :=
  ⟨_, h.skip.1, h.skip.2⟩

/-- **peek** looks at the first byte of the next token. -/
theorem peek (h : Sees mem es s ts) (toks : List Byte) :
    Sees mem es (peek mem es s toks).2 ts ∧ (Sh.peek mem es s toks).1 = (ts.head?.any fun t => toks.contains t.first) := by
  obtain ⟨l, hat, hlex, hhead⟩ := h.skip
  refine ⟨⟨l, hat, hlex⟩, ?_⟩
  unfold Sh.peek
  cases l with
  | nil =>
    obtain rfl : ts = [] := hlex.symm
    simp [hat.eq_end, hat.nul]
  | cons c l =>
    obtain ⟨hc, -, -⟩ := hat.head
    have hb : blank c = false := hhead c rfl
    have hne : c ≠ 0 := fun h0 => hat.nonzero (h0 ▸ List.mem_cons_self)
    rw [lex_cons, hb] at hlex
    simp only [hc, strchr]
    rw [show (c != 0) = true by simpa using hne, Bool.true_and, ← hlex]
    simp only [Bool.false_eq_true, if_false]
    split_ifs with hp ha
    · rfl
    · simp [Token.first, ha.1]
    · rfl

theorem gettoken_nil (h : Sees mem es s []) : (gettoken mem es s).tok = 0 ∧ Sees mem es (gettoken mem es s).ps [] := by
  obtain ⟨l, hat, hlex, hhead⟩ := h.skip
  cases l with
  | nil =>
    have hnul : mem (Sh.skip mem es s) = 0 := by rw [hat.eq_end, hat.nul]
    unfold gettoken
    simp only [hnul, if_true, true_and]
    exact of_skip hat
  | cons c l =>
    rw [lex_cons, hhead c rfl] at hlex
    simp only [Bool.false_eq_true, if_false] at hlex
    split_ifs at hlex

/-- **gettoken** takes the next token. -/
theorem gettoken (h : Sees mem es s (t :: ts)) : (gettoken mem es s).tok = t.code ∧ Sees mem es (Sh.gettoken mem es s).ps ts ∧
    ∀ w, t = .word w → ((Sh.gettoken mem es s).q, (Sh.gettoken mem es s).eq) = w.ptrs := by
  obtain ⟨l, hat, hlex, hhead⟩ := h.skip
  cases l with
  | nil => cases hlex
  | cons c l =>
    obtain ⟨hc, -, htail⟩ := hat.head
    have hb : blank c = false := hhead c rfl
    have hne : c ≠ 0 := fun h0 => hat.nonzero (h0 ▸ List.mem_cons_self)
    rw [lex_cons, hb] at hlex
    simp only [Bool.false_eq_true, if_false] at hlex
    unfold Sh.gettoken
    simp only [hc, if_neg hne]
    cases hp : plain c with
    | true =>
      have hops : ¬ (c = ch '|' ∨ c = ch '(' ∨ c = ch ')' ∨ c = ch ';' ∨ c = ch '&' ∨ c = ch '<') := by
        rintro (h | h | h | h | h | h) <;> exact not_symbol_of_plain hp (by decide) h
      have hgt : c ≠ ch '>' := not_symbol_of_plain hp (by decide)
      rw [if_neg hops, if_neg hgt]
      simp only [hp, if_true] at hlex
      obtain ⟨rfl, rfl⟩ := List.cons.inj hlex
      obtain ⟨hend, hrest⟩ := hat.advance (p := plain) (k := es - Sh.skip mem es s) (by have := hat.ends; omega)
      rw [List.takeWhile_cons_of_pos hp] at hend hrest
      rw [List.dropWhile_cons_of_pos hp] at hrest
      have hword : wordEnd mem es (Sh.skip mem es s) = _ := hend
      rw [hword]
      refine ⟨rfl, of_skip hrest, fun w hw => ?_⟩
      cases hw
      rfl
    | false =>
      simp only [hp, Bool.false_eq_true, if_false] at hlex
      have hall : ∀ d ∈ symbols, d = ch '>' ∨
          (d = ch '|' ∨ d = ch '(' ∨ d = ch ')' ∨ d = ch ';' ∨ d = ch '&' ∨ d = ch '<') := by decide
      obtain hgt | hops := hall c (symbol_of_not_plain hb hp)
      · subst hgt
        rw [if_neg (by decide), if_pos rfl]
        by_cases hnext : l.head? = some (ch '>')
        · obtain ⟨l, rfl⟩ : ∃ l', l = ch '>' :: l' := by
            cases l with
            | nil => cases hnext
            | cons d l => exact ⟨l, by rw [Option.some.inj hnext]⟩
          obtain ⟨hd, -, htail'⟩ := htail.head
          rw [if_pos hd]
          rw [if_pos ⟨rfl, hnext⟩, List.tail_cons] at hlex
          obtain ⟨rfl, rfl⟩ := List.cons.inj hlex
          exact ⟨rfl, of_skip htail', fun w hw => by cases hw⟩
        · have hd : mem (Sh.skip mem es s + 1) ≠ ch '>' := by
            intro hd
            cases l with
            | nil =>
              rw [htail.eq_end, htail.nul] at hd
              exact absurd hd (by decide)
            | cons d l => exact hnext (by rw [← hd, htail.head.1]; rfl)
          rw [if_neg hd]
          rw [if_neg (fun hc => hnext hc.2)] at hlex
          obtain ⟨rfl, rfl⟩ := List.cons.inj hlex
          exact ⟨rfl, of_skip htail, fun w hw => by cases hw⟩
      · rw [if_pos hops]
        have hgt : c ≠ ch '>' := by
          rintro rfl
          exact absurd hops (by decide)
        rw [if_neg (fun hc => hgt hc.1)] at hlex
        obtain ⟨rfl, rfl⟩ := List.cons.inj hlex
        exact ⟨rfl, of_skip htail, fun w hw => by cases hw⟩

end Sees

/-! ## Words -/

/-- a word of the line: its bytes are plain, and the byte after it is not -/
structure IsWord (mem : ℕ → Byte) (w : Word) : Prop where
  nonempty : w.text ≠ []
  bytes : ∀ i c, w.text[i]? = some c → mem (w.pos + i) = c ∧ plain c = true ∧ c ≠ 0
  ends : mem (w.pos + w.text.length) = 0 ∨ plain (mem (w.pos + w.text.length)) = false

/-- the longest word at the beginning of a line -/
theorem At.takeWhile {mem : ℕ → Byte} {es s : ℕ} {l : List Byte} (h : At mem es s l) (hne : l.takeWhile plain ≠ []) :
    IsWord mem ⟨s, l.takeWhile plain⟩ ∧ At mem es (s + (l.takeWhile plain).length) (l.dropWhile plain) := by
  have hrest := (h.advance (p := plain) le_rfl).2
  refine ⟨⟨hne, fun i c hc => ?_, ?_⟩, hrest⟩
  · have hmem := List.mem_of_getElem? hc
    have hget : l[i]? = some c := by
      rw [← List.takeWhile_append_dropWhile (p := plain) (l := l), List.getElem?_append_left]
      · exact hc
      · exact (List.getElem?_eq_some_iff.1 hc).1
    exact ⟨h.bytes i c hget, List.mem_takeWhile_imp hmem, fun h0 => h.nonzero (h0 ▸ List.mem_of_getElem? hget)⟩
  · cases hd : l.dropWhile plain with
    | nil =>
      rw [hd] at hrest
      exact .inl (by rw [hrest.eq_end, hrest.nul])
    | cons d m =>
      have := List.head?_dropWhile_not plain l
      rw [hd] at hrest this
      refine .inr ?_
      rw [hrest.head.1]
      simpa using this

theorem At.words {mem : ℕ → Byte} {es s : ℕ} {l : List Byte} {w : Word} (h : At mem es s l) (hw : .word w ∈ lex s l) :
    IsWord mem w := by
  induction hn : l.length using Nat.strong_induction_on generalizing s l with
  | _ n ih =>
    cases l with
    | nil => cases hw
    | cons c l =>
      subst hn
      obtain ⟨-, -, htail⟩ := h.head
      rw [lex_cons] at hw
      split_ifs at hw with hb hp ha
      · exact ih l.length (Nat.lt_succ_self _) htail hw rfl
      · obtain ⟨hword, hrest⟩ := h.takeWhile (by simp [List.takeWhile_cons_of_pos hp])
        rw [List.takeWhile_cons_of_pos hp] at hword hrest
        rw [List.dropWhile_cons_of_pos hp] at hrest
        obtain hw | hw := List.mem_cons.1 hw
        · cases hw
          exact hword
        · exact ih _ (Nat.lt_succ_of_le (List.dropWhile_sublist plain).length_le) hrest hw rfl
      · obtain hw | hw := List.mem_cons.1 hw
        · cases hw
        · cases l with
          | nil => cases ha.2
          | cons d l =>
            obtain ⟨-, -, htail'⟩ := htail.head
            exact ih l.length (by simp only [List.length_cons]; omega) htail' hw rfl
      · obtain hw | hw := List.mem_cons.1 hw
        · cases hw
        · exact ih l.length (Nat.lt_succ_self _) htail hw rfl

/-- what `lex` gives: symbols, and words that begin with a plain byte -/
def Token.Ok : Token → Prop
  | .sym c => c ∈ symbols
  | .append => True
  | .word w => plain (w.text.headD 0) = true

theorem lex_ok {s : ℕ} {l : List Byte} {t : Token} (ht : t ∈ lex s l) : t.Ok := by
  induction hn : l.length using Nat.strong_induction_on generalizing s l with
  | _ n ih =>
    cases l with
    | nil => cases ht
    | cons c l =>
      subst hn
      have hdrop : (l.dropWhile plain).length ≤ l.length := (List.dropWhile_sublist plain).length_le
      have htail : l.tail.length ≤ l.length := by simp
      rw [lex_cons] at ht
      split_ifs at ht with hb hp ha
      · exact ih l.length (Nat.lt_succ_self _) ht rfl
      · obtain rfl | ht := List.mem_cons.1 ht
        · exact hp
        · exact ih _ (Nat.lt_succ_of_le hdrop) ht rfl
      · obtain rfl | ht := List.mem_cons.1 ht
        · trivial
        · exact ih _ (Nat.lt_succ_of_le htail) ht rfl
      · obtain rfl | ht := List.mem_cons.1 ht
        · exact symbol_of_not_plain (by simpa using hb) (by simpa using hp)
        · exact ih l.length (Nat.lt_succ_self _) ht rfl

theorem Sees.ok {mem : ℕ → Byte} {es s : ℕ} {t : Token} {ts : List Token} (h : Sees mem es s ts) (ht : t ∈ ts) : t.Ok := by
  obtain ⟨l, -, rfl⟩ := h
  exact lex_ok ht

end Xv6.Sh
