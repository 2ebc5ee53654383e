import Mathlib
import TableWire.Filter.Lexeme
import TableWire.Except
/-!
The splitting of filter texts into tokens, told without their offsets. Reading the lexemes of a text
finds exactly this splitting.
-/

namespace TableWire

namespace Token

/-- Words start with the letters of ASCII and the underscore. -/
theorem isWordStart_iff {c : Char} :
    isWordStart c ↔ ('A' ≤ c ∧ c ≤ 'Z') ∨ ('a' ≤ c ∧ c ≤ 'z') ∨ c = '_' := by
  simp only [isWordStart, Char.isAlpha, Char.isUpper, Char.isLower, Bool.or_eq_true,
    Bool.and_eq_true, decide_eq_true_eq, or_assoc]
  rfl

theorem isWordChar_iff {c : Char} : isWordChar c ↔ isWordStart c ∨ ('0' ≤ c ∧ c ≤ '9') := by
  simp only [isWordChar, isWordStart, Char.isAlphanum, Char.isDigit, Bool.or_eq_true,
    Bool.and_eq_true, decide_eq_true_eq, or_right_comm]
  rfl

theorem isOperatorChar_iff {c : Char} : isOperatorChar c ↔ c ∈ ['=', '!', '<', '>'] := by
  simp [isOperatorChar, or_assoc]

/-- The letters and signs of tokens are printable, and no blank is. -/
theorem not_isBlank {c : Char} (h : isWordStart c ∨ isOperatorChar c ∨ c = '@') : ¬ isBlank c := by
  have printable : 0x21 ≤ c.toNat ∧ c.toNat ≤ 0x7e := by
    simp only [isWordStart_iff, isOperatorChar_iff, List.mem_cons, List.not_mem_nil, or_false,
      Char.le_def, UInt32.le_iff_toNat_le] at h
    rcases h with (⟨low, high⟩ | ⟨low, high⟩ | rfl) | (rfl | rfl | rfl | rfl) | rfl
    · exact ⟨Nat.le_trans (by decide) low, Nat.le_trans high (by decide)⟩
    · exact ⟨Nat.le_trans (by decide) low, Nat.le_trans high (by decide)⟩
    all_goals decide
  rw [isBlank_iff]
  simp only [List.mem_cons, List.not_mem_nil, or_false]
  omega

theorem not_isWordStart {c : Char} (h : isOperatorChar c ∨ c = '@') : ¬ isWordStart c := by
  simp only [isOperatorChar_iff, List.mem_cons, List.not_mem_nil, or_false] at h
  rcases h with (rfl | rfl | rfl | rfl) | rfl <;> decide

/-- A run of characters that cannot be made longer. -/
structure Run (p : Char → Bool) (run rest : List Char) : Prop where
  all : ∀ c ∈ run, p c
  ends : ∀ c ∈ rest.head?, p c = false

namespace Run

variable {p : Char → Bool} {run rest : List Char}

theorem takeWhile_dropWhile (p : Char → Bool) (cs : List Char) :
    Run p (cs.takeWhile p) (cs.dropWhile p) where
  all _ := List.mem_takeWhile_imp
  ends c hc := by
    have ends := List.head?_dropWhile_not p cs
    rwa [Option.mem_def.mp hc] at ends

theorem takeWhile_append (h : Run p run rest) : (run ++ rest).takeWhile p = run := by
  rw [List.takeWhile_append_of_pos h.all]
  cases rest with
  | nil => simp
  | cons c rest => simp [h.ends c rfl]

theorem dropWhile_append (h : Run p run rest) : (run ++ rest).dropWhile p = rest := by
  rw [List.dropWhile_append_of_pos h.all]
  cases rest with
  | nil => rfl
  | cons c rest => simp [h.ends c rfl]

end Run

/-- The tokens of a text. Blanks are dropped, and words and operators are as long as they can be. -/
inductive Splits : List Char → List Token → Prop
  | nil : Splits [] []
  | blank {c : Char} {cs : List Char} {ts : List Token} :
    isBlank c → Splits cs ts → Splits (c :: cs) ts
  | word {c : Char} {run rest : List Char} {ts : List Token} :
    isWordStart c → Run isWordChar run rest → Splits rest ts →
      Splits (c :: (run ++ rest)) (.word (String.ofList (c :: run)) :: ts)
  | operator {c : Char} {run rest : List Char} {ts : List Token} :
    isOperatorChar c → Run isOperatorChar run rest → Splits rest ts →
      Splits (c :: (run ++ rest)) (.operator (String.ofList (c :: run)) :: ts)
  | atSign {cs : List Char} {ts : List Token} : Splits cs ts → Splits ('@' :: cs) (.atSign :: ts)

end Token

namespace Lexeme

open Token

def tokens (ls : List Lexeme) : List Token := ls.map (·.token)

theorem tokens_eq_cons {ls : List Lexeme} {t : Token} {ts : List Token} :
    tokens ls = t :: ts ↔ ∃ o ls', ls = ⟨o, t⟩ :: ls' ∧ tokens ls' = ts := by
  rw [tokens, List.map_eq_cons_iff]
  constructor
  · rintro ⟨⟨o, _⟩, ls', rfl, rfl, rfl⟩
    exact ⟨o, ls', rfl, rfl⟩
  · rintro ⟨o, ls', rfl, rfl⟩
    exact ⟨_, ls', rfl, rfl, rfl⟩

theorem splits_of_readFrom {offset : Nat} {cs : List Char} {ls : List Lexeme}
    (run : readFrom offset cs = .ok ls) : Splits cs (tokens ls) := by
  fun_induction readFrom offset cs generalizing ls with
  | case1 =>
    cases run
    exact .nil
  | case2 offset c cs blank ih => exact .blank blank (ih run)
  | case3 offset c cs _ start tail =>
    rename_i ih
    obtain ⟨ls, onward, rfl⟩ := Except.map_eq_ok.mp run
    have splits := Splits.word start (.takeWhile_dropWhile isWordChar cs) (ih onward)
    rwa [List.takeWhile_append_dropWhile] at splits
  | case4 offset c cs _ _ start tail =>
    rename_i ih
    obtain ⟨ls, onward, rfl⟩ := Except.map_eq_ok.mp run
    have splits := Splits.operator start (.takeWhile_dropWhile isOperatorChar cs) (ih onward)
    rwa [List.takeWhile_append_dropWhile] at splits
  | case5 offset cs _ _ _ ih =>
    obtain ⟨ls, onward, rfl⟩ := Except.map_eq_ok.mp run
    exact .atSign (ih onward)
  | case6 => cases run

theorem readFrom_word {offset : Nat} {c : Char} {run rest : List Char} (start : isWordStart c)
    (h : Run isWordChar run rest) : readFrom offset (c :: (run ++ rest)) =
      (⟨offset, .word (String.ofList (c :: run))⟩ :: ·) <$>
        readFrom (offset + 1 + run.length) rest := by
  rw [readFrom, if_neg (not_isBlank (.inl start)), if_pos start]
  simp only [h.takeWhile_append, h.dropWhile_append]

theorem readFrom_operator {offset : Nat} {c : Char} {run rest : List Char}
    (start : isOperatorChar c) (h : Run isOperatorChar run rest) :
    readFrom offset (c :: (run ++ rest)) =
      (⟨offset, .operator (String.ofList (c :: run))⟩ :: ·) <$>
        readFrom (offset + 1 + run.length) rest := by
  rw [readFrom, if_neg (not_isBlank (.inr (.inl start))), if_neg (not_isWordStart (.inl start)),
    if_pos start]
  simp only [h.takeWhile_append, h.dropWhile_append]

theorem readFrom_atSign {offset : Nat} {cs : List Char} :
    readFrom offset ('@' :: cs) = (⟨offset, .atSign⟩ :: ·) <$> readFrom (offset + 1) cs := by
  rw [readFrom, if_neg (by decide), if_neg (by decide), if_neg (by decide), if_pos rfl]

theorem exists_readFrom {cs : List Char} {ts : List Token} (h : Splits cs ts) (offset : Nat) :
    ∃ ls, readFrom offset cs = .ok ls ∧ tokens ls = ts := by
  induction h generalizing offset with
  | nil => exact ⟨[], by rw [readFrom], rfl⟩
  | blank blank _ ih =>
    rw [readFrom, if_pos blank]
    exact ih _
  | word start run _ ih =>
    obtain ⟨ls, onward, rfl⟩ := ih _
    exact ⟨_, (readFrom_word start run).trans (Except.map_eq_ok.mpr ⟨ls, onward, rfl⟩), rfl⟩
  | operator start run _ ih =>
    obtain ⟨ls, onward, rfl⟩ := ih _
    exact ⟨_, (readFrom_operator start run).trans (Except.map_eq_ok.mpr ⟨ls, onward, rfl⟩), rfl⟩
  | atSign _ ih =>
    obtain ⟨ls, onward, rfl⟩ := ih _
    exact ⟨_, readFrom_atSign.trans (Except.map_eq_ok.mpr ⟨ls, onward, rfl⟩), rfl⟩

theorem read_eq_ok_iff {source : String} {ts : List Token} :
    (∃ ls, read source = .ok ls ∧ tokens ls = ts) ↔ Splits source.toList ts := by
  constructor
  · rintro ⟨ls, run, rfl⟩
    exact splits_of_readFrom run
  · intro h
    exact exists_readFrom h 0

end Lexeme

end TableWire
