import TableWire.Proofs.Filter.Places
import TableWire.Proofs.Filter.Spacing
/-!
Where tokens begin and end. A character of a filter text is a blank or a part of a token (`Fits`),
and a token goes on as far as the characters of its kind do, and no further (`Leads`).
-/

namespace TableWire

/-- The property holds of every character of `cs` and what stands before it, from `before` on. -/
def Everywhere (p : List Char → Char → Prop) (before cs : List Char) : Prop :=
  ∀ pre c post, cs = pre ++ c :: post → p (before ++ pre) c

section Everywhere

variable {p : List Char → Char → Prop} {before cs ds : List Char} {c : Char}

@[simp] theorem everywhere_nil : Everywhere p before [] :=
  fun _ _ _ split => absurd split (by simp)

theorem everywhere_cons :
    Everywhere p before (c :: cs) ↔ p before c ∧ Everywhere p (before ++ [c]) cs := by
  constructor
  · intro h
    refine ⟨by simpa using h [] c cs rfl, fun pre d post split => ?_⟩
    simpa using h (c :: pre) d post (congrArg _ split)
  · rintro ⟨first, others⟩ pre d post split
    cases pre with
    | nil =>
      cases split
      simpa using first
    | cons e pre =>
      obtain ⟨rfl, onward⟩ := List.cons.inj split
      simpa using others pre d post onward

theorem everywhere_append :
    Everywhere p before (cs ++ ds) ↔ Everywhere p before cs ∧ Everywhere p (before ++ cs) ds := by
  induction cs generalizing before with
  | nil => simp
  | cons c cs ih => simp [everywhere_cons, ih, and_assoc]

theorem Everywhere.imp {q : List Char → Char → Prop} (h : Everywhere p before cs)
    (imp : ∀ pre c, p pre c → q pre c) : Everywhere q before cs :=
  fun pre c post split => imp _ c (h pre c post split)

/-- The first character of a text that the property does not hold of. -/
structure FirstFailure (p : List Char → Char → Prop) (cs before : List Char) (c : Char) : Prop where
  stands : ∃ after, cs = before ++ c :: after
  holds : Everywhere p [] before
  fails : ¬ p before c

theorem FirstFailure.not_everywhere (h : FirstFailure p cs before c) : ¬ Everywhere p [] cs := by
  obtain ⟨after, rfl⟩ := h.stands
  exact fun all => h.fails (all before c after rfl)

theorem FirstFailure.unique {before' : List Char} {c' : Char} (h : FirstFailure p cs before c)
    (h' : FirstFailure p cs before' c') : before = before' ∧ c = c' := by
  obtain ⟨after, rfl⟩ := h.stands
  obtain ⟨after', split⟩ := h'.stands
  rcases List.append_eq_append_iff.mp split with ⟨mid, rfl, rest⟩ | ⟨mid, rfl, rest⟩
  · cases mid with
    | nil => exact ⟨(List.append_nil _).symm, (List.cons.inj rest).1⟩
    | cons d mid =>
      obtain ⟨rfl, _⟩ := List.cons.inj rest
      exact absurd (h'.holds before c mid rfl) h.fails
  · cases mid with
    | nil => exact ⟨List.append_nil _, (List.cons.inj rest).1.symm⟩
    | cons d mid =>
      obtain ⟨rfl, _⟩ := List.cons.inj rest
      exact absurd (h.holds before' c' mid rfl) h'.fails

end Everywhere

namespace Token

/-- The last of the characters is in a word. -/
def EndsInWord (cs : List Char) : Prop :=
  ∃ before c run, cs = before ++ c :: run ∧ isWordStart c ∧ ∀ d ∈ run, isWordChar d

/-- Behind `before`, the character is a blank or a part of a token. Digits are in words only. -/
def Fits (before : List Char) (c : Char) : Prop :=
  isBlank c ∨ c = '@' ∨ isOperatorChar c ∨ isWordStart c ∨ (c.isDigit ∧ EndsInWord before)

/-- The characters that make a token of this kind longer. -/
def extends? : Token → Char → Bool
  | .word _ => isWordChar
  | .operator _ => isOperatorChar
  | .atSign => fun _ => false

/-- The token is spelled as tokens of its kind are. -/
def Spelled : Token → Prop
  | .word w => IsWord w
  | .operator op => op ≠ "" ∧ ∀ c ∈ op.toList, isOperatorChar c
  | .atSign => True

/-- No token goes on from the one text to the other. -/
def Apart (before cs : List Char) : Prop :=
  ∀ t : Token, ∀ c ∈ before.getLast?, ∀ d ∈ cs.head?, t.extends? c → t.extends? d = false

theorem not_isWordChar_of_isOperatorChar {c : Char} (h : isOperatorChar c) :
    isWordChar c = false := by
  simp only [isOperatorChar_iff, List.mem_cons, List.not_mem_nil, or_false] at h
  rcases h with rfl | rfl | rfl | rfl <;> decide

theorem not_extends?_atSign (t : Token) : t.extends? '@' = false := by
  cases t <;> rfl

/-- No character makes tokens of two kinds longer. -/
theorem extends?_unique {s t : Token} {c : Char} (h : s.extends? c) (h' : t.extends? c) :
    s.extends? = t.extends? := by
  cases s with
  | word =>
    cases t with
    | word => rfl
    | operator => simp [extends?, not_isWordChar_of_isOperatorChar h'] at h
    | atSign => cases h'
  | operator =>
    cases t with
    | word => simp [extends?, not_isWordChar_of_isOperatorChar h] at h'
    | operator => rfl
    | atSign => cases h'
  | atSign => cases h

theorem eq_of_text {s t : Token} (kind : s.extends? = t.extends?) (same : s.text = t.text) :
    s = t := by
  have at_letter := congrFun kind 'a'
  have at_sign := congrFun kind '='
  cases s <;> cases t <;> simp_all [extends?, text, isWordChar, isOperatorChar]

theorem isDigit_iff {c : Char} : c.isDigit ↔ '0' ≤ c ∧ c ≤ '9' := by
  rw [Char.isDigit, Bool.and_eq_true, decide_eq_true_eq, decide_eq_true_eq]
  rfl

theorem EndsInWord.exists_last {cs : List Char} (h : EndsInWord cs) :
    ∃ c ∈ cs.getLast?, isWordChar c := by
  obtain ⟨before, c, run, rfl, start, all⟩ := h
  have word : ∀ d ∈ c :: run, isWordChar d :=
    List.forall_mem_cons.mpr ⟨isWordChar_of_isWordStart start, all⟩
  refine ⟨(c :: run).getLast (by simp), ?_, word _ (List.getLast_mem _)⟩
  rw [List.getLast?_append_of_ne_nil _ (by simp), List.getLast?_eq_some_getLast]
  rfl

section Boundaries

variable {before cs run rest : List Char} {c : Char} {t : Token}

theorem apart_nil : Apart [] cs := by simp [Apart]

theorem apart_blank (blank : isBlank c) : Apart (before ++ [c]) cs := by
  intro t d hd _ _ longer
  obtain rfl : c = d := by simpa using hd
  cases t with
  | word => exact absurd blank (not_isBlank_of_isWordChar longer)
  | operator => exact absurd blank (not_isBlank (.inr (.inl longer)))
  | atSign => cases longer

/-- Where nothing goes on, a character that starts no token is no part of one. -/
theorem StartsNone.not_fits (h : StartsNone c) (apart : Apart before (c :: rest)) :
    ¬ Fits before c := by
  rintro (blank | atSign | operator | start | ⟨digit, inside⟩)
  · exact h.1 blank
  · exact h.2.2.2 atSign
  · exact h.2.2.1 operator
  · exact h.2.1 start
  · obtain ⟨d, hd, word⟩ := inside.exists_last
    have ended := apart (.word "") d hd c rfl word
    have longer := isWordChar_iff.mpr (.inr (isDigit_iff.mp digit))
    exact absurd longer (by simpa [extends?] using ended)

namespace Spelled

theorem ne_nil (h : t.Spelled) : t.text.toList ≠ [] := by
  cases t with
  | word w =>
    obtain ⟨c, run, chars, _⟩ := h
    simp [text, chars]
  | operator op => simpa [text] using h.1
  | atSign => simp [text]

theorem all (h : t.Spelled) : ∀ c ∈ t.text.toList, c = '@' ∧ t = .atSign ∨ t.extends? c := by
  cases t with
  | word w =>
    obtain ⟨c, run, chars, start, rest⟩ := h
    rw [text, chars]
    exact List.forall_mem_cons.mpr
      ⟨.inr (isWordChar_of_isWordStart start), fun d hd => .inr (rest d hd)⟩
  | operator op => exact fun c hc => .inr (h.2 c hc)
  | atSign => simp [text]

theorem not_isBlank (h : t.Spelled) : ∀ c ∈ t.text.toList, ¬ isBlank c := by
  intro c hc
  rcases h.all c hc with ⟨rfl, _⟩ | own
  · decide
  · cases t with
    | word => exact not_isBlank_of_isWordChar own
    | operator => exact Token.not_isBlank (.inr (.inl own))
    | atSign => cases own

theorem fits (h : t.Spelled) : Everywhere Fits before t.text.toList := by
  cases t with
  | word w =>
    obtain ⟨c, run, chars, start, rest⟩ := h
    rw [text, chars]
    refine everywhere_cons.mpr ⟨.inr (.inr (.inr (.inl start))), fun pre d post split => ?_⟩
    have mem : d ∈ run := split ▸ List.mem_append_right pre List.mem_cons_self
    rcases isWordChar_iff.mp (rest d mem) with start' | digit
    · exact .inr (.inr (.inr (.inl start')))
    · refine .inr (.inr (.inr (.inr ⟨isDigit_iff.mpr digit, before, c, pre, by simp, start, ?_⟩)))
      exact fun e he => rest e (split ▸ List.mem_append_left _ he)
  | operator op =>
    intro pre d post split
    have mem : d ∈ op.toList := split ▸ List.mem_append_right pre List.mem_cons_self
    exact .inr (.inr (.inl (h.2 d mem)))
  | atSign =>
    rw [text, show "@".toList = ['@'] from rfl]
    exact everywhere_cons.mpr ⟨.inr (.inl rfl), everywhere_nil⟩

end Spelled

namespace Leads

theorem toList_text (h : Leads run t rest) : t.text.toList = run := by
  cases h <;> simp [text]

theorem spelled (h : Leads run t rest) : t.Spelled := by
  cases h with
  | @word c run rest start longest => exact ⟨c, run, String.toList_ofList, start, longest.all⟩
  | @operator c run rest start longest =>
    refine ⟨by simp [← String.toList_inj], ?_⟩
    simpa using ⟨start, longest.all⟩
  | atSign => trivial

/-- The token ends where it has to. -/
theorem ends (h : Leads run t rest) : ∀ c ∈ rest.head?, t.extends? c = false := by
  cases h with
  | word _ longest => exact longest.ends
  | operator _ longest => exact longest.ends
  | atSign => exact fun _ _ => rfl

/-- The token starts where it has to. -/
theorem starts (h : Leads run t rest) (apart : Apart before (run ++ rest)) :
    ∀ c ∈ before.getLast?, t.extends? c = false := by
  intro c hc
  rw [← Bool.not_eq_true]
  intro longer
  cases h with
  | @word d _ _ start =>
    have ended := apart _ c hc d rfl longer
    exact absurd (isWordChar_of_isWordStart start) (by simpa [extends?] using ended)
  | @operator d _ _ start =>
    have ended := apart _ c hc d rfl longer
    exact absurd start (by simpa [extends?] using ended)
  | atSign => cases longer

theorem apart (h : Leads run t rest) : Apart (before ++ run) rest := by
  intro s c hc d hd longer
  rw [← h.toList_text, List.getLast?_append_of_ne_nil _ h.spelled.ne_nil] at hc
  rcases h.spelled.all c (List.mem_of_getLast? hc) with ⟨rfl, _⟩ | own
  · cases s <;> cases longer
  · rw [extends?_unique longer own]
    exact h.ends d hd

end Leads

end Boundaries

end Token

end TableWire
