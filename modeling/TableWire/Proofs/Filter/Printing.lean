import TableWire.Filter.Text
import TableWire.Proofs.Filter.Syntax
import TableWire.Proofs.Filter.Tree
/-!
Filters that are what their text is read as. The text has no parentheses, so a filter has to group
its parts as a reader of the text does, and its names have to be words.
-/

namespace TableWire

namespace Token

/-- A text that is one word. -/
def IsWord (s : String) : Prop :=
  ∃ c cs, s.toList = c :: cs ∧ isWordStart c ∧ ∀ d ∈ cs, isWordChar d

theorem Run.whole {p : Char → Bool} {run : List Char} (all : ∀ c ∈ run, p c) : Run p run [] :=
  ⟨all, nofun⟩

theorem IsWord.splits {s : String} (h : IsWord s) : Splits s.toList [.word s] := by
  obtain ⟨c, cs, chars, start, rest⟩ := h
  have splits := Splits.word start (.whole rest) .nil
  rwa [List.append_nil, ← chars, String.ofList_toList] at splits

theorem Splits.isWord {cs : List Char} {ts : List Token} (h : Splits cs ts) :
    ∀ w, .word w ∈ ts → IsWord w := by
  induction h with
  | nil => nofun
  | blank _ _ ih => exact ih
  | @word c run rest ts start h _ ih =>
    intro w hw
    rcases List.mem_cons.mp hw with same | hw
    · obtain rfl := Token.word.inj same
      exact ⟨c, run, String.toList_ofList, start, h.all⟩
    · exact ih w hw
  | operator _ _ _ ih => simpa using ih
  | atSign _ ih => simpa using ih

theorem Run.append_blank {p : Char → Bool} {run rest ys : List Char} (h : Run p run rest)
    (blank : p ' ' = false) : Run p run (rest ++ ' ' :: ys) where
  all := h.all
  ends := by
    cases rest with
    | nil => simpa using blank
    | cons c rest => exact h.ends

/-- No token goes on behind a blank. -/
theorem Splits.append_blank {xs ys : List Char} {ts us : List Token} (h : Splits xs ts)
    (h' : Splits ys us) : Splits (xs ++ ' ' :: ys) (ts ++ us) := by
  induction h with
  | nil => exact .blank (by decide) h'
  | blank blank _ ih => exact .blank blank ih
  | word start run _ ih =>
    have splits := Splits.word start (run.append_blank (by decide)) ih
    rwa [← List.append_assoc] at splits
  | operator start run _ ih =>
    have splits := Splits.operator start (run.append_blank (by decide)) ih
    rwa [← List.append_assoc] at splits
  | atSign _ ih => exact .atSign ih

theorem splits_keyword (k : Connective) : Splits k.text.toList [.keyword k] := by
  apply IsWord.splits
  cases k with
  | not => exact ⟨'N', ['O', 'T'], by simp [Connective.text], by simp [isWordStart, isWordChar]⟩
  | and => exact ⟨'A', ['N', 'D'], by simp [Connective.text], by simp [isWordStart, isWordChar]⟩
  | or => exact ⟨'O', ['R'], by simp [Connective.text], by simp [isWordStart, isWordChar]⟩

theorem splits_flag (b : Bool) : Splits (boolText b).toList [.flag b] := by
  apply IsWord.splits
  cases b with
  | false =>
    exact ⟨'f', ['a', 'l', 's', 'e'], by simp [boolText], by simp [isWordStart, isWordChar]⟩
  | true => exact ⟨'t', ['r', 'u', 'e'], by simp [boolText], by simp [isWordStart, isWordChar]⟩

theorem splits_comparison (c : Comparison) : Splits c.text.toList [.operator c.text] := by
  suffices ∃ d ds, c.text.toList = d :: ds ∧ isOperatorChar d ∧ ∀ e ∈ ds, isOperatorChar e by
    obtain ⟨d, ds, chars, start, rest⟩ := this
    have splits := Splits.operator start (.whole rest) .nil
    rwa [List.append_nil, ← chars, String.ofList_toList] at splits
  cases c with
  | equal => exact ⟨'=', ['='], by simp [Comparison.text], by simp [isOperatorChar]⟩
  | notEqual => exact ⟨'!', ['='], by simp [Comparison.text], by simp [isOperatorChar]⟩
  | greater => exact ⟨'>', [], by simp [Comparison.text], by simp [isOperatorChar]⟩
  | greaterEqual => exact ⟨'>', ['='], by simp [Comparison.text], by simp [isOperatorChar]⟩
  | less => exact ⟨'<', [], by simp [Comparison.text], by simp [isOperatorChar]⟩
  | lessEqual => exact ⟨'<', ['='], by simp [Comparison.text], by simp [isOperatorChar]⟩

end Token

open Token

namespace Clause

/-- The names of the clause are words, and its column is no keyword. -/
structure Plain (c : Clause String) : Prop where
  column : IsWord c.column
  not_keyword : ∀ k : Connective, c.column ≠ k.text
  operand : IsWord c.operand

theorem Plain.splits_text {c : Clause String} (h : c.Plain) : Splits c.text.toList c.tokens := by
  obtain ⟨column, comparison, operand, passIfMissing, latest⟩ := c
  have before {flags : List Char} {ts : List Token} (splits : Splits flags ts) :
      Splits (column.toList ++ ' ' :: (comparison.text.toList ++ ' ' :: '@' ::
        (operand.toList ++ ' ' :: flags)))
        (.word column :: .operator comparison.text :: .atSign :: .word operand :: ts) :=
    h.column.splits.append_blank ((splits_comparison comparison).append_blank
      (.atSign (h.operand.splits.append_blank splits)))
  cases latest with
  | none => simpa [text, tokens] using before (splits_flag passIfMissing)
  | some latest =>
    have flags := (splits_flag passIfMissing).append_blank (splits_flag latest)
    simpa [text, tokens] using before flags

end Clause

namespace Filter

/-- The connective at the root. -/
def root? {ω : Type} : Filter ω → Option Connective
  | .clause _ => none
  | .node k _ => some k

/-- A clause or a NOT. -/
def IsNegation {ω : Type} (f : Filter ω) : Prop := f.root? = none ∨ f.root? = some .not

/-- The parts that a reader would join under the connective. -/
def Groups {ω : Type} : Connective → List (Filter ω) → Prop
  | .not, [f] => f.IsNegation
  | .and, [f, g] => f.root? ≠ some .or ∧ g.IsNegation
  | .or, [_, g] => g.root? ≠ some .or
  | _, _ => False

/-- All clauses are plain, and every connective stands between parts that a reader would join. -/
inductive Expressible : Filter String → Prop
  | clause {c : Clause String} : c.Plain → Expressible (.clause c)
  | node {k : Connective} {fs : List (Filter String)} : Groups k fs →
    (∀ f ∈ fs, Expressible f) → Expressible (.node k fs)

theorem IsNegation.root?_ne {ω : Type} {f : Filter ω} (h : f.IsNegation) :
    f.root? ≠ some .or := by
  rcases h with h | h <;> simp [h]

section Reading

variable {ts : List Token} {f : Filter String}

theorem Negation.expressible (h : Negation ts f) (words : ∀ w, .word w ∈ ts → IsWord w) :
    f.Expressible ∧ f.IsNegation := by
  induction h with
  | @clause c not_keyword =>
    refine ⟨.clause ⟨words _ ?_, not_keyword, words _ ?_⟩, .inl rfl⟩ <;> simp [Clause.tokens]
  | not _ ih =>
    obtain ⟨expressible, negation⟩ := ih fun w hw => words w (List.mem_cons_of_mem _ hw)
    exact ⟨.node negation (by simpa using expressible), .inr rfl⟩

theorem Conjunction.expressible (h : Conjunction ts f) (words : ∀ w, .word w ∈ ts → IsWord w) :
    f.Expressible ∧ f.root? ≠ some .or := by
  induction h with
  | single operand =>
    obtain ⟨expressible, negation⟩ := operand.expressible words
    exact ⟨expressible, negation.root?_ne⟩
  | join _ operand ih =>
    obtain ⟨left, root⟩ := ih fun w hw => words w (by simp [hw])
    obtain ⟨right, negation⟩ := operand.expressible fun w hw => words w (by simp [hw])
    exact ⟨.node ⟨root, negation⟩ (by simp [left, right]), by simp [root?]⟩

theorem Disjunction.expressible (h : Disjunction ts f) (words : ∀ w, .word w ∈ ts → IsWord w) :
    f.Expressible := by
  induction h with
  | single operand => exact (operand.expressible words).1
  | join _ operand ih =>
    have left := ih fun w hw => words w (by simp [hw])
    obtain ⟨right, root⟩ := operand.expressible fun w hw => words w (by simp [hw])
    exact .node root (by simp [left, right])

/-- What a reader finds can be written. -/
theorem expressible_of_parse {source : String} (h : parse source = .ok f) :
    f.Expressible ∧ f.depth ≤ maxDepth := by
  obtain ⟨ts, splits, spelled, shallow⟩ := spelled_of_parse h
  exact ⟨spelled.expressible splits.isWord, shallow⟩

end Reading

/-- The tokens of the text spell the filter, at every level of the grammar that admits its root. -/
structure SpelledBy (f : Filter String) (ts : List Token) : Prop where
  splits : Splits f.text.toList ts
  negation : f.IsNegation → Negation ts f
  conjunction : f.root? ≠ some .or → Conjunction ts f
  disjunction : Disjunction ts f

theorem SpelledBy.of_negation {f : Filter String} {ts : List Token}
    (splits : Splits f.text.toList ts) (h : Negation ts f) : f.SpelledBy ts :=
  ⟨splits, fun _ => h, fun _ => .single h, .single (.single h)⟩

theorem text_join {k : Connective} (ne : k ≠ .not) (f g : Filter String) :
    (node k [f, g]).text = f.text ++ (" " ++ k.text ++ " ") ++ g.text := by
  cases k with
  | not => exact absurd rfl ne
  | and => rfl
  | or => rfl

theorem splits_join {k : Connective} (ne : k ≠ .not) {f g : Filter String} {ts us : List Token}
    (hf : Splits f.text.toList ts) (hg : Splits g.text.toList us) :
    Splits (node k [f, g]).text.toList (ts ++ .keyword k :: us) := by
  rw [text_join ne]
  simpa using hf.append_blank ((splits_keyword k).append_blank hg)

theorem Expressible.spelled {f : Filter String} (h : f.Expressible) : ∃ ts, f.SpelledBy ts := by
  induction h with
  | @clause c plain =>
    exact ⟨c.tokens, .of_negation plain.splits_text (.clause plain.not_keyword)⟩
  | @node k fs groups _ ih =>
    match k, fs, groups with
    | .not, [f], negation =>
      obtain ⟨ts, h⟩ := ih f (by simp)
      refine ⟨.keyword .not :: ts, .of_negation ?_ (.not (h.negation negation))⟩
      simpa [text, texts, Connective.text] using (splits_keyword .not).append_blank h.splits
    | .and, [f, g], ⟨root, negation⟩ =>
      obtain ⟨ts, hf⟩ := ih f (by simp)
      obtain ⟨us, hg⟩ := ih g (by simp)
      have joined : Conjunction (ts ++ .keyword .and :: us) (Filter.node .and [f, g]) :=
        .join (hf.conjunction root) (hg.negation negation)
      exact ⟨_, splits_join (by decide) hf.splits hg.splits, by simp [IsNegation, root?],
        fun _ => joined, .single joined⟩
    | .or, [f, g], root =>
      obtain ⟨ts, hf⟩ := ih f (by simp)
      obtain ⟨us, hg⟩ := ih g (by simp)
      exact ⟨_, splits_join (by decide) hf.splits hg.splits, by simp [IsNegation, root?],
        by simp [root?], .join hf.disjunction (hg.conjunction root)⟩

theorem parse_text {f : Filter String} (h : f.Expressible) (shallow : f.depth ≤ maxDepth) :
    parse f.text = .ok f := by
  obtain ⟨ts, spelled⟩ := h.spelled
  exact parse_eq_ok_of_spelled spelled.splits spelled.disjunction shallow

/-- A filter is what its text is read as exactly when it is expressible and not too deep, and every
filter that has been read is. -/
theorem parse_text_eq_ok_iff :
    (∀ f : Filter String, parse f.text = .ok f ↔ f.Expressible ∧ f.depth ≤ maxDepth) ∧
    ∀ (source : String) (f : Filter String), parse source = .ok f → parse f.text = .ok f := by
  constructor
  · intro f
    exact ⟨expressible_of_parse, fun h => parse_text h.1 h.2⟩
  · intro source f h
    obtain ⟨expressible, shallow⟩ := expressible_of_parse h
    exact parse_text expressible shallow

theorem parse_text_spaced :
    let source := "a==@p true AND NOT b<@q false true OR c!=@r false"
    let a : Filter String := .clause ⟨"a", .equal, "p", true, none⟩
    let b : Filter String := .clause ⟨"b", .less, "q", false, some true⟩
    let c : Filter String := .clause ⟨"c", .notEqual, "r", false, none⟩
    let f := (a.and b.not).or c
    parse source = .ok f ∧ f.text ≠ source ∧ parse f.text = .ok f ∧ f.Expressible ∧
      parse (a.and (b.or c)).text ≠ .ok (a.and (b.or c)) := by
  intro source a b c f
  have read : parse source = .ok f := by decide +kernel
  have back := parse_text_eq_ok_iff.2 source f read
  refine ⟨read, by decide +kernel, back, ((parse_text_eq_ok_iff.1 f).mp back).1, fun spelled => ?_⟩
  cases ((parse_text_eq_ok_iff.1 _).mp spelled).1 with
  | node groups _ => exact absurd groups.2 (by simp [IsNegation, root?, or])

end Filter

end TableWire
