import TableWire.Proofs.Filter.Pieces
import TableWire.Proofs.Filter.Printing
import TableWire.Proofs.Filter.Relabelling
/-!
What reading forgets about filter texts: their blanks, and nothing else. The text of a filter that
has been read consists of the tokens it was read from, and texts are told apart by their tokens.
-/

namespace TableWire

namespace Token

theorem not_isBlank_of_isWordChar {c : Char} (h : isWordChar c) : ¬ isBlank c := by
  rcases isWordChar_iff.mp h with start | ⟨low, high⟩
  · exact not_isBlank (.inl start)
  · have above : 0x30 ≤ c.toNat := UInt32.le_iff_toNat_le.mp low
    have below : c.toNat ≤ 0x39 := UInt32.le_iff_toNat_le.mp high
    rw [isBlank_iff]
    simp only [List.mem_cons, List.not_mem_nil, or_false]
    omega

/-- The characters that are no blanks. -/
def visible (cs : List Char) : List Char := cs.filter fun c => !isBlank c

theorem visible_append (cs ds : List Char) : visible (cs ++ ds) = visible cs ++ visible ds :=
  List.filter_append cs ds

theorem visible_eq_self {cs : List Char} (h : ∀ c ∈ cs, ¬ isBlank c) : visible cs = cs :=
  List.filter_eq_self.mpr fun c hc => by simp [h c hc]

/-- The characters of the tokens are all that is visible of a text. -/
theorem Splits.visible_eq {cs : List Char} {ts : List Token} (h : Splits cs ts) :
    visible cs = ts.flatMap (·.text.toList) := by
  induction h with
  | nil => rfl
  | blank blank _ ih => simpa [visible, blank] using ih
  | @word c run rest ts start h _ ih =>
    have all : ∀ d ∈ c :: run, ¬ isBlank d := List.forall_mem_cons.mpr
      ⟨not_isBlank (.inl start), fun d hd => not_isBlank_of_isWordChar (h.all d hd)⟩
    rw [← List.cons_append, visible_append, visible_eq_self all, ih, List.flatMap_cons, text,
      String.toList_ofList]
  | @operator c run rest ts start h _ ih =>
    have all : ∀ d ∈ c :: run, ¬ isBlank d := List.forall_mem_cons.mpr
      ⟨not_isBlank (.inr (.inl start)), fun d hd => not_isBlank (.inr (.inl (h.all d hd)))⟩
    rw [← List.cons_append, visible_append, visible_eq_self all, ih, List.flatMap_cons, text,
      String.toList_ofList]
  | @atSign cs ts _ ih =>
    rw [← List.singleton_append, visible_append, ih]
    rfl

/-- A text splits in one way. -/
theorem Splits.right_unique {cs : List Char} {ts us : List Token} (h : Splits cs ts)
    (h' : Splits cs us) : ts = us := by
  obtain ⟨ls, run, rfl⟩ := Lexeme.exists_readFrom h 0
  obtain ⟨ls', run', rfl⟩ := Lexeme.exists_readFrom h' 0
  rw [Except.ok.inj (run.symm.trans run')]

/-- The texts split into the same tokens. -/
def Alike (source source' : String) : Prop :=
  ∃ ts, Splits source.toList ts ∧ Splits source'.toList ts

theorem Alike.visible_eq {source source' : String} (h : Alike source source') :
    visible source.toList = visible source'.toList := by
  obtain ⟨ts, splits, splits'⟩ := h
  rw [splits.visible_eq, splits'.visible_eq]

end Token

namespace Filter

open Lexeme Token

variable {source source' : String} {f f' : Filter String}

/-- The text of a filter that has been read has the tokens that were read. -/
theorem alike_text (h : parse source = .ok f) : Alike source f.text := by
  obtain ⟨ts, splits, spelled, _⟩ := spelled_of_parse h
  obtain ⟨us, text⟩ := (expressible_of_parse h).1.spelled
  have same : us = ts := text.disjunction.spelling_eq.symm.trans spelled.spelling_eq
  exact ⟨ts, splits, same ▸ text.splits⟩

theorem eq_iff_alike (h : parse source = .ok f) (h' : parse source' = .ok f') :
    f = f' ↔ Alike source source' := by
  obtain ⟨ts, splits, spelled, shallow⟩ := spelled_of_parse h
  constructor
  · rintro rfl
    obtain ⟨us, splits', spelled', _⟩ := spelled_of_parse h'
    have same : us = ts := spelled'.spelling_eq.symm.trans spelled.spelling_eq
    exact ⟨ts, splits, same ▸ splits'⟩
  · rintro ⟨us, common, common'⟩
    obtain rfl := splits.right_unique common
    have read : parse source' = .ok f := parse_eq_ok_of_spelled common' spelled shallow
    exact Except.ok.inj (read.symm.trans h')

/-- Reading forgets the blanks of a text and nothing else. A filter that has been read has the
tokens of the text in its own text, which is read as this filter. Texts are read as the same filter
exactly when they have the same tokens, and texts with the same tokens are refused for the same flaw
at the same token, or at the end. -/
theorem parse_forgets_blanks :
    (∀ source f, parse source = .ok f →
      Alike source f.text ∧ visible source.toList = visible f.text.toList ∧
        parse f.text = .ok f) ∧
    (∀ source source' f f', parse source = .ok f → parse source' = .ok f' →
      (f = f' ↔ Alike source source')) ∧
    ∀ source source' ls ls', Lexeme.read source = .ok ls → Lexeme.read source' = .ok ls' →
      tokens ls = tokens ls' →
      (∃ f, parse source = .ok f ∧ parse source' = .ok f) ∨
        ∃ i flaw, i ≤ ls.length ∧
          parse source =
            .error (.malformed (nextOffset (Utf8.length source) (ls.drop i)) flaw) ∧
          parse source' =
            .error (.malformed (nextOffset (Utf8.length source') (ls'.drop i)) flaw) := by
  refine ⟨fun source f h => ?_, fun source source' f f' h h' => eq_iff_alike h h', ?_⟩
  · have alike := alike_text h
    obtain ⟨expressible, shallow⟩ := expressible_of_parse h
    exact ⟨alike, alike.visible_eq, parse_text expressible shallow⟩
  · intro source source' ls ls' read read' same
    rw [parse_of_read read, parse_of_read read']
    exact ofLexemes_of_tokens same

theorem parse_forgets_blanks_of_two_texts :
    let f : Filter String := (clause ⟨"a", .equal, "x", true, none⟩).and
      (clause ⟨"b", .less, "y", false, none⟩).not
    Alike "a==@x true AND NOT b<@y false" f.text ∧ parse f.text = .ok f ∧
      Alike "a==@x true AND NOT b<@y false" "a == @ x\ttrue\nAND NOT b <@y false " ∧
      ∃ flaw, parse "a==@x AND b" = .error (.malformed 6 flaw) ∧
        parse "a == @x\n AND b" = .error (.malformed 9 flaw) := by
  intro f
  obtain ⟨printed, told_apart, refused⟩ := parse_forgets_blanks
  have read : parse "a==@x true AND NOT b<@y false" = .ok f := by decide +kernel
  have read' : parse "a == @ x\ttrue\nAND NOT b <@y false " = .ok f := by decide +kernel
  obtain ⟨alike, _, again⟩ := printed _ _ read
  refine ⟨alike, again, (told_apart _ _ _ _ read read').mp rfl, ?_⟩
  have close : parse "a==@x AND b" =
      .error (.malformed 6 (.expected .flag (some (.word "AND")))) := by decide +kernel
  have wide : Lexeme.read "a == @x\n AND b" = .ok [⟨0, .word "a"⟩, ⟨2, .operator "=="⟩,
      ⟨5, .atSign⟩, ⟨6, .word "x"⟩, ⟨9, .word "AND"⟩, ⟨13, .word "b"⟩] := by decide +kernel
  have narrow : Lexeme.read "a==@x AND b" = .ok [⟨0, .word "a"⟩, ⟨1, .operator "=="⟩,
      ⟨3, .atSign⟩, ⟨4, .word "x"⟩, ⟨6, .word "AND"⟩, ⟨10, .word "b"⟩] := by decide +kernel
  obtain ⟨f, accepted, _⟩ | ⟨i, flaw, _, at_close, at_wide⟩ := refused _ _ _ _ narrow wide rfl
  · cases close.symm.trans accepted
  · obtain ⟨place, -⟩ := FilterError.malformed.inj (Except.error.inj (close.symm.trans at_close))
    obtain rfl : i = 4 := by
      match i with
      | 0 | 1 | 2 | 3 | 5 => cases place
      | 4 => rfl
      | i + 6 => rw [List.drop_of_length_le (by simp)] at place; cases place
    exact ⟨flaw, at_close, at_wide⟩

end Filter

end TableWire
