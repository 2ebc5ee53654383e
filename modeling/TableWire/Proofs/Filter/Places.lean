import TableWire.Bytes.Utf8
import TableWire.Proofs.Filter.Splitting
/-!
The scanning of filter texts with the places of the tokens. From the start of a text it comes to the
end, or to the first character at which no token can start.
-/

namespace TableWire

namespace Token

/-- In front of `rest` the characters spell the token. Words and operators are as long as they can
be. -/
inductive Leads : List Char → Token → List Char → Prop
  | word {c : Char} {run rest : List Char} : isWordStart c → Run isWordChar run rest →
    Leads (c :: run) (.word (String.ofList (c :: run))) rest
  | operator {c : Char} {run rest : List Char} : isOperatorChar c → Run isOperatorChar run rest →
    Leads (c :: run) (.operator (String.ofList (c :: run))) rest
  | atSign {rest : List Char} : Leads ['@'] .atSign rest

/-- The character is no blank, and no token starts with it. -/
def StartsNone (c : Char) : Prop :=
  ¬ isBlank c ∧ ¬ isWordStart c ∧ ¬ isOperatorChar c ∧ c ≠ '@'

theorem utf8Size_of_isWordChar {c : Char} (h : isWordChar c) : c.utf8Size = 1 := by
  rw [Char.utf8Size_eq_one_iff, UInt32.le_iff_toNat_le]
  simp only [isWordChar_iff, isWordStart_iff, Char.le_def, UInt32.le_iff_toNat_le] at h
  rcases h with (⟨_, high⟩ | ⟨_, high⟩ | rfl) | ⟨_, high⟩
  · exact Nat.le_trans high (by decide)
  · exact Nat.le_trans high (by decide)
  · decide
  · exact Nat.le_trans high (by decide)

theorem utf8Size_of_isOperatorChar {c : Char} (h : isOperatorChar c) : c.utf8Size = 1 := by
  simp only [isOperatorChar_iff, List.mem_cons, List.not_mem_nil, or_false] at h
  rcases h with rfl | rfl | rfl | rfl <;> rfl

theorem isWordChar_of_isWordStart {c : Char} (h : isWordStart c) : isWordChar c :=
  isWordChar_iff.mpr (.inl h)

/-- In words and operators every character takes one byte. -/
theorem utf8Len_eq_length {p : Char → Bool} (size : ∀ {c : Char}, p c → c.utf8Size = 1)
    {cs : List Char} (all : ∀ c ∈ cs, p c) : String.utf8Len cs = cs.length := by
  induction cs with
  | nil => rfl
  | cons c cs ih =>
    obtain ⟨first, others⟩ := List.forall_mem_cons.mp all
    rw [String.utf8Len_cons, List.length_cons, ih others, size first]

theorem longest_run (p : Char → Bool) (cs : List Char) :
    ∃ run rest, cs = run ++ rest ∧ Run p run rest :=
  ⟨_, _, List.takeWhile_append_dropWhile.symm, .takeWhile_dropWhile p cs⟩

theorem exists_leads {c : Char} (cs : List Char) (blank : ¬ isBlank c) (starts : ¬ StartsNone c) :
    ∃ run rest t, cs = run ++ rest ∧ Leads (c :: run) t rest := by
  by_cases word : isWordStart c
  · obtain ⟨run, rest, rfl, longest⟩ := longest_run isWordChar cs
    exact ⟨run, rest, _, rfl, .word word longest⟩
  by_cases operator : isOperatorChar c
  · obtain ⟨run, rest, rfl, longest⟩ := longest_run isOperatorChar cs
    exact ⟨run, rest, _, rfl, .operator operator longest⟩
  by_cases atSign : c = '@'
  · subst atSign
    exact ⟨[], cs, _, rfl, .atSign⟩
  · exact absurd ⟨blank, word, operator, atSign⟩ starts

end Token

namespace Lexeme

open Token

/-- From `cs` at the offset `o`, over the lexemes `ls` and the blanks between them, to `rest` at the
offset `o'`. -/
inductive Scans : Nat → List Char → List Lexeme → Nat → List Char → Prop
  | stop {o : Nat} {cs : List Char} : Scans o cs [] o cs
  | blank {o o' : Nat} {c : Char} {cs rest : List Char} {ls : List Lexeme} :
    isBlank c → Scans (o + c.utf8Size) cs ls o' rest → Scans o (c :: cs) ls o' rest
  | token {o o' : Nat} {t : Token} {run cs rest : List Char} {ls : List Lexeme} :
    Leads run t cs → Scans (o + String.utf8Len run) cs ls o' rest →
      Scans o (run ++ cs) (⟨o, t⟩ :: ls) o' rest

theorem readFrom_of_leads {o : Nat} {run rest : List Char} {t : Token} (h : Leads run t rest) :
    readFrom o (run ++ rest) = (⟨o, t⟩ :: ·) <$> readFrom (o + String.utf8Len run) rest := by
  cases h with
  | word start run =>
    rw [List.cons_append, readFrom_word start run, String.utf8Len_cons,
      utf8Len_eq_length utf8Size_of_isWordChar run.all,
      utf8Size_of_isWordChar (isWordChar_of_isWordStart start), Nat.add_right_comm, Nat.add_assoc]
  | operator start run =>
    rw [List.cons_append, readFrom_operator start run, String.utf8Len_cons,
      utf8Len_eq_length utf8Size_of_isOperatorChar run.all, utf8Size_of_isOperatorChar start,
      Nat.add_right_comm, Nat.add_assoc]
  | atSign => exact readFrom_atSign

/-- Reading does what the scan does, and goes on where this stops. -/
theorem readFrom_of_scans {o o' : Nat} {cs rest : List Char} {ls : List Lexeme}
    (h : Scans o cs ls o' rest) : readFrom o cs = (ls ++ ·) <$> readFrom o' rest := by
  induction h with
  | stop => exact (id_map _).symm
  | blank blank _ ih => rw [readFrom, if_pos blank, ih]
  | token leads _ ih =>
    rw [readFrom_of_leads leads, ih, Functor.map_map]
    rfl

theorem readFrom_of_startsNone {o : Nat} {c : Char} {cs : List Char} (h : StartsNone c) :
    readFrom o (c :: cs) = .error (.malformed o (.unexpectedCharacter c)) := by
  rw [readFrom, if_neg h.1, if_neg h.2.1, if_neg h.2.2.1, if_neg h.2.2.2]

/-- A scan comes to the end, or to a character that stops it. -/
theorem exists_scans (o : Nat) (cs : List Char) :
    ∃ ls o' rest, Scans o cs ls o' rest ∧ ∀ c ∈ rest.head?, StartsNone c := by
  induction size : cs.length using Nat.strong_induction_on generalizing o cs with
  | _ n ih =>
    subst size
    cases cs with
    | nil => exact ⟨[], o, [], .stop, nofun⟩
    | cons c cs =>
      by_cases blank : isBlank c
      · obtain ⟨ls, o', rest, scans, stuck⟩ := ih _ (Nat.lt_succ_self _) _ cs rfl
        exact ⟨ls, o', rest, .blank blank scans, stuck⟩
      by_cases starts : StartsNone c
      · exact ⟨[], o, c :: cs, .stop, by simpa using starts⟩
      · obtain ⟨run, cs, t, rfl, leads⟩ := exists_leads cs blank starts
        obtain ⟨ls, o', rest, scans, stuck⟩ := ih cs.length (by simp) _ cs rfl
        exact ⟨_, o', rest, .token leads scans, stuck⟩

variable {o o' : Nat} {cs rest : List Char} {ls : List Lexeme}

/-- An offset counts the bytes of the characters that the scan has passed. -/
theorem Scans.offset_eq (h : Scans o cs ls o' rest) :
    ∃ passed, cs = passed ++ rest ∧ o' = o + String.utf8Len passed := by
  induction h with
  | stop => exact ⟨[], rfl, rfl⟩
  | @blank _ _ c _ _ _ _ _ ih =>
    obtain ⟨passed, rfl, rfl⟩ := ih
    exact ⟨c :: passed, rfl, by rw [String.utf8Len_cons, Nat.add_assoc, Nat.add_comm c.utf8Size]⟩
  | @token _ _ _ run _ _ _ _ _ ih =>
    obtain ⟨passed, rfl, rfl⟩ := ih
    exact ⟨run ++ passed, by simp, by rw [String.utf8Len_append, Nat.add_assoc]⟩

/-- The scan comes by the place of each of its lexemes. -/
theorem Scans.to_lexeme {before after : List Lexeme} {t : Lexeme}
    (h : Scans o cs (before ++ t :: after) o' rest) :
    ∃ rest', Scans o cs before t.offset rest' := by
  generalize same : before ++ t :: after = ls at h
  induction h generalizing before with
  | stop => simp at same
  | blank blank _ ih => exact (ih same).imp fun _ => .blank blank
  | token leads _ ih =>
    cases before with
    | nil =>
      cases same
      exact ⟨_, .stop⟩
    | cons l before =>
      obtain ⟨rfl, onward⟩ := List.cons.inj same
      exact (ih onward).imp fun _ => .token leads

theorem Scans.read_of_end {source : String} (h : Scans 0 source.toList ls o []) :
    read source = .ok ls := by
  rw [read, readFrom_of_scans h, readFrom]
  exact congrArg Except.ok (List.append_nil ls)

theorem Scans.read_of_startsNone {source : String} {c : Char}
    (h : Scans 0 source.toList ls o (c :: rest)) (starts : StartsNone c) :
    read source = .error (.malformed o (.unexpectedCharacter c)) := by
  rw [read, readFrom_of_scans h, readFrom_of_startsNone starts]
  rfl

theorem read_eq_error {source : String} {e : FilterError} (refused : read source = .error e) :
    ∃ p c, e = .malformed p (.unexpectedCharacter c) := by
  obtain ⟨ls, p, rest, scans, stuck⟩ := exists_scans 0 source.toList
  cases rest with
  | nil => cases scans.read_of_end.symm.trans refused
  | cons c rest =>
    cases (scans.read_of_startsNone (stuck c rfl)).symm.trans refused
    exact ⟨p, c, rfl⟩

/-- The places of a scan are boundaries between characters of the text. -/
theorem Scans.isValid {source : String} (h : Scans 0 source.toList ls o rest) :
    String.Pos.Raw.IsValid source ⟨o⟩ := by
  obtain ⟨passed, split, rfl⟩ := h.offset_eq
  rw [String.Pos.Raw.isValid_iff_exists_append]
  refine ⟨String.ofList passed, String.ofList rest, ?_, ?_⟩
  · rw [← String.ofList_append, ← split, String.ofList_toList]
  · rw [Nat.zero_add, String.rawEndPos, String.utf8ByteSize_ofList]

theorem Scans.isValid_of_mem {source : String} {p : Nat} (h : Scans 0 source.toList ls p rest)
    (mem : ∃ t ∈ ls, t.offset = o) : String.Pos.Raw.IsValid source ⟨o⟩ := by
  obtain ⟨t, ht, rfl⟩ := mem
  obtain ⟨before, after, rfl⟩ := List.append_of_mem ht
  obtain ⟨rest', h⟩ := h.to_lexeme
  exact h.isValid

end Lexeme

end TableWire
