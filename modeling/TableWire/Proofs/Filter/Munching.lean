import TableWire.Proofs.Filter.Boundaries
/-!
What the lexemes of a text are. They hold all of the text but its blanks, each is as long as the
characters around it allow, and a text that has none fails at its first character that is neither a
blank nor a part of a token.
-/

namespace TableWire

namespace Lexeme

open Token

/-- The offset behind the token. -/
def stop (t : Lexeme) : Nat := t.offset + Utf8.length t.token.text

/-- The byte at this offset belongs to the token. -/
def Covers (t : Lexeme) (o : Nat) : Prop := t.offset ≤ o ∧ o < t.stop

/-- The token is what stands in the text at its offset. Neither of the characters beside it makes it
longer. -/
structure StandsIn (cs : List Char) (t : Lexeme) (before after : List Char) : Prop where
  split : cs = before ++ (t.token.text.toList ++ after)
  offset : t.offset = String.utf8Len before
  spelled : t.token.Spelled
  left : ∀ c ∈ before.getLast?, t.token.extends? c = false
  right : ∀ c ∈ after.head?, t.token.extends? c = false

/-- The character at the end of `before` is a blank, or one of the lexemes has it. -/
def BlankOrCovered (ls : List Lexeme) (before : List Char) (c : Char) : Prop :=
  isBlank c ∨ ∃ t ∈ ls, t.Covers (String.utf8Len before)

/-- The scan has passed the lexemes in `passed`, and nothing of it goes on in `rest`. -/
structure Munched (before passed rest : List Char) (ls : List Lexeme) : Prop where
  fits : Everywhere Fits before passed
  apart : Apart (before ++ passed) rest
  behind : ∀ t ∈ ls, String.utf8Len before ≤ t.offset
  ordered : ls.Pairwise fun s t => s.offset < t.offset ∧ s.stop ≤ t.offset
  stands : ∀ t ∈ ls, ∃ pre post, t.StandsIn (before ++ (passed ++ rest)) pre post
  covered : Everywhere (BlankOrCovered ls) before passed

namespace Munched

variable {before passed run rest : List Char} {ls : List Lexeme} {c : Char} {t : Token}

theorem nil (apart : Apart before rest) : Munched before [] rest [] where
  fits := everywhere_nil
  apart := by rwa [List.append_nil]
  behind := nofun
  ordered := .nil
  stands := nofun
  covered := everywhere_nil

theorem blank (blank : isBlank c) (h : Munched (before ++ [c]) passed rest ls) :
    Munched before (c :: passed) rest ls where
  fits := everywhere_cons.mpr ⟨.inl blank, h.fits⟩
  apart := by simpa using h.apart
  behind t ht := by
    have := h.behind t ht
    rw [String.utf8Len_append] at this
    omega
  ordered := h.ordered
  stands := by simpa using h.stands
  covered := everywhere_cons.mpr ⟨.inl blank, h.covered⟩

theorem length_text (leads : Leads run t (passed ++ rest)) :
    Utf8.length t.text = String.utf8Len run := by
  rw [← leads.toList_text, Utf8.length_eq, ← String.utf8ByteSize_ofList, String.ofList_toList]

theorem token (leads : Leads run t (passed ++ rest))
    (apart : Apart before (run ++ (passed ++ rest)))
    (h : Munched (before ++ run) passed rest ls) :
    Munched before (run ++ passed) rest (⟨String.utf8Len before, t⟩ :: ls) where
  fits := everywhere_append.mpr ⟨leads.toList_text ▸ leads.spelled.fits, h.fits⟩
  apart := by simpa using h.apart
  behind := by
    refine List.forall_mem_cons.mpr ⟨Nat.le_refl _, fun s hs => ?_⟩
    have := h.behind s hs
    rw [String.utf8Len_append] at this
    omega
  ordered := by
    refine List.pairwise_cons.mpr ⟨fun s hs => ?_, h.ordered⟩
    have behind := h.behind s hs
    have := Nat.pos_of_ne_zero (String.utf8Len_eq_zero.not.mpr leads.spelled.ne_nil)
    rw [leads.toList_text] at this
    rw [String.utf8Len_append] at behind
    simp only [stop, length_text leads]
    omega
  stands := by
    refine List.forall_mem_cons.mpr ⟨⟨before, passed ++ rest, ?_⟩, by simpa using h.stands⟩
    exact {
      split := by simp [leads.toList_text]
      offset := rfl
      spelled := leads.spelled
      left := leads.starts apart
      right := leads.ends }
  covered := by
    refine everywhere_append.mpr ⟨fun pre c post split => .inr ⟨_, List.mem_cons_self, ?_⟩, ?_⟩
    · have size := congrArg String.utf8Len split
      have := c.utf8Size_pos
      simp only [String.utf8Len_append, String.utf8Len_cons] at size
      simp only [Covers, stop, length_text leads, String.utf8Len_append]
      omega
    · exact h.covered.imp fun pre c => Or.imp_right fun ⟨s, hs, covers⟩ =>
        ⟨s, List.mem_cons_of_mem _ hs, covers⟩

end Munched

/-- What a scan passes by is munched. -/
theorem Scans.munched {o o' : Nat} {before cs rest : List Char} {ls : List Lexeme}
    (h : Scans o cs ls o' rest) (start : o = String.utf8Len before) (apart : Apart before cs) :
    ∃ passed, cs = passed ++ rest ∧ o' = String.utf8Len (before ++ passed) ∧
      Munched before passed rest ls := by
  induction h generalizing before with
  | stop => exact ⟨[], rfl, by simpa using start, .nil apart⟩
  | @blank o _ c cs rest ls blank _ ih =>
    have onward : o + c.utf8Size = String.utf8Len (before ++ [c]) := by simp [start]
    obtain ⟨passed, rfl, stop, munched⟩ := ih onward (apart_blank blank)
    exact ⟨c :: passed, rfl, by simpa using stop, .blank blank munched⟩
  | @token o _ t run cs rest ls leads _ ih =>
    have onward : o + String.utf8Len run = String.utf8Len (before ++ run) := by simp [start]
    obtain ⟨passed, rfl, stop, munched⟩ := ih onward leads.apart
    subst start
    exact ⟨run ++ passed, by simp, by simpa using stop, .token leads apart munched⟩

/-- The lexemes are all that there is in the text but blanks, and stand in it one behind the other.
-/
structure Lossless (source : String) (ls : List Lexeme) : Prop where
  ordered : ls.Pairwise fun s t => s.offset < t.offset ∧ s.stop ≤ t.offset
  stands : ∀ t ∈ ls, ∃ before after, t.StandsIn source.toList before after
  covered : Everywhere (BlankOrCovered ls) [] source.toList

section Unique

variable {cs before after pre post pre' post' : List Char} {s t : Lexeme} {c : Char}

theorem ext (token : s.token = t.token) (offset : s.offset = t.offset) : s = t := by
  cases s
  cases t
  simp_all

theorem stop_eq (t : Lexeme) : t.stop = t.offset + String.utf8Len t.token.text.toList := by
  rw [stop, Utf8.length_eq, ← String.utf8ByteSize_ofList, String.ofList_toList]

namespace StandsIn

/-- A character that the token covers is one of its characters. -/
theorem exists_inside (h : t.StandsIn cs pre post) (split : cs = before ++ c :: after)
    (covers : t.Covers (String.utf8Len before)) :
    ∃ mid run, before = pre ++ mid ∧ t.token.text.toList = mid ++ c :: run ∧
      after = run ++ post := by
  obtain ⟨from_start, to_stop⟩ := covers
  rw [stop_eq, h.offset] at to_stop
  rw [h.offset] at from_start
  have same := split.symm.trans h.split
  -- the character stands neither before nor behind the token
  obtain ⟨mid, rfl, rest⟩ : ∃ mid, before = pre ++ mid ∧
      t.token.text.toList ++ post = mid ++ c :: after := by
    rcases List.append_eq_append_iff.mp same with ⟨mid, rfl, rest⟩ | ⟨mid, rfl, rest⟩
    · rw [String.utf8Len_append] at from_start
      obtain rfl := String.utf8Len_eq_zero.mp (show String.utf8Len mid = 0 by omega)
      exact ⟨[], by simp, rest.symm⟩
    · exact ⟨mid, rfl, rest⟩
  rw [String.utf8Len_append] at to_stop
  rcases List.append_eq_append_iff.mp rest with ⟨k, rfl, _⟩ | ⟨k, text, rest⟩
  · rw [String.utf8Len_append] at to_stop
    omega
  · cases k with
    | nil =>
      rw [text, List.append_nil] at to_stop
      omega
    | cons d run =>
      obtain ⟨rfl, rfl⟩ := List.cons.inj rest
      exact ⟨mid, run, rfl, text, rfl⟩

theorem takeWhile_eq (h : t.StandsIn cs pre post) (ne : t.token ≠ .atSign) :
    (t.token.text.toList ++ post).takeWhile t.token.extends? = t.token.text.toList :=
  Run.takeWhile_append
    ⟨fun c hc => (h.spelled.all c hc).resolve_left fun sign => ne sign.2, h.right⟩

/-- What a token has before the first character of another of its kind would make that longer. -/
theorem eq_nil_of_extends? {mid run : List Char} (h : s.StandsIn cs (pre' ++ mid) post)
    (h' : t.StandsIn cs pre' post') (text : t.token.text.toList = mid ++ run)
    (kind : s.token.extends? = t.token.extends?) (ne : t.token ≠ .atSign) : mid = [] := by
  by_contra some_mid
  obtain ⟨e, last⟩ := Option.ne_none_iff_exists'.mp (List.getLast?_eq_none_iff.not.mpr some_mid)
  have ended := h.left e (by rw [List.getLast?_append_of_ne_nil _ some_mid]; exact last)
  have inside := h'.spelled.all e (by simp [text, List.mem_of_getLast? last])
  simp [kind, inside.resolve_left fun sign => ne sign.2] at ended

/-- Tokens do not overlap. -/
theorem eq_of_covers (h : s.StandsIn cs pre post) (h' : t.StandsIn cs pre' post')
    (covers : t.Covers s.offset) : s = t := by
  obtain ⟨d, run, chars⟩ := List.exists_cons_of_ne_nil h.spelled.ne_nil
  have split : cs = pre ++ d :: (run ++ post) := by simpa [chars] using h.split
  obtain ⟨mid, run', rfl, text, rest⟩ := h'.exists_inside split (h.offset ▸ covers)
  rcases h.spelled.all d (by simp [chars]) with ⟨rfl, sign⟩ | own
  · rcases h'.spelled.all '@' (by simp [text]) with ⟨_, sign'⟩ | other
    · rw [sign', Token.text, show "@".toList = ['@'] from rfl] at text
      obtain ⟨rfl, _⟩ : mid = [] ∧ run' = [] := by
        simpa using List.append_eq_singleton_iff.mp text.symm
      exact ext (sign.trans sign'.symm) (by simp [h.offset, h'.offset])
    · simp [not_extends?_atSign] at other
  · have other : t.token.extends? d := by
      refine (h'.spelled.all d (by simp [text])).resolve_left fun sign => ?_
      simp [sign.1, not_extends?_atSign] at own
    have kind := extends?_unique own other
    have no_sign {u : Lexeme} (longer : u.token.extends? d) : u.token ≠ .atSign := fun sign => by
      simp [sign, extends?] at longer
    obtain rfl := eq_nil_of_extends? h h' text kind (no_sign other)
    have same : s.token.text.toList ++ post = t.token.text.toList ++ post' := by
      simp [chars, text, rest]
    have texts := congrArg (List.takeWhile s.token.extends?) same
    rw [h.takeWhile_eq (no_sign own), kind, h'.takeWhile_eq (no_sign other)] at texts
    exact ext (eq_of_text kind (String.toList_inj.mp texts)) (by simp [h.offset, h'.offset])

end StandsIn

/-- The lexemes are told by the text. -/
theorem Lossless.mem {source : String} {ls ms : List Lexeme} (h : Lossless source ls)
    (h' : Lossless source ms) : ∀ s ∈ ls, s ∈ ms := by
  intro s hs
  obtain ⟨pre, post, stands⟩ := h.stands s hs
  obtain ⟨d, run, chars⟩ := List.exists_cons_of_ne_nil stands.spelled.ne_nil
  have split : source.toList = pre ++ d :: (run ++ post) := by simpa [chars] using stands.split
  rcases h'.covered pre d (run ++ post) split with blank | ⟨t, ht, covers⟩
  · exact absurd blank (stands.spelled.not_isBlank d (by simp [chars]))
  · obtain ⟨pre', post', stands'⟩ := h'.stands t ht
    have covers : t.Covers s.offset := stands.offset ▸ covers
    rwa [stands.eq_of_covers stands' covers]

theorem Lossless.unique {source : String} {ls ms : List Lexeme} (h : Lossless source ls)
    (h' : Lossless source ms) : ls = ms := by
  have ascending {ls : List Lexeme} (h : Lossless source ls) :
      ls.Pairwise fun s t => s.offset < t.offset := h.ordered.imp And.left
  have nodup {ls : List Lexeme} (h : Lossless source ls) : ls.Nodup :=
    (ascending h).imp fun lt same => by simp [same] at lt
  have perm := (List.perm_ext_iff_of_nodup (nodup h) (nodup h')).mpr fun s =>
    ⟨h.mem h' s, h'.mem h s⟩
  refine perm.eq_of_pairwise (fun s t _ _ lt gt => ?_) (ascending h) (ascending h')
  omega

theorem Lossless.fits {source : String} {ls : List Lexeme} (h : Lossless source ls) :
    Everywhere Fits [] source.toList := by
  intro before c after split
  rcases h.covered before c after split with blank | ⟨t, ht, covers⟩
  · exact .inl blank
  · obtain ⟨pre, post, stands⟩ := h.stands t ht
    obtain ⟨mid, run, rfl, text, _⟩ := stands.exists_inside split covers
    exact stands.spelled.fits mid c run text

end Unique

theorem read_of_munched {source : String} :
    (∃ ls, read source = .ok ls ∧ Lossless source ls) ∨
      ∃ before c, FirstFailure Fits source.toList before c ∧
        read source = .error (.malformed (String.utf8Len before) (.unexpectedCharacter c)) := by
  obtain ⟨ls, o, rest, scans, stuck⟩ := exists_scans 0 source.toList
  obtain ⟨passed, split, rfl, munched⟩ := scans.munched rfl apart_nil
  cases rest with
  | nil =>
    rw [List.append_nil] at split
    refine .inl ⟨ls, scans.read_of_end, munched.ordered, ?_, ?_⟩
    · simpa [split] using munched.stands
    · exact split ▸ munched.covered
  | cons c rest =>
    have starts : StartsNone c := stuck c rfl
    refine .inr ⟨passed, c, ⟨⟨rest, split⟩, munched.fits, ?_⟩, scans.read_of_startsNone starts⟩
    exact starts.not_fits munched.apart

/-- A text has lexemes exactly when each of its characters is a blank or a part of a token, and
otherwise the first character that is neither is blamed. The lexemes are the only ones that stand in
the text, are as long as they can be, do not overlap and leave nothing out but blanks. -/
theorem read_munches (source : String) :
    ((∃ ls, read source = .ok ls) ↔ Everywhere Fits [] source.toList) ∧
    (∀ e, read source = .error e ↔ ∃ before c, FirstFailure Fits source.toList before c ∧
      e = .malformed (String.utf8Len before) (.unexpectedCharacter c)) ∧
    ∀ ls, read source = .ok ls ↔ Lossless source ls := by
  rcases read_of_munched with ⟨ls, run, lossless⟩ | ⟨before, c, first, failed⟩
  · refine ⟨⟨fun _ => lossless.fits, fun _ => ⟨ls, run⟩⟩, fun e => ⟨fun failed => ?_, ?_⟩,
      fun ms => ⟨fun run' => ?_, fun lossless' => ?_⟩⟩
    · cases run.symm.trans failed
    · rintro ⟨before, c, first, _⟩
      exact absurd lossless.fits first.not_everywhere
    · obtain rfl := Except.ok.inj (run.symm.trans run')
      exact lossless
    · rw [run, lossless.unique lossless']
  · refine ⟨⟨fun ⟨ls, run⟩ => ?_, fun fits => ?_⟩, fun e => ⟨fun failed' => ?_, ?_⟩,
      fun ls => ⟨fun run => ?_, fun lossless => ?_⟩⟩
    · cases run.symm.trans failed
    · exact absurd fits first.not_everywhere
    · obtain rfl := Except.error.inj (failed.symm.trans failed')
      exact ⟨before, c, first, rfl⟩
    · rintro ⟨before', c', first', rfl⟩
      obtain ⟨rfl, rfl⟩ := first.unique first'
      exact failed
    · cases run.symm.trans failed
    · exact absurd lossless.fits first.not_everywhere

example : read "a>=@b1 2" = .error (.malformed 7 (.unexpectedCharacter '2')) := by decide +kernel

end Lexeme

end TableWire
