import TableWire.Proofs.Scan.Span
/-!
Layouts: the written forms of a part, each with its content and with what may stand behind it. A
part that may be left out is known by the next byte alone, so its absence constrains what follows.
-/

namespace TableWire

/-- A part that may be left out, behind its tag. -/
def tagged {φ : Type} (tag : UInt8) (write : φ → Bytes) : Option φ → Bytes
  | none => []
  | some f => tag :: write f

theorem tagged_map {φ ψ : Type} {tag : UInt8} {write : ψ → Bytes} {g : φ → ψ} {f : Option φ} :
    tagged tag write (f.map g) = tagged tag (fun x => write (g x)) f := by
  cases f <;> rfl

structure Layout (φ α : Type) : Type where
  bytes : φ → Bytes
  content : φ → α
  /-- Whether a form can be told from its bytes when these are next. -/
  Before : φ → Bytes → Prop

namespace Layout

variable {φ α : Type}

/-- A part that ends where it says itself. -/
def plain (bytes : φ → Bytes) (content : φ → α) : Layout φ α where
  bytes := bytes
  content := content
  Before _ _ := True

/-- Bytes behind their length. -/
def sized : Layout Bytes Bytes where
  bytes := sizedBytes
  content := id
  Before bs _ := bs.length < UInt32.size

/-- Bytes of a known number. -/
def fixed (n : Nat) : Layout Bytes Bytes where
  bytes := id
  content := id
  Before bs _ := bs.length = n

def OptionalBefore (tag : UInt8) (L : Layout φ α) : Option φ → Bytes → Prop
  | none, rest => Avoids tag rest
  | some f, rest => L.Before f rest

def optional (tag : UInt8) (L : Layout φ α) : Layout (Option φ) (Option α) where
  bytes := tagged tag L.bytes
  content f := f.map L.content
  Before := L.OptionalBefore tag

def manyBytes (tag : UInt8) (L : Layout φ α) (fs : List φ) : Bytes :=
  fs.flatMap fun f => tag :: L.bytes f

def ManyBefore (tag : UInt8) (L : Layout φ α) : List φ → Bytes → Prop
  | [], rest => Avoids tag rest
  | f :: fs, rest => L.Before f (L.manyBytes tag fs ++ rest) ∧ L.ManyBefore tag fs rest

/-- Any number of parts, each behind the same tag. -/
def many (tag : UInt8) (L : Layout φ α) : Layout (List φ) (List α) where
  bytes := L.manyBytes tag
  content fs := fs.map L.content
  Before := L.ManyBefore tag

/-- What stands first in some bytes is at most one of the forms. -/
def Unambiguous (L : Layout φ α) : Prop :=
  ∀ ⦃f g : φ⦄ ⦃rest rest' : Bytes⦄, L.bytes f ++ rest = L.bytes g ++ rest' →
    L.Before f rest → L.Before g rest' → f = g ∧ rest = rest'

theorem avoids_tagged_append {ψ : Type} {tag other : UInt8} (ne : other ≠ tag) {write : ψ → Bytes}
    {f : Option ψ} {rest : Bytes} (h : Avoids tag rest) :
    Avoids tag (tagged other write f ++ rest) := by
  cases f with
  | none => exact h
  | some f => exact ne

theorem avoids_many_append {tag other : UInt8} (ne : other ≠ tag) {L : Layout φ α} {fs : List φ}
    {rest : Bytes} (h : Avoids tag rest) : Avoids tag (L.manyBytes other fs ++ rest) := by
  cases fs with
  | nil => exact h
  | cons f fs => exact ne

theorem Unambiguous.optional {L : Layout φ α} (h : L.Unambiguous) (tag : UInt8) :
    (L.optional tag).Unambiguous := by
  intro f g rest rest' same hf hg
  cases f with
  | none =>
    cases g with
    | none => exact ⟨rfl, same⟩
    | some g =>
      cases (show rest = tag :: (L.bytes g ++ rest') from same)
      exact absurd rfl hf
  | some f =>
    cases g with
    | none =>
      cases (show tag :: (L.bytes f ++ rest) = rest' from same)
      exact absurd rfl hg
    | some g =>
      obtain ⟨rfl, rfl⟩ := h (List.cons.inj same).2 hf hg
      exact ⟨rfl, rfl⟩

theorem Unambiguous.many {L : Layout φ α} (h : L.Unambiguous) (tag : UInt8) :
    (L.many tag).Unambiguous := by
  intro fs gs rest rest' same hf hg
  change L.manyBytes tag fs ++ rest = L.manyBytes tag gs ++ rest' at same
  change L.ManyBefore tag fs rest at hf
  change L.ManyBefore tag gs rest' at hg
  induction fs generalizing gs with
  | nil =>
    cases gs with
    | nil => exact ⟨rfl, same⟩
    | cons g gs =>
      cases (show rest = tag :: (L.bytes g ++ L.manyBytes tag gs ++ rest') from same)
      exact absurd rfl hf
  | cons f fs ih =>
    cases gs with
    | nil =>
      cases (show tag :: (L.bytes f ++ L.manyBytes tag fs ++ rest) = rest' from same)
      exact absurd rfl hg
    | cons g gs =>
      simp only [manyBytes, List.flatMap_cons, List.cons_append, List.append_assoc,
        List.cons.injEq, true_and] at same
      obtain ⟨rfl, behind⟩ := h same hf.1 hg.1
      obtain ⟨rfl, rfl⟩ := ih behind hf.2 hg.2
      exact ⟨rfl, rfl⟩

theorem optional_before {tag : UInt8} {L : Layout φ α} {f : Option φ} {rest : Bytes}
    (avoids : f = none → Avoids tag rest) (before : ∀ x ∈ f, L.Before x rest) :
    (L.optional tag).Before f rest := by
  cases f with
  | none => exact avoids rfl
  | some x => exact before x rfl

theorem optional_plain_before_iff {tag : UInt8} {bytes : φ → Bytes} {content : φ → α} {f : Option φ}
    {rest : Bytes} :
    ((plain bytes content).optional tag).Before f rest ↔ (f = none → Avoids tag rest) := by
  cases f <;> simp [optional, OptionalBefore, plain]

theorem sized_unambiguous : sized.Unambiguous := by
  intro xs ys rest rest' same fits fits'
  simp only [sized, sizedBytes, List.append_assoc] at same fits fits'
  obtain ⟨lengths, same⟩ := List.append_inj same (by simp)
  have lengths := congrArg LittleEndian.decode lengths
  rw [word32, word32, LittleEndian.decode_encode_of_lt fits,
    LittleEndian.decode_encode_of_lt fits'] at lengths
  exact List.append_inj same lengths

theorem fixed_unambiguous (n : Nat) : (fixed n).Unambiguous :=
  fun _ _ _ _ same size size' => List.append_inj same (size.trans size'.symm)

theorem byte_unambiguous : (plain (fun b : UInt8 => [b]) id).Unambiguous := by
  rintro b b' rest rest' ⟨⟩ _ _
  exact ⟨rfl, rfl⟩

/-- A tag that stands alone. -/
theorem flag_unambiguous {tag : UInt8} {b b' : Bool} {rest rest' : Bytes}
    (same : (if b then [tag] else []) ++ rest = (if b' then [tag] else []) ++ rest')
    (h : b = false → Avoids tag rest) (h' : b' = false → Avoids tag rest') :
    b = b' ∧ rest = rest' := by
  cases b with
  | false =>
    cases b' with
    | false => exact ⟨rfl, same⟩
    | true =>
      cases (show rest = tag :: rest' from same)
      exact absurd rfl (h rfl)
  | true =>
    cases b' with
    | false =>
      cases (show tag :: rest = rest' from same)
      exact absurd rfl (h' rfl)
    | true => exact ⟨rfl, (List.cons.inj same).2⟩

end Layout

namespace Scan

variable {φ α : Type}

/-- The scanner succeeds exactly on the forms of the layout, and yields their content. -/
def Reads (p : Scan α) (L : Layout φ α) : Prop :=
  ∀ c a d, p c = .ok a d ↔ ∃ f, c.Spans (L.bytes f) d ∧ L.content f = a ∧ L.Before f d.rest

theorem optional_eq_none {tag : UInt8} {p : Scan α} {c d : Cursor} :
    optional tag p c = .ok none d ↔ d = c ∧ Avoids tag c.rest := by
  simp only [optional, bind_eq_ok, Bool.exists_bool, accept_eq_false, accept_eq_true]
  simp [map_eq_ok, pure_eq_ok, eq_comm, and_comm]

theorem optional_eq_some {tag : UInt8} {p : Scan α} {c d : Cursor} {a : α} :
    optional tag p c = .ok (some a) d ↔ ∃ e, c.Spans [tag] e ∧ p e = .ok a d := by
  simp only [optional, bind_eq_ok, Bool.exists_bool, accept_eq_false, accept_eq_true]
  simp [map_eq_ok, pure_eq_ok]

theorem Reads.optional {p : Scan α} {L : Layout φ α} (h : p.Reads L) (tag : UInt8) :
    (Scan.optional tag p).Reads (L.optional tag) := by
  intro c x d
  cases x with
  | none =>
    rw [optional_eq_none]
    constructor
    · rintro ⟨rfl, avoids⟩
      exact ⟨none, Cursor.spans_nil.mpr rfl, rfl, avoids⟩
    · rintro ⟨f, span, content, before⟩
      cases f with
      | none =>
        obtain rfl := Cursor.spans_nil.mp span
        exact ⟨rfl, before⟩
      | some f => cases content
  | some a =>
    rw [optional_eq_some]
    constructor
    · rintro ⟨e, span, run⟩
      obtain ⟨f, span', content, before⟩ := (h e a d).mp run
      exact ⟨some f, span.trans span', congrArg some content, before⟩
    · rintro ⟨f, span, content, before⟩
      cases f with
      | none => cases content
      | some f =>
        obtain ⟨e, span, span'⟩ := Cursor.spans_cons.mp span
        exact ⟨e, span, (h e a d).mpr ⟨f, span', Option.some.inj content, before⟩⟩

theorem Reads.optional_plain_eq_ok {p : Scan α} {bytes : φ → Bytes} {content : φ → α}
    (h : p.Reads (.plain bytes content)) {tag : UInt8} {c d : Cursor} {x : Option α} :
    Scan.optional tag p c = .ok x d ↔
      ∃ f, c.Spans (tagged tag bytes f) d ∧ f.map content = x ∧
        (f = none → Avoids tag d.rest) := by
  rw [h.optional tag c x d]
  simp only [Layout.optional_plain_before_iff]
  rfl

/-- A byte behind its tag, with the place of the byte. -/
theorem optional_located_byte_eq_ok {tag : UInt8} {c d : Cursor} {x : Option (Nat × UInt8)} :
    Scan.optional tag (located byte) c = .ok x d ↔
      ∃ b : Option UInt8, c.Spans (tagged tag (fun b => [b]) b) d ∧
        x = b.map (fun b => (c.offset + 1, b)) ∧ (b = none → Avoids tag d.rest) := by
  cases x with
  | none =>
    rw [optional_eq_none]
    constructor
    · rintro ⟨rfl, avoids⟩
      exact ⟨none, Cursor.spans_nil.mpr rfl, rfl, fun _ => avoids⟩
    · rintro ⟨b, span, content, avoids⟩
      cases b with
      | none =>
        obtain rfl := Cursor.spans_nil.mp span
        exact ⟨rfl, avoids rfl⟩
      | some b => cases content
  | some x =>
    obtain ⟨o, b⟩ := x
    simp only [optional_eq_some, located_eq_ok, byte_eq_ok]
    constructor
    · rintro ⟨e, span, rfl, span'⟩
      exact ⟨some b, span.trans span', by rw [span.offset]; rfl, nofun⟩
    · rintro ⟨b', span, content, _⟩
      cases b' with
      | none => cases content
      | some b' =>
        cases content
        obtain ⟨e, span, span'⟩ := Cursor.spans_cons.mp span
        exact ⟨e, span, span.offset.symm, span'⟩

/-- The place of a byte behind its tag, told from where the byte ends. -/
theorem place_of_tagged {tag : UInt8} {c d : Cursor} {b : Option UInt8}
    (span : c.Spans (tagged tag (fun b => [b]) b) d) :
    b.map (fun b => (c.offset + 1, b)) = b.map (fun b => (d.offset - 1, b)) := by
  cases b with
  | none => rfl
  | some b => rw [span.offset]; rfl

/-- One turn of the loop: it ends at another byte, or takes an item behind the tag and goes on. -/
theorem items_eq_ok {tag : UInt8} {p : Logged α} {forward : p.silent.Forward} {c d : Cursor}
    {as : List α} :
    items tag p forward c = .ok as d ↔
      (as = [] ∧ accept tag c = .ok false d) ∨
      ∃ e a e' as', as = a :: as' ∧ accept tag c = .ok true e ∧ p.silent e = .ok a e' ∧
        items tag p forward e' = .ok as' d := by
  conv_lhs => rw [items_eq]
  simp only [bind_eq_ok, Bool.exists_bool, Bool.false_eq_true, if_false, if_true, pure_eq_ok]
  grind

theorem Reads.items {p : Logged α} {L : Layout φ α} (h : p.silent.Reads L) (tag : UInt8)
    (forward : p.silent.Forward) : (Scan.items tag p forward).Reads (L.many tag) := by
  intro c as d
  constructor
  · intro run
    induction as generalizing c with
    | nil =>
      obtain ⟨_, stopped⟩ | ⟨_, _, _, _, ⟨⟩, _⟩ := items_eq_ok.mp run
      obtain ⟨rfl, avoids⟩ := accept_eq_false.mp stopped
      exact ⟨[], Cursor.spans_nil.mpr rfl, rfl, avoids⟩
    | cons a as ih =>
      obtain ⟨⟨⟩, _⟩ | ⟨e, _, e', _, ⟨⟩, found, item, more⟩ := items_eq_ok.mp run
      obtain ⟨f, span, rfl, before⟩ := (h e a e').mp item
      obtain ⟨fs, span', rfl, before'⟩ := ih e' more
      exact ⟨f :: fs, ((accept_eq_true.mp found).trans span).trans span', rfl,
        span'.rest ▸ before, before'⟩
  · rintro ⟨fs, span, rfl, before⟩
    induction fs generalizing c with
    | nil =>
      obtain rfl := Cursor.spans_nil.mp span
      exact items_eq_ok.mpr (.inl ⟨rfl, accept_eq_false.mpr ⟨rfl, before⟩⟩)
    | cons f fs ih =>
      obtain ⟨e', span, span'⟩ := Cursor.spans_append.mp span
      obtain ⟨e, tagSpan, span⟩ := Cursor.spans_cons.mp span
      refine items_eq_ok.mpr (.inr ⟨e, L.content f, e', _, rfl, accept_eq_true.mpr tagSpan, ?_,
        ih e' span' before.2⟩)
      exact (h e _ e').mpr ⟨f, span, rfl, span'.rest ▸ before.1⟩

/-- A layout that has a scanner is unambiguous, if the content leaves nothing open that the bytes
do not tell. -/
theorem Reads.unambiguous {p : Scan α} {L : Layout φ α} (h : p.Reads L)
    (ext : ∀ f g, L.content f = L.content g → L.bytes f = L.bytes g → f = g) :
    L.Unambiguous := by
  intro f g rest rest' same hf hg
  have run : p ⟨0, L.bytes f ++ rest⟩ = .ok (L.content f) ⟨0 + (L.bytes f).length, rest⟩ :=
    (h _ _ _).mpr ⟨f, .mk_append _ _ _, rfl, hf⟩
  have run' : p ⟨0, L.bytes g ++ rest'⟩ = .ok (L.content g) ⟨0 + (L.bytes g).length, rest'⟩ :=
    (h _ _ _).mpr ⟨g, .mk_append _ _ _, rfl, hg⟩
  rw [same, run', EStateM.Result.ok.injEq, Cursor.mk.injEq] at run
  obtain ⟨content, _, rfl⟩ := run
  exact ⟨ext f g content.symm (List.append_cancel_right same), rfl⟩

end Scan

end TableWire
