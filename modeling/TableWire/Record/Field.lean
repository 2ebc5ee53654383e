import TableWire.Record.Varint
/-!
The fields of a record: each a key, made of a number and the form of its payload, and the payload.
Reading knows all forms; the records here are written with two of them.
-/

namespace TableWire

inductive WireForm : Type
  | varint
  | fixed64
  | chunk
  | groupStart
  | groupEnd
  | fixed32
  deriving DecidableEq, Repr

namespace WireForm

def code : WireForm → Nat
  | .varint => 0
  | .fixed64 => 1
  | .chunk => 2
  | .groupStart => 3
  | .groupEnd => 4
  | .fixed32 => 5

def ofCode? : Nat → Option WireForm
  | 0 => some .varint
  | 1 => some .fixed64
  | 2 => some .chunk
  | 3 => some .groupStart
  | 4 => some .groupEnd
  | 5 => some .fixed32
  | _ => none

@[simp] theorem ofCode?_code (f : WireForm) : ofCode? f.code = some f := by
  cases f <;> rfl

end WireForm

inductive Payload : Type
  | number (w : UInt64)
  | chunk (bs : Bytes)
  deriving DecidableEq, Repr

/-- A field as read; a payload of a form that no record here uses is passed over. -/
structure Field : Type where
  number : Nat
  payload : Option Payload
  deriving DecidableEq, Repr

namespace Payload

def form : Payload → WireForm
  | .number _ => .varint
  | .chunk _ => .chunk

def encode : Payload → Bytes
  | .number w => Varint.encode w.toNat
  | .chunk bs => Varint.encode bs.length ++ bs

/-- The payload behind its key. -/
def encodeAs (number : Nat) (p : Payload) : Bytes :=
  Varint.encode (number * 8 + p.form.code) ++ p.encode

/-- Enumerations are signed words, extended to 64 bits. -/
def ofInt32 (n : Int32) : Payload := .number n.toInt64.toUInt64

def ofBool (b : Bool) : Payload := .number (if b then 1 else 0)

/-- Keeps the low 32 bits. -/
def toInt32? : Payload → Option Int32
  | .number w => some w.toUInt32.toInt32
  | .chunk _ => none

def toBool? : Payload → Option Bool
  | .number w => some (w ≠ 0)
  | .chunk _ => none

def toChunk? : Payload → Option Bytes
  | .number _ => none
  | .chunk bs => some bs

end Payload

namespace Field

/-- Fields one after the other. -/
def encodeAll (fs : List (Nat × Payload)) : Bytes := fs.flatMap fun (n, p) => p.encodeAs n

/-- Splits off exactly `n` bytes. -/
def split (n : Nat) (bs : Bytes) : Option (Bytes × Bytes) :=
  if (bs.take n).length = n then some (bs.take n, bs.drop n) else none

/-- The number and the form of the next field. Numbers start at one, and a key has 32 bits. -/
def readKey (bs : Bytes) : Option ((Nat × WireForm) × Bytes) := do
  let (key, rest) ← Varint.decode bs
  let form ← WireForm.ofCode? (key % 8)
  if key < UInt32.size ∧ 8 ≤ key then return ((key / 8, form), rest) else failure

/-- A payload that is not a group. -/
def readPlain : WireForm → Bytes → Option (Option Payload × Bytes)
  | .varint, bs => (Varint.decode bs).map fun (n, rest) => (some (.number (UInt64.ofNat n)), rest)
  | .fixed64, bs => (split 8 bs).map fun (_, rest) => (none, rest)
  | .chunk, bs => do
    let (n, rest) ← Varint.decode bs
    (split n rest).map fun (chunk, rest) => (some (.chunk chunk), rest)
  | .fixed32, bs => (split 4 bs).map fun (_, rest) => (none, rest)
  | .groupStart, _ => none
  | .groupEnd, _ => none

theorem split_length {n : Nat} {bs front rest : Bytes} (h : split n bs = some (front, rest)) :
    rest.length ≤ bs.length := by
  unfold split at h
  split at h
  · cases h
    simp
  · cases h

theorem readKey_length {bs rest : Bytes} {key : Nat × WireForm}
    (h : readKey bs = some (key, rest)) : rest.length < bs.length := by
  simp only [readKey, bind, Option.bind_eq_some_iff, Prod.exists] at h
  obtain ⟨n, rest', read, form, _, h⟩ := h
  split at h
  · cases h
    exact Varint.decode_length read
  · cases h

theorem readPlain_length {form : WireForm} {bs rest : Bytes} {p : Option Payload}
    (h : readPlain form bs = some (p, rest)) : rest.length ≤ bs.length := by
  cases form with
  | varint =>
    obtain ⟨⟨n, rest'⟩, read, same⟩ := Option.map_eq_some_iff.mp h
    cases same
    exact Nat.le_of_lt (Varint.decode_length read)
  | fixed64 =>
    obtain ⟨⟨front, rest'⟩, read, same⟩ := Option.map_eq_some_iff.mp h
    cases same
    exact split_length read
  | fixed32 =>
    obtain ⟨⟨front, rest'⟩, read, same⟩ := Option.map_eq_some_iff.mp h
    cases same
    exact split_length read
  | chunk =>
    obtain ⟨⟨n, rest'⟩, read, h⟩ := Option.bind_eq_some_iff.mp h
    obtain ⟨⟨front, rest''⟩, taken, same⟩ := Option.map_eq_some_iff.mp h
    cases same
    exact Nat.le_trans (split_length taken) (Nat.le_of_lt (Varint.decode_length read))
  | groupStart => cases h
  | groupEnd => cases h

/-- One step inside a group: the groups that are open after it, innermost first, and what follows. A
group may hold fields while fewer than `budget` groups are open. -/
def stepGroup (budget group : Nat) (outer : List Nat) (bs : Bytes) : Option (List Nat × Bytes) := do
  let ((number, form), rest) ← readKey bs
  if form = .groupEnd then
    if number = group then return (outer, rest) else failure
  else if outer.length + 1 < budget then
    if form = .groupStart then return (number :: group :: outer, rest)
    else (readPlain form rest).map fun (_, rest) => (group :: outer, rest)
  else failure

theorem stepGroup_length {budget group : Nat} {outer opened : List Nat} {bs rest : Bytes}
    (h : stepGroup budget group outer bs = some (opened, rest)) : rest.length < bs.length := by
  obtain ⟨⟨⟨number, form⟩, rest'⟩, key, h⟩ := Option.bind_eq_some_iff.mp h
  have shorter := readKey_length key
  dsimp only at h
  split at h
  · split at h
    · cases h
      exact shorter
    · cases h
  · split at h
    · split at h
      · cases h
        exact shorter
      · obtain ⟨⟨payload, rest''⟩, plain, same⟩ := Option.map_eq_some_iff.mp h
        cases same
        exact Nat.lt_of_le_of_lt (readPlain_length plain) shorter
    · cases h

/-- What follows the open groups. -/
def skipGroups (budget : Nat) (opened : List Nat) (bs : Bytes) : Option Bytes :=
  match opened with
  | [] => some bs
  | group :: outer =>
    match step : stepGroup budget group outer bs with
    | none => none
    | some (opened', rest) =>
      have := stepGroup_length step
      skipGroups budget opened' rest
termination_by bs.length

theorem skipGroups_length {budget : Nat} {opened : List Nat} {bs rest : Bytes}
    (h : skipGroups budget opened bs = some rest) : rest.length ≤ bs.length := by
  fun_induction skipGroups budget opened bs with
  | case1 =>
    cases h
    exact Nat.le_refl _
  | case2 => cases h
  | case3 bs group outer opened' rest' step shorter ih =>
    exact Nat.le_trans (ih h) (Nat.le_of_lt shorter)

/-- The next field. A group is passed over, nested up to `budget` deep. -/
def read (budget : Nat) (bs : Bytes) : Option (Field × Bytes) := do
  let ((number, form), rest) ← readKey bs
  if form = .groupStart then
    (skipGroups budget [number] rest).map fun rest => (⟨number, none⟩, rest)
  else (readPlain form rest).map fun (payload, rest) => (⟨number, payload⟩, rest)

theorem read_length {budget : Nat} {bs rest : Bytes} {f : Field}
    (h : read budget bs = some (f, rest)) : rest.length < bs.length := by
  obtain ⟨⟨⟨number, form⟩, rest'⟩, key, h⟩ := Option.bind_eq_some_iff.mp h
  have shorter := readKey_length key
  dsimp only at h
  split at h
  · obtain ⟨rest'', skipped, same⟩ := Option.map_eq_some_iff.mp h
    cases same
    exact Nat.lt_of_le_of_lt (skipGroups_length skipped) shorter
  · obtain ⟨⟨payload, rest''⟩, plain, same⟩ := Option.map_eq_some_iff.mp h
    cases same
    exact Nat.lt_of_le_of_lt (readPlain_length plain) shorter

/-- All fields of a record. -/
def readAll (budget : Nat) (bs : Bytes) : Option (List Field) :=
  if bs.isEmpty then some []
  else
    match next : read budget bs with
    | none => none
    | some (f, rest) =>
      have := read_length next
      (readAll budget rest).map (f :: ·)
termination_by bs.length

end Field

end TableWire
