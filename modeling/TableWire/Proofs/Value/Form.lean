import TableWire.Proofs.Emit
import TableWire.Proofs.Scan.Layout
import TableWire.Value.Wire
/-!
The written forms of values: the code of the kind and a complete payload. A form holds what the
bytes tell, which is the value itself except for the byte of a boolean.
-/

namespace TableWire.Value

inductive Form : Type
  | int : Int64 → Form
  | double : Double → Form
  | bool : UInt8 → Form
  | str : (s : String) → Utf8.length s < UInt32.size → Form
  | null : Form
  | blob : (bs : Bytes) → bs.length < UInt32.size → Form
  | infMin : Form
  | infMax : Form
  | autoIncrement : Form

namespace Form

/-- Every byte but zero is true. -/
def value : Form → Value
  | .int n => .int n
  | .double d => .double d
  | .bool b => .bool (b ≠ 0)
  | .str s _ => .str s
  | .null => .null
  | .blob bs _ => .blob bs
  | .infMin => .infMin
  | .infMax => .infMax
  | .autoIncrement => .autoIncrement

def payload : Form → Bytes
  | .int n => word64 n.toUInt64
  | .double d => word64 d.bits
  | .bool b => [b]
  | .str s _ => sizedBytes (Utf8.encode s)
  | .blob bs _ => sizedBytes bs
  | .null | .infMin | .infMax | .autoIncrement => []

def kind (f : Form) : Kind := f.value.kind

def bytes (f : Form) : Bytes := f.kind.code :: f.payload

/-- The form a writer chooses: true is one, and lengths keep to the limit of writers. -/
def Canonical : Form → Prop
  | .bool b => b = (b ≠ 0 : Bool).toUInt8
  | .str s _ => Utf8.length s ≤ Emit.maxLength
  | .blob bs _ => bs.length ≤ Emit.maxLength
  | _ => True

theorem ext_of_value_of_bytes {f g : Form} (value : f.value = g.value) (bytes : f.bytes = g.bytes) :
    f = g := by
  cases f with
  | bool b =>
    cases g with
    | bool b' => simpa [payload] using (List.cons.inj bytes).2
    | _ => cases value
  | _ => cases g <;> simp_all [Form.value]

end Form

theorem scanText_eq_ok {c d : Cursor} {s : String} :
    scanText c = .ok s d ↔
      Utf8.length s < UInt32.size ∧ c.Spans (sizedBytes (Utf8.encode s)) d := by
  simp only [scanText, Scan.bind_eq_ok, Prod.exists, Scan.located_eq_ok, Scan.sized_eq_ok]
  constructor
  · rintro ⟨_, bs, e, ⟨rfl, fits, span⟩, run⟩
    cases found : Utf8.decode? bs with
    | none =>
      rw [found] at run
      exact absurd run Scan.not_fail_ok
    | some t =>
      rw [found] at run
      obtain ⟨rfl, rfl⟩ := Scan.pure_eq_ok.mp run
      obtain rfl := Utf8.decode?_eq_some_iff.mp found
      exact ⟨fits, span⟩
  · rintro ⟨fits, span⟩
    refine ⟨_, _, d, ⟨rfl, fits, span⟩, ?_⟩
    rw [Utf8.decode?_encode]
    exact Scan.pure_eq_ok.mpr ⟨rfl, rfl⟩

theorem scanPayload_eq_ok {k : Kind} {c d : Cursor} {v : Value} :
    scanPayload k c = .ok v d ↔ ∃ f : Form, f.kind = k ∧ c.Spans f.payload d ∧ f.value = v := by
  constructor
  · intro run
    cases k with
    | int =>
      obtain ⟨w, read, rfl⟩ := Scan.map_eq_ok.mp run
      exact ⟨.int w.toInt64, rfl, Scan.word64_eq_ok.mp read, rfl⟩
    | double =>
      obtain ⟨w, read, rfl⟩ := Scan.map_eq_ok.mp run
      exact ⟨.double ⟨w⟩, rfl, Scan.word64_eq_ok.mp read, rfl⟩
    | bool =>
      obtain ⟨b, read, rfl⟩ := Scan.map_eq_ok.mp run
      exact ⟨.bool b, rfl, Scan.byte_eq_ok.mp read, rfl⟩
    | str =>
      obtain ⟨s, read, rfl⟩ := Scan.map_eq_ok.mp run
      obtain ⟨fits, span⟩ := scanText_eq_ok.mp read
      exact ⟨.str s fits, rfl, span, rfl⟩
    | blob =>
      obtain ⟨bs, read, rfl⟩ := Scan.map_eq_ok.mp run
      obtain ⟨fits, span⟩ := Scan.sized_eq_ok.mp read
      exact ⟨.blob bs fits, rfl, span, rfl⟩
    | null =>
      obtain ⟨rfl, rfl⟩ := Scan.pure_eq_ok.mp run
      exact ⟨.null, rfl, Cursor.spans_nil.mpr rfl, rfl⟩
    | infMin =>
      obtain ⟨rfl, rfl⟩ := Scan.pure_eq_ok.mp run
      exact ⟨.infMin, rfl, Cursor.spans_nil.mpr rfl, rfl⟩
    | infMax =>
      obtain ⟨rfl, rfl⟩ := Scan.pure_eq_ok.mp run
      exact ⟨.infMax, rfl, Cursor.spans_nil.mpr rfl, rfl⟩
    | autoIncrement =>
      obtain ⟨rfl, rfl⟩ := Scan.pure_eq_ok.mp run
      exact ⟨.autoIncrement, rfl, Cursor.spans_nil.mpr rfl, rfl⟩
  · rintro ⟨f, rfl, span, rfl⟩
    cases f with
    | int n => exact Scan.map_eq_ok.mpr ⟨n.toUInt64, Scan.word64_eq_ok.mpr span, rfl⟩
    | double d => exact Scan.map_eq_ok.mpr ⟨d.bits, Scan.word64_eq_ok.mpr span, rfl⟩
    | bool b => exact Scan.map_eq_ok.mpr ⟨b, Scan.byte_eq_ok.mpr span, rfl⟩
    | str s fits => exact Scan.map_eq_ok.mpr ⟨s, scanText_eq_ok.mpr ⟨fits, span⟩, rfl⟩
    | blob bs fits => exact Scan.map_eq_ok.mpr ⟨bs, Scan.sized_eq_ok.mpr ⟨fits, span⟩, rfl⟩
    | null => exact Scan.pure_eq_ok.mpr ⟨rfl, (Cursor.spans_nil.mp span).symm⟩
    | infMin => exact Scan.pure_eq_ok.mpr ⟨rfl, (Cursor.spans_nil.mp span).symm⟩
    | infMax => exact Scan.pure_eq_ok.mpr ⟨rfl, (Cursor.spans_nil.mp span).symm⟩
    | autoIncrement => exact Scan.pure_eq_ok.mpr ⟨rfl, (Cursor.spans_nil.mp span).symm⟩

theorem scanBehind_eq_ok {code : UInt8} {offset : Nat} {c d : Cursor} {v : Value} :
    scanBehind code offset c = .ok v d ↔
      ∃ f : Form, f.kind.code = code ∧ c.Spans f.payload d ∧ f.value = v := by
  simp only [scanBehind, ← Kind.ofCode?_eq_some_iff, eq_comm (b := code)]
  cases Kind.ofCode? code with
  | none => simp [Scan.not_fail_ok]
  | some k => simp [scanPayload_eq_ok, eq_comm (a := k)]

namespace Form

def layout : Layout Form Value := .plain Form.bytes Form.value

end Form

theorem scan_reads : scan.Reads Form.layout := by
  intro c v d
  simp only [scan, Scan.bind_eq_ok, Prod.exists, Scan.located_eq_ok, Scan.byte_eq_ok,
    scanBehind_eq_ok, Form.layout, Layout.plain, Form.bytes]
  constructor
  · rintro ⟨_, _, e, ⟨_, span⟩, f, rfl, span', content⟩
    exact ⟨f, span.trans span', content, trivial⟩
  · rintro ⟨f, span, content, _⟩
    obtain ⟨e, span, span'⟩ := Cursor.spans_cons.mp span
    exact ⟨_, _, e, ⟨rfl, span⟩, f, rfl, span', content⟩

theorem emitPayload_eq_ok {v : Value} {out out' : Array UInt8} {u : Unit} :
    v.emitPayload out = .ok u out' ↔
      ∃ f : Form, f.Canonical ∧ f.value = v ∧ out' = out ++ f.payload := by
  constructor
  · intro run
    cases v with
    | int n => exact ⟨.int n, trivial, rfl, Emit.bytes_eq_ok.mp run⟩
    | double d => exact ⟨.double d, trivial, rfl, Emit.bytes_eq_ok.mp run⟩
    | bool b =>
      exact ⟨.bool b.toUInt8, by cases b <;> rfl, by cases b <;> rfl, Emit.byte_eq_ok.mp run⟩
    | str s =>
      obtain ⟨fits, appended⟩ := Emit.sized_eq_ok.mp run
      exact ⟨.str s (Nat.lt_of_le_of_lt fits (by decide)), fits, rfl, appended⟩
    | blob bs =>
      obtain ⟨fits, appended⟩ := Emit.sized_eq_ok.mp run
      exact ⟨.blob bs (Nat.lt_of_le_of_lt fits (by decide)), fits, rfl, appended⟩
    | null => exact ⟨.null, trivial, rfl, Emit.nothing_eq_ok.mp run⟩
    | infMin => exact ⟨.infMin, trivial, rfl, Emit.nothing_eq_ok.mp run⟩
    | infMax => exact ⟨.infMax, trivial, rfl, Emit.nothing_eq_ok.mp run⟩
    | autoIncrement => exact ⟨.autoIncrement, trivial, rfl, Emit.nothing_eq_ok.mp run⟩
  · rintro ⟨f, canonical, rfl, appended⟩
    cases f with
    | int n => exact Emit.bytes_eq_ok.mpr appended
    | double d => exact Emit.bytes_eq_ok.mpr appended
    | bool b => exact Emit.byte_eq_ok.mpr (canonical ▸ appended)
    | str s fits => exact Emit.sized_eq_ok.mpr ⟨canonical, appended⟩
    | blob bs fits => exact Emit.sized_eq_ok.mpr ⟨canonical, appended⟩
    | null => exact Emit.nothing_eq_ok.mpr appended
    | infMin => exact Emit.nothing_eq_ok.mpr appended
    | infMax => exact Emit.nothing_eq_ok.mpr appended
    | autoIncrement => exact Emit.nothing_eq_ok.mpr appended

theorem encode_eq_ok {v : Value} {bs : Bytes} :
    v.encode = .ok bs ↔ ∃ f : Form, f.Canonical ∧ f.value = v ∧ f.bytes = bs := by
  simp only [encode, Emit.output_eq_ok, emit, Emit.bind_eq_ok, Emit.byte_eq_ok, emitPayload_eq_ok]
  constructor
  · rintro ⟨_, _, _, rfl, f, canonical, rfl, appended⟩
    exact ⟨f, canonical, rfl, by simpa [Form.bytes, Form.kind] using appended.symm⟩
  · rintro ⟨f, canonical, rfl, rfl⟩
    exact ⟨(), (), _, rfl, f, canonical, rfl, by simp [Form.bytes, Form.kind]⟩

/-- The length of a text or blob is within the limit of writers. -/
def Fits : Value → Prop
  | .str s => Utf8.length s ≤ Emit.maxLength
  | .blob bs => bs.length ≤ Emit.maxLength
  | _ => True

instance (v : Value) : Decidable v.Fits :=
  match v with
  | .str s => inferInstanceAs (Decidable (Utf8.length s ≤ Emit.maxLength))
  | .blob bs => inferInstanceAs (Decidable (bs.length ≤ Emit.maxLength))
  | .int _ | .double _ | .bool _ | .null | .infMin | .infMax | .autoIncrement => isTrue trivial

theorem exists_encode {v : Value} (h : v.Fits) : ∃ bs, v.encode = .ok bs := by
  suffices ∃ f : Form, f.Canonical ∧ f.value = v by
    obtain ⟨f, canonical, rfl⟩ := this
    exact ⟨_, encode_eq_ok.mpr ⟨f, canonical, rfl, rfl⟩⟩
  cases v with
  | int n => exact ⟨.int n, trivial, rfl⟩
  | double d => exact ⟨.double d, trivial, rfl⟩
  | bool b => exact ⟨.bool b.toUInt8, by cases b <;> rfl, by cases b <;> rfl⟩
  | str s => exact ⟨.str s (Nat.lt_of_le_of_lt h (by decide)), h, rfl⟩
  | null => exact ⟨.null, trivial, rfl⟩
  | blob bs => exact ⟨.blob bs (Nat.lt_of_le_of_lt h (by decide)), h, rfl⟩
  | infMin => exact ⟨.infMin, trivial, rfl⟩
  | infMax => exact ⟨.infMax, trivial, rfl⟩
  | autoIncrement => exact ⟨.autoIncrement, trivial, rfl⟩

end TableWire.Value
