import TableWire.Bytes.Utf8
/-!
Finite maps from names, listed in ascending order of the names' UTF-8 bytes. The last value given to
a name is the one found: `Dictionary.get?_insert`.
-/

namespace TableWire

/-- Names are ordered by their UTF-8 bytes. -/
def Before (a b : String) : Prop := Utf8.encode a < Utf8.encode b

namespace Before

instance (a b : String) : Decidable (Before a b) :=
  inferInstanceAs (Decidable (Utf8.encode a < Utf8.encode b))

theorem irrefl (a : String) : ¬ Before a a := List.lt_irrefl _

theorem trans {a b c : String} (h : Before a b) (h' : Before b c) : Before a c := List.lt_trans h h'

theorem of_not {a b : String} (h : ¬ Before a b) (ne : a ≠ b) : Before b a := by
  by_cases h' : Before b a
  · exact h'
  · exact absurd (Utf8.encode_injective (List.le_antisymm (List.not_lt.mp h') (List.not_lt.mp h)))
      ne

end Before

structure Dictionary (α : Type) : Type where
  entries : List (String × α)
  ascending : entries.Pairwise fun a b => Before a.1 b.1

namespace Dictionary

variable {α : Type}

def empty : Dictionary α := ⟨[], .nil⟩

def insertEntry (name : String) (a : α) : List (String × α) → List (String × α)
  | [] => [(name, a)]
  | e :: es =>
    if Before name e.1 then (name, a) :: e :: es
    else if name = e.1 then (name, a) :: es
    else e :: insertEntry name a es

theorem mem_insertEntry {name : String} {a : α} {es : List (String × α)} {e : String × α}
    (h : e ∈ insertEntry name a es) : e = (name, a) ∨ e ∈ es := by
  induction es with
  | nil => simpa [insertEntry] using h
  | cons x xs ih =>
    unfold insertEntry at h
    split at h
    · simpa using h
    · split at h
      · rcases List.mem_cons.mp h with rfl | h
        · exact .inl rfl
        · exact .inr (List.mem_cons_of_mem x h)
      · rcases List.mem_cons.mp h with rfl | h
        · exact .inr List.mem_cons_self
        · exact (ih h).imp_right (List.mem_cons_of_mem x)

theorem insertEntry_ascending {name : String} {a : α} {es : List (String × α)}
    (h : es.Pairwise fun a b => Before a.1 b.1) :
    (insertEntry name a es).Pairwise fun a b => Before a.1 b.1 := by
  induction es with
  | nil => simp [insertEntry]
  | cons x xs ih =>
    obtain ⟨below, rest⟩ := List.pairwise_cons.mp h
    unfold insertEntry
    split
    · rename_i before
      refine List.pairwise_cons.mpr ⟨fun e he => ?_, h⟩
      rcases List.mem_cons.mp he with rfl | he
      · exact before
      · exact before.trans (below e he)
    · rename_i notBefore
      split
      · rename_i same
        exact List.pairwise_cons.mpr ⟨fun e he => same ▸ below e he, rest⟩
      · rename_i ne
        refine List.pairwise_cons.mpr ⟨fun e he => ?_, ih rest⟩
        rcases mem_insertEntry he with rfl | he
        · exact Before.of_not notBefore ne
        · exact below e he

def insert (d : Dictionary α) (name : String) (a : α) : Dictionary α :=
  ⟨insertEntry name a d.entries, insertEntry_ascending d.ascending⟩

/-- Of two values for one name the later is kept. -/
def ofList (es : List (String × α)) : Dictionary α :=
  es.foldl (fun d e => d.insert e.1 e.2) empty

def toList (d : Dictionary α) : List (String × α) := d.entries

def get? (d : Dictionary α) (name : String) : Option α :=
  (d.entries.find? (·.1 = name)).map (·.2)

def size (d : Dictionary α) : Nat := d.entries.length

def isEmpty (d : Dictionary α) : Bool := d.entries.isEmpty

@[simp] theorem get?_empty (name : String) : (empty : Dictionary α).get? name = none := rfl

theorem get?_insert (d : Dictionary α) (name other : String) (a : α) :
    (d.insert name a).get? other = if other = name then some a else d.get? other := by
  obtain ⟨es, h⟩ := d
  simp only [insert, get?]
  induction es with
  | nil => by_cases same : other = name <;> simp [insertEntry, same, eq_comm]
  | cons x xs ih =>
    have rest := (List.pairwise_cons.mp h).2
    unfold insertEntry
    split
    · by_cases same : other = name
      · simp [same]
      · have : ¬ name = other := fun e => same e.symm
        simp [same, this]
    · split
      · rename_i same'
        by_cases same : other = name
        · simp [same]
        · have : ¬ name = other := fun e => same e.symm
          have : ¬ x.1 = other := fun e => same (e.symm.trans same'.symm)
          simp_all
      · rename_i ne
        by_cases here : x.1 = other
        · have : ¬ other = name := fun e => ne (e.symm.trans here.symm)
          simp [here, this]
        · simpa [here] using ih rest

end Dictionary

end TableWire
