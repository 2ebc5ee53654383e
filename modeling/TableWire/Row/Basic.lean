import TableWire.Row.Cell
/-!
Rows: primary-key cells, attribute cells and a delete marker, and how they are written.
-/

namespace TableWire

structure Row : Type where
  primaryKey : List Cell := []
  attributes : List Cell := []
  deleted : Bool := false
  deriving DecidableEq, Repr

/-- The two halves of a row. -/
inductive Group : Type
  | primaryKey
  | attributes
  deriving DecidableEq, Repr

namespace Group

def tag : Group → Tag
  | .primaryKey => .primaryKey
  | .attributes => .attributes

/-- Appends the cells, and folds their checksums into the seed. -/
def emitCells : UInt8 → List Cell → Emit UInt8
  | seed, [] => return seed
  | seed, c :: cs => do emitCells (Crc8.add seed (← c.emit)) cs

/-- A group without cells is not written at all. -/
def emit (g : Group) (cells : List Cell) (seed : UInt8) : Emit UInt8 := do
  if cells.isEmpty then return seed
  .byte g.tag.code
  emitCells seed cells

end Group

namespace Row

def empty : Row := {}

def addPrimaryKey (r : Row) (cells : List Cell) : Row :=
  { r with primaryKey := r.primaryKey ++ cells }

def addAttributes (r : Row) (cells : List Cell) : Row :=
  { r with attributes := r.attributes ++ cells }

/-- One put cell for each name and value, in the order given. -/
def putPrimaryKey (r : Row) (values : List (String × Value)) : Row :=
  r.addPrimaryKey (values.map fun (name, value) => .put name value)

/-- One put cell for each name and value, in the order given. -/
def putAttributes (r : Row) (values : List (String × Value)) : Row :=
  r.addAttributes (values.map fun (name, value) => .put name value)

def delete (r : Row) : Row := { r with deleted := true }

def hasCells (r : Row) : Bool := !r.primaryKey.isEmpty || !r.attributes.isEmpty

/-- Appends the row and returns its checksum. The delete marker is covered by the checksum also
when it is absent and nothing is written for it. -/
def emit (r : Row) : Emit UInt8 := do
  if !r.hasCells then throw .emptyRow
  let seed ← Group.primaryKey.emit r.primaryKey 0
  let seed ← Group.attributes.emit r.attributes seed
  if r.deleted then .byte Tag.deleted.code
  let checksum := Crc8.add seed r.deleted.toUInt8
  .bytes [Tag.rowChecksum.code, checksum]
  return checksum

end Row

end TableWire
