import TableWire.Dictionary
import TableWire.Row.Wire
/-!
Rows as maps from names to values.
-/

namespace TableWire

abbrev FlatRow : Type := Dictionary Value

/-- The names and values of the cells that have a value. -/
def WireRow.values (r : WireRow) : List (String × Value) :=
  r.cells.filterMap fun c => c.cell.value.map fun v => (c.cell.name, v)

/-- A later cell replaces an earlier one of the same name, and attributes come after the key. -/
def WireRow.flatten (r : WireRow) : FlatRow := .ofList r.values

end TableWire
