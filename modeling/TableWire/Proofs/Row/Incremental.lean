import TableWire.Proofs.Scan.Incremental
import TableWire.Row.Wire
/-!
The scanners of cells and rows look no further than they need.
-/

namespace TableWire

open Scan

theorem Value.incremental_scanText : scanText.Incremental := by
  refine incremental_sized.located.bind ?_
  rintro ⟨offset, bytes⟩
  dsimp only
  split
  · exact .pure _
  · exact incremental_fail _

theorem incremental_matchStored (check : Bool) (scope : Scope) (computed : UInt8)
    (stored : Option (Nat × UInt8)) :
    (matchStored check scope computed stored).Incremental := by
  unfold matchStored
  split
  · exact .pure _
  · split
    · exact incremental_fail _
    · exact .pure _

namespace WireCell

theorem incremental_scanName : scanName.Incremental := by
  refine incremental_position.bind fun offset => ?_
  refine (incremental_accept _).bind fun found => ?_
  cases found
  · exact incremental_fail _
  · exact Value.incremental_scanText

theorem incremental_scanValue : scanValue.Incremental := by
  refine incremental_word32.bind fun n => ?_
  refine (incremental_window _).bind fun field => ?_
  refine (incremental_within _ _).bind ?_
  rintro ⟨value, left⟩
  dsimp only
  split
  · exact .pure _
  · exact incremental_fail _

theorem incremental_scanOperation : scanOperation.Incremental := by
  refine incremental_byte.located.bind ?_
  rintro ⟨offset, code⟩
  dsimp only
  split
  · exact .pure _
  · exact incremental_fail _

theorem incremental_scanParts : scanParts.Incremental := by
  refine incremental_scanName.bind fun name => ?_
  refine (incremental_scanValue.optional _).bind fun value => ?_
  refine (incremental_scanOperation.optional _).bind fun operation => ?_
  refine (Incremental.optional (incremental_word64.bind fun _ => .pure _) _).bind
    fun timestamp => ?_
  exact (incremental_byte.located.optional _).bind fun stored => .pure _

theorem incremental_scan (check : Bool) : (scan check).Incremental := by
  rw [scan_eq]
  refine incremental_scanParts.bind ?_
  rintro ⟨cell, stored⟩
  exact (incremental_matchStored _ _ _ _).bind fun _ => .pure _

end WireCell

namespace WireRow

theorem incremental_scanGroup (check : Bool) (g : Group) : (scanGroup check g).Incremental := by
  rw [scanGroup_eq]
  refine (incremental_accept _).bind fun found => ?_
  cases found
  · exact .pure _
  · exact (WireCell.incremental_scan check).items _ _

theorem incremental_scanParts (check : Bool) : (scanParts check).Incremental := by
  rw [scanParts_eq]
  refine (incremental_scanGroup _ _).bind fun primaryKey => ?_
  refine (incremental_scanGroup _ _).bind fun attributes => ?_
  refine (incremental_accept _).bind fun deleted => ?_
  exact (incremental_byte.located.optional _).bind fun stored => .pure _

theorem incremental_demandProgress (start : Nat) : (demandProgress start).Incremental := by
  refine incremental_position.bind fun here => ?_
  split
  · exact incremental_peek.bind fun _ => incremental_fail _
  · exact .pure _

theorem incremental_scan (check : Bool) : (scan check).Incremental := by
  rw [scan_eq]
  refine incremental_position.bind fun start => ?_
  refine (incremental_scanParts check).bind ?_
  rintro ⟨row, stored⟩
  refine (incremental_demandProgress start).bind fun _ => ?_
  exact (incremental_matchStored _ _ _ _).bind fun _ => .pure _

end WireRow

end TableWire
