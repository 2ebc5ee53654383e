import TableWire.Bytes.Basic
/-!
The eight-bit cyclic redundancy check with polynomial x⁸ + x² + x + 1, most significant bit first,
started from any seed and neither reflected nor inverted.
-/

namespace TableWire.Crc8

/-- One step of the division: the top bit leaves, and takes the polynomial with it when set. -/
def shift (x : UInt8) : UInt8 :=
  if x &&& 0x80 = 0 then x <<< 1 else x <<< 1 ^^^ 0x07

def shifts : Nat → UInt8 → UInt8
  | 0, x => x
  | n + 1, x => shifts n (shift x)

def add (seed b : UInt8) : UInt8 := shifts 8 (seed ^^^ b)

def fold : UInt8 → Bytes → UInt8
  | seed, [] => seed
  | seed, b :: bs => fold (add seed b) bs

@[simp] theorem fold_nil (seed : UInt8) : fold seed [] = seed := rfl

@[simp] theorem fold_cons (seed b : UInt8) (bs : Bytes) :
    fold seed (b :: bs) = fold (add seed b) bs := rfl

@[simp] theorem fold_append (seed : UInt8) (as bs : Bytes) :
    fold seed (as ++ bs) = fold (fold seed as) bs := by
  induction as generalizing seed with
  | nil => rfl
  | cons a as ih => exact ih (add seed a)

end TableWire.Crc8
