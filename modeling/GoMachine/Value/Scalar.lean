import GoMachine.Fault
/-!
# Scalars

Booleans, 32-bit integers, 32-bit floats and runes are records with one field and no children:
0 or 1, the sign-extended number, the bits of the float, the code point. A float is carried as its
bits. Runes may stand where integers are read.
-/
namespace GoMachine.Scalar

/-- A record with one field. -/
def new (tag : Tag) (w : UInt64) : Action Address := do
  let a ← HeapM.allocate tag 1 0
  HeapM.setField a tag 0 w
  return a

/-- The field of a truth value. -/
def wordOfBool (b : Bool) : UInt64 := if b then 1 else 0

/-- The field of an integer. -/
def wordOfInt32 (n : Int32) : UInt64 := n.toInt64.toUInt64

/-- The integer in a field. -/
def int32OfWord (w : UInt64) : Int32 := w.toUInt32.toInt32

/-- The rune in a field; the replacement character if the field is no code point. -/
def runeOfWord (w : UInt64) : Char :=
  let n := w.toUInt32.toNat
  if n.isValidChar then Char.ofNat n else '\uFFFD'

def newBool (b : Bool) : Action Address := new .bool (wordOfBool b)

def newInt32 (n : Int32) : Action Address := new .int32 (wordOfInt32 n)

def newFloat32 (bits : UInt32) : Action Address := new .float32 bits.toUInt64

def newRune (c : Char) : Action Address := new .rune c.val.toUInt64

def toBool (a : Address) : Query Bool := do
  match ← Query.tag a with
  | .bool => return (← Query.field a .bool 0) != 0
  | found => throw (.typeMismatch "bool" found)

def toInt32 (a : Address) : Query Int32 := do
  match ← Query.tag a with
  | .int32 => return int32OfWord (← Query.field a .int32 0)
  | .rune => return int32OfWord (← Query.field a .rune 0)
  | found => throw (.typeMismatch "int32" found)

def toFloat32 (a : Address) : Query UInt32 := do
  match ← Query.tag a with
  | .float32 => return (← Query.field a .float32 0).toUInt32
  | found => throw (.typeMismatch "float32" found)

def toRune (a : Address) : Query Char := do
  match ← Query.tag a with
  | .rune => return runeOfWord (← Query.field a .rune 0)
  | found => throw (.typeMismatch "rune" found)

end GoMachine.Scalar
