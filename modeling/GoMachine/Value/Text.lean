import GoMachine.Value.Scalar
/-!
# Strings

A string is an immutable record: its field is a hash of the code points and its children are rune
records, one for each code point. Strings made from others share their runes.
-/
namespace GoMachine.Text

/-- The hash of a sequence of code points: from an offset, exclusive or with each code point and
multiplication by a prime. -/
def hashOf (cs : List Char) : UInt64 :=
  cs.foldl (fun hash c => (hash ^^^ c.val.toUInt64) * 0x100000001b3) 0xcbf29ce484222325

/-- A new string with new runes. -/
def create (text : String) : Action Address := do
  let cs := text.toList
  let s ← HeapM.allocate .string 1 cs.length
  HeapM.setField s .string 0 (hashOf cs)
  for (c, i) in cs.zipIdx do
    let rune ← Action.orRelease s (Scalar.newRune c)
    HeapM.setChildOwned s .string i rune
  return s

/-- A new string of existing runes. -/
def ofRunes (runes : List Address) : Action Address := do
  let cs ← runes.mapM (fun rune => (Scalar.toRune rune : Action Char))
  let s ← HeapM.allocate .string 1 runes.length
  HeapM.setField s .string 0 (hashOf cs)
  for (rune, i) in runes.zipIdx do
    HeapM.setChild s .string i rune
  return s

/-- Fails unless the record is a string. -/
def check (s : Address) : Query Unit := Query.require s .string "string"

/-- The number of code points. -/
def size (s : Address) : Query Nat := do
  check s
  Query.numChildren s

/-- The stored hash. -/
def hash (s : Address) : Query UInt64 := do
  check s
  Query.field s .string 0

/-- The rune record at an index, borrowed. -/
def runeAt (s : Address) (i : Int) : Query Address := do
  let size ← size s
  if i < 0 ∨ size ≤ i then throw (.indexOutOfRange i size)
  Query.child s .string i.toNat

/-- The code points. -/
def toList (s : Address) : Query (List Char) := do
  check s
  (← Query.children s).mapM Scalar.toRune

/-- The text. -/
def toString (s : Address) : Query String := return .ofList (← toList s)

/-- Compares the code points of runes with others, in order, until two differ. -/
def sameRunes (read : α → Query Char) : List Address → List α → Query Bool
  | rune :: runes, c :: cs => do
    if (← Scalar.toRune rune) = (← read c) then sameRunes read runes cs else return false
  | _, _ => return true

/-- Whether two strings have the same code points. Their hashes and sizes are compared first. -/
def equals (a b : Address) : Query Bool := do
  if a = b then return true
  if (← hash a) ≠ (← hash b) then return false
  if (← size a) ≠ (← size b) then return false
  sameRunes Scalar.toRune (← Query.children a) (← Query.children b)

/-- Whether a string has the code points of a text. -/
def eqString (s : Address) (text : String) : Query Bool := do
  let cs := text.toList
  if (← hash s) ≠ hashOf cs then return false
  if (← size s) ≠ cs.length then return false
  sameRunes pure (← Query.children s) cs

/-- The lexicographic order by code point. -/
def compare (a b : Address) : Query Ordering := do
  return Ord.compare (← toString a) (← toString b)

/-- The code points of `a` and then those of `b`. -/
def concat (a b : Address) : Action Address := do
  check a
  check b
  ofRunes ((← Query.children a) ++ (← Query.children b))

/-- The code points from `low` up to but not including `high`. -/
def substring (s : Address) (low high : Int) : Action Address := do
  let size ← size s
  if high < 0 ∨ size < high then throw (.sliceBounds high size)
  if low < 0 ∨ high < low then throw (.invalidSliceIndices low high)
  let runes ← Query.children s
  ofRunes ((runes.take high.toNat).drop low.toNat)

end GoMachine.Text
