import GoMachine.Tag
/-!
# Addresses and heap errors

An address is the offset of a record in the word pool, a number of 32 bits. A heap error names the
cause; the text that a user sees is `HeapError.message`.
-/
namespace GoMachine

/-- The offset of a record in the word pool. -/
structure Address where
  index : Nat
  deriving DecidableEq, Inhabited, Repr

namespace Address

/-- The address of no record. -/
def nil : Address := ⟨0⟩

/-- Whether the address is nil. -/
def isNil (a : Address) : Bool := a.index == 0

/-- The word that stands for an address in memory. -/
def toWord (a : Address) : UInt64 := a.index.toUInt64

/-- The address that a word stands for: its lower half. -/
def ofWord (w : UInt64) : Address := ⟨w.toUInt32.toNat⟩

/-- How messages write an address. -/
def text (a : Address) : String := "@" ++ toString a.index

theorem isNil_iff {a : Address} : a.isNil = true ↔ a = nil := by
  cases a; simp [isNil, nil]

end Address

/-- What the word pool and the record heap refuse. All but `outOfMemory` and `recordTooLarge`
mean that a client broke the rules of the heap. -/
inductive HeapError where
  | outOfMemory (requested free : Nat)
  | poolSize (words : Nat)
  | recordTooLarge (fields children : Nat)
  | invalidBlock (address : Nat)
  | released (address : Address)
  | corruptTag (address : Address) (raw : Nat)
  | wrongTag (address : Address) (expected found : Tag)
  | fieldOutOfRange (address : Address) (tag : Tag) (index size : Nat)
  | childOutOfRange (address : Address) (tag : Tag) (index size : Nat)
  | doubleFree (address : Address)
  | unbalancedUnpin (address : Address)
  | pinOverflow (address : Address)
  deriving DecidableEq

/-- The text of a heap error. -/
def HeapError.message : HeapError → String
  | outOfMemory requested free =>
    s!"out of memory: cannot allocate {requested} words ({free} words free)"
  | poolSize words => s!"unsupported heap size of {words} words"
  | recordTooLarge fields children =>
    s!"record too large: {fields} fields, {children} children"
  | invalidBlock address => s!"invalid block address {address}"
  | released a => s!"access to released object {a.text}"
  | corruptTag a raw => s!"corrupt tag {raw} at {a.text}"
  | wrongTag a expected found =>
    s!"object {a.text} is {found.spelling}, expected {expected.spelling}"
  | fieldOutOfRange a tag index size =>
    s!"field index {index} out of range for {tag.spelling} at {a.text} ({size} fields)"
  | childOutOfRange a tag index size =>
    s!"child index {index} out of range for {tag.spelling} at {a.text} ({size} children)"
  | doubleFree a => s!"object {a.text} freed more often than referenced"
  | unbalancedUnpin a => s!"object {a.text} unpinned more often than pinned"
  | pinOverflow a => s!"object {a.text} pinned too often"

end GoMachine
