import GoMachine.Heap.Header
import GoMachine.Pool
/-!
# The record heap

Records live in blocks of the word pool. A record starts with its header, the second word counts
the references to it, and then come the fields, which are raw words, and the children, which are
addresses of other records. Address 0 is nil, which stands for a record without slots that is
never released.

A reference is owned either by a client or by a child slot. Dropping the last reference to a
record that nobody pins releases it, and with it the references in its slots.

Reading a record is a function of the heap (`tag`, `field`, `child`, ...). Changing it is an action
of `HeapM`, which keeps what was done before an error.
-/
namespace GoMachine

/-- The pool, and the offsets of the records in it. -/
structure Heap where
  pool : Pool
  live : Std.TreeSet Nat := ∅

/-- Actions on the heap. -/
abbrev HeapM := EStateM HeapError Heap

namespace Heap

/-- An empty heap of the largest power of two that is at most `words`. -/
def new (words : Nat) : Except HeapError Heap := return { pool := ← Pool.new words }

/-- The number of words managed. -/
def capacity (h : Heap) : Nat := h.pool.capacity

/-- The number of words in free blocks. -/
def freeWords (h : Heap) : Nat := h.pool.freeWords

/-- The number of live records. -/
def liveCount (h : Heap) : Nat := h.live.size

/-- Whether there is a record at the address. -/
def isLive (h : Heap) (a : Address) : Bool := h.live.contains a.index

/-- The addresses of all records, in rising order. -/
def liveObjects (h : Heap) : List Address := h.live.toList.map Address.mk

/-- Whether there is no record at all. -/
def allReleased (h : Heap) : Bool := h.live.isEmpty

/-! ## Reading -/

/-- The header of the record at an address other than nil. -/
def header (h : Heap) (a : Address) : Except HeapError Header :=
  if h.isLive a then .ok (.ofWord (h.pool.word a.index)) else .error (.released a)

/-- The header at any address. -/
def shape (h : Heap) (a : Address) : Except HeapError Header :=
  if a.isNil then .ok ⟨0, 0, 0, 0⟩ else h.header a

/-- The tag that a header holds. -/
def tagOf (a : Address) (hd : Header) : Except HeapError Tag :=
  match Tag.ofNumber? hd.rawTag.toNat with
  | some tag => .ok tag
  | none => .error (.corruptTag a hd.rawTag.toNat)

/-- What the record at an address is. -/
def tag (h : Heap) (a : Address) : Except HeapError Tag := h.shape a >>= tagOf a

/-- The number of fields. -/
def numFields (h : Heap) (a : Address) : Except HeapError Nat := return (← h.shape a).fields.toNat

/-- The number of children. -/
def numChildren (h : Heap) (a : Address) : Except HeapError Nat :=
  return (← h.shape a).children.toNat

/-- The header at an address, if the record there has the tag. -/
def shapeAs (h : Heap) (a : Address) (tag : Tag) : Except HeapError Header := do
  let hd ← h.shape a
  if hd.rawTag.toNat = tag.number then return hd
  else throw (.wrongTag a tag (← tagOf a hd))

/-- Fails unless the record has the tag. -/
def expect (h : Heap) (a : Address) (tag : Tag) : Except HeapError Unit :=
  return (fun _ => ()) (← h.shapeAs a tag)

/-- The offset of a field. -/
def fieldSlot (h : Heap) (a : Address) (tag : Tag) (i : Nat) : Except HeapError Nat := do
  let hd ← h.shapeAs a tag
  if i < hd.fields.toNat then return a.index + 2 + i
  else throw (.fieldOutOfRange a tag i hd.fields.toNat)

/-- The offset of a child. -/
def childSlot (h : Heap) (a : Address) (tag : Tag) (i : Nat) : Except HeapError Nat := do
  let hd ← h.shapeAs a tag
  if i < hd.children.toNat then return a.index + 2 + hd.fields.toNat + i
  else throw (.childOutOfRange a tag i hd.children.toNat)

/-- A field of a record with the tag. -/
def field (h : Heap) (a : Address) (tag : Tag) (i : Nat) : Except HeapError UInt64 :=
  return h.pool.word (← h.fieldSlot a tag i)

/-- A child of a record with the tag, borrowed from it. -/
def child (h : Heap) (a : Address) (tag : Tag) (i : Nat) : Except HeapError Address :=
  return .ofWord (h.pool.word (← h.childSlot a tag i))

/-- A child of a record of any tag. -/
def childAt (h : Heap) (a : Address) (i : Nat) : Except HeapError Address := do
  h.child a (← h.tag a) i

/-- The addresses in the child slots that the header at `a` announces. -/
def slots (h : Heap) (a : Address) (hd : Header) : List Address :=
  (List.range hd.children.toNat).map fun i =>
    .ofWord (h.pool.word (a.index + 2 + hd.fields.toNat + i))

/-- All children of a record. -/
def children (h : Heap) (a : Address) : Except HeapError (List Address) := do
  let hd ← h.shape a
  if hd.children = 0 then return []
  let _ ← tagOf a hd
  return h.slots a hd

/-- How many references there are to a record. -/
def refCount (h : Heap) (a : Address) : Except HeapError UInt64 :=
  if a.isNil then .ok 1
  else do
    let _ ← h.header a
    return h.pool.word (a.index + 1)

/-- Whether a record is pinned; nil always is. -/
def isPinned (h : Heap) (a : Address) : Except HeapError Bool :=
  if a.isNil then .ok true else return (← h.header a).pins != 0

/-- The heap with a word of the pool replaced. -/
def setWord (h : Heap) (i : Nat) (w : UInt64) : Heap := { h with pool := h.pool.setWord i w }

/-! ## Releasing -/

theorem size_erase_lt {live : Std.TreeSet Nat} {i : Nat} (h : live.contains i) :
    (live.erase i).size < live.size := by
  have erased := Std.TreeSet.size_erase (t := live) (k := i)
  have nonempty : live.isEmpty = false := Std.TreeSet.isEmpty_eq_false_iff_exists_mem.2 ⟨i, h⟩
  rw [Std.TreeSet.isEmpty_eq_size_eq_zero] at nonempty
  simp_all
  omega

/-- Bounds how often references are dropped: a record that is released puts fewer addresses in front
than a header can count. -/
@[irreducible]
def dropsLeft (live : Std.TreeSet Nat) (pending : List Address) : Nat :=
  live.size * (Header.limit + 1) + pending.length

theorem dropsLeft_tail {live : Std.TreeSet Nat} {a : Address} {rest : List Address} :
    dropsLeft live rest < dropsLeft live (a :: rest) := by
  simp [dropsLeft]

theorem dropsLeft_erase {h : Heap} {live : Std.TreeSet Nat} {i : Nat} {a b : Address} {hd : Header}
    {rest : List Address} (found : live.contains i) :
    dropsLeft (live.erase i) ((h.slots a hd).reverse ++ rest) < dropsLeft live (b :: rest) := by
  have fewer := size_erase_lt found
  have few := hd.children.toNat_lt
  simp only [dropsLeft, Header.limit, slots, List.length_append, List.length_reverse,
    List.length_map, List.length_range, List.length_cons]
  omega

/-- Drops one reference to each of the addresses in turn. The children of a record that loses its
last reference come next, the last of them first. -/
def drain (h : Heap) : List Address → EStateM.Result HeapError Heap Unit
  | [] => .ok () h
  | a :: rest =>
    if a.isNil then h.drain rest
    else if _ : h.isLive a then
      let count := h.pool.word (a.index + 1)
      if count = 0 then .error (.doubleFree a) h
      else
        let hd := Header.ofWord (h.pool.word a.index)
        let next := (h.slots a hd).reverse ++ rest
        let pool := h.pool.setWord (a.index + 1) (count - 1)
        if count = 1 ∧ hd.pins = 0 then
          match pool.deallocate a.index with
          | .ok pool => drain ⟨pool, h.live.erase a.index⟩ next
          | .error e => .error e ⟨pool, h.live.erase a.index⟩
        else drain { h with pool } rest
    else .error (.released a) h
  termination_by pending => dropsLeft h.live pending
  decreasing_by
    · exact dropsLeft_tail
    · exact dropsLeft_erase (by assumption)
    · exact dropsLeft_tail

end Heap

namespace HeapM

/-- Asks the heap. -/
@[inline]
def ask (q : Heap → Except HeapError α) : HeapM α := fun h =>
  match q h with
  | .ok a => .ok a h
  | .error e => .error e h

/-- Allocates a record with zeroed slots. The caller owns the one reference to it. -/
def allocate (tag : Tag) (fields children : Nat) : HeapM Address := fun h =>
  if Header.limit < fields ∨ Header.limit < children then .error (.recordTooLarge fields children) h
  else
    let words := 2 + fields + children
    match h.pool.allocate words with
    | none => .error (.outOfMemory words h.freeWords) h
    | some (i, pool) =>
      let hd : Header := ⟨tag.number.toUInt16, fields.toUInt16, children.toUInt16, 0⟩
      let pool := (pool.setWord i hd.toWord).setWord (i + 1) 1
      let pool := (List.range (fields + children)).foldl (fun p k => p.setWord (i + 2 + k) 0) pool
      .ok ⟨i⟩ { pool, live := h.live.insert i }

/-- Overwrites a field of a record with the tag. -/
def setField (a : Address) (tag : Tag) (i : Nat) (w : UInt64) : HeapM Unit := do
  let slot ← ask (·.fieldSlot a tag i)
  modify (·.setWord slot w)

/-- Adds a reference and hands the same address back. -/
def reference (a : Address) : HeapM Address := do
  if a.isNil then return a
  let count ← ask (·.refCount a)
  modify (·.setWord (a.index + 1) (count + 1))
  return a

/-- Drops one reference. -/
def free (a : Address) : HeapM Unit := fun h => h.drain [a]

/-- Moves the caller's reference to `c` into a child slot and drops the reference that was
there. -/
def setChildOwned (a : Address) (tag : Tag) (i : Nat) (c : Address) : HeapM Unit := do
  let slot ← ask (·.childSlot a tag i)
  let old ← modifyGet fun h => (Address.ofWord (h.pool.word slot), h.setWord slot c.toWord)
  free old

/-- Stores a new reference to `c` in a child slot and drops the reference that was there. -/
def setChild (a : Address) (tag : Tag) (i : Nat) (c : Address) : HeapM Unit := do
  let _ ← reference c
  setChildOwned a tag i c

/-- Moves the reference in a child slot to the caller and leaves nil. -/
def takeChild (a : Address) (tag : Tag) (i : Nat) : HeapM Address := do
  let slot ← ask (·.childSlot a tag i)
  modifyGet fun h => (Address.ofWord (h.pool.word slot), h.setWord slot 0)

/-- A new record with the tag, fields and children of another. -/
def copy (a : Address) : HeapM Address := do
  let tag ← ask (·.tag a)
  let fields ← ask (·.numFields a)
  let children ← ask (·.children a)
  let b ← allocate tag fields children.length
  for i in List.range fields do
    setField b tag i (← ask (·.field a tag i))
  for (c, i) in children.zipIdx do
    setChild b tag i c
  return b

/-- Replaces the pins of a record. -/
def setPins (a : Address) (pins : UInt16) : HeapM Unit := do
  let hd ← ask (·.header a)
  modify (·.setWord a.index { hd with pins }.toWord)

/-- Pins a record, which keeps it from being released. Pins nest. -/
def pin (a : Address) : HeapM Unit := do
  if a.isNil then return
  let pins := (← ask (·.header a)).pins
  if pins.toNat = Header.limit then throw (.pinOverflow a)
  setPins a (pins + 1)

/-- Removes one pin. Removing the last pin of a record that nobody references releases it. -/
def unpin (a : Address) : HeapM Unit := do
  if a.isNil then return
  let pins := (← ask (·.header a)).pins
  if pins = 0 then throw (.unbalancedUnpin a)
  setPins a (pins - 1)
  if pins = 1 ∧ (← ask (·.refCount a)) = 0 then
    let hd ← ask (·.header a)
    let next ← modifyGet fun h => ((h.slots a hd).reverse, { h with live := h.live.erase a.index })
    let pool ← ask (·.pool.deallocate a.index)
    modify ({ · with pool })
    fun h => h.drain next

end HeapM
end GoMachine
