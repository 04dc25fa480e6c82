import GoMachine.Heap.Error
import GoMachine.Memory
import Std.Data.TreeMap
import Std.Data.TreeSet
/-!
# The word pool

A pool of `2 ^ maxLog` words, cut into blocks by halving. Bucket `b` holds the blocks of
`2 ^ (maxLog - b)` words, so bucket 0 is the whole pool. A block is also a node of a binary tree:
the pool is node 1, and the halves of node `i` are `2 * i` and `2 * i + 1`.

The free blocks of a bucket form a doubly linked list whose links are the first two words of each
free block (`0` for no link, the block's offset plus one otherwise). The first word of a block in
use holds its bucket, and its client owns the words after that. A node is in `splits` when exactly
one of its halves is free: a block given back is joined with its other half as long as the parent
is there.
-/
namespace GoMachine

/-- A pool of words and what is known of its blocks. -/
structure Pool where
  /-- The logarithm of the capacity. -/
  maxLog : Nat
  /-- The words, all zero at first. -/
  memory : Memory := .blank
  /-- The offset of the first free block of each bucket that has one. -/
  heads : Std.TreeMap Nat Nat := ∅
  /-- The nodes of which exactly one half is free. -/
  splits : Std.TreeSet Nat := ∅
  /-- How many words lie in free blocks. -/
  freeWords : Nat := 0

namespace Pool

/-- The number of words in the pool. -/
def capacity (p : Pool) : Nat := Nat.pow 2 p.maxLog

/-- The largest request that an empty pool grants. -/
def maxRequest (p : Pool) : Nat := p.capacity - 1

/-- The word at an offset. -/
def word (p : Pool) (i : Nat) : UInt64 := p.memory.get i

/-- Overwrites the word at an offset. -/
def setWord (p : Pool) (i : Nat) (w : UInt64) : Pool := { p with memory := p.memory.set i w }

/-- The number of words of a block of bucket `b`. -/
def blockWords (p : Pool) (b : Nat) : Nat := Nat.pow 2 (p.maxLog - b)

/-- The offset of a node of bucket `b`. -/
def offset (p : Pool) (b node : Nat) : Nat := (node - Nat.pow 2 b) * p.blockWords b

/-- The node of bucket `b` at an offset. -/
def node (p : Pool) (b offset : Nat) : Nat := offset / p.blockWords b + Nat.pow 2 b

/-- The other half of a node's parent. -/
def buddy (node : Nat) : Nat := node ^^^ 1

/-- The word for an optional offset. -/
def link : Option Nat → UInt64
  | none => 0
  | some i => (i + 1).toUInt64

/-- The optional offset of a word. -/
def unlink (w : UInt64) : Option Nat := if w = 0 then none else some (w.toNat - 1)

/-- Notes that a half of the parent of `node` was freed or taken. -/
def toggle (p : Pool) (node : Nat) : Pool :=
  if node ≤ 1 then p
  else if p.splits.contains (node / 2) then { p with splits := p.splits.erase (node / 2) }
  else { p with splits := p.splits.insert (node / 2) }

/-- Makes `head` the first free block of bucket `b`. -/
def setHead (p : Pool) (b : Nat) : Option Nat → Pool
  | none => { p with heads := p.heads.erase b }
  | some i => { p with heads := p.heads.insert b i }

/-- Adds the words of a block of bucket `b` to the free words. -/
def gain (p : Pool) (b : Nat) : Pool := { p with freeWords := p.freeWords + p.blockWords b }

/-- Takes the words of a block of bucket `b` off the free words. -/
def lose (p : Pool) (b : Nat) : Pool := { p with freeWords := p.freeWords - p.blockWords b }

/-- Puts a node of bucket `b` in front of the bucket's free list. -/
def insertFree (p : Pool) (b node : Nat) : Pool :=
  let i := p.offset b node
  let head := p.heads[b]?
  let p := (p.setWord i 0).setWord (i + 1) (link head)
  let p := match head with
    | none => p
    | some h => p.setWord h (link (some i))
  ((p.setHead b (some i)).toggle node).gain b

/-- Takes a node of bucket `b` off the bucket's free list. Links are followed as they stand. After a
stray address was accepted they may lead out of the pool: a word that is written there is kept like
any other, where a pool of real words would stop. -/
def removeFree (p : Pool) (b node : Nat) : Pool :=
  let i := p.offset b node
  let prev := unlink (p.word i)
  let next := unlink (p.word (i + 1))
  let p := match prev with
    | some j => p.setWord (j + 1) (link next)
    | none => p.setHead b next
  let p := match next with
    | some j => p.setWord j (link prev)
    | none => p
  (p.toggle node).lose b

/-- A pool of the largest power of two that is at most `words`, all of it free. -/
def new (words : Nat) : Except HeapError Pool :=
  if words < 4 ∨ 4294967295 < words then .error (.poolSize words)
  else .ok (({ maxLog := words.log2 } : Pool).insertFree 0 1)

/-- The bucket of the smallest blocks that have room for `n` words and the word in front of
them, if the pool is large enough. -/
def bucketFor? (p : Pool) (n : Nat) : Option Nat :=
  let log := n.log2 + 1
  if n = 0 ∨ p.maxLog < log then none else some (p.maxLog - log)

/-- The last bucket up to `b` that has a free block. -/
def lastFree? (p : Pool) : Nat → Option Nat
  | 0 => if p.heads.contains 0 then some 0 else none
  | b + 1 => if p.heads.contains (b + 1) then some (b + 1) else p.lastFree? b

/-- Halves a node of bucket `b` as often as the count says, each time freeing the second half,
and returns what is left of it. -/
def split (p : Pool) (b node : Nat) : Nat → Nat × Pool
  | 0 => (node, p)
  | count + 1 => (p.insertFree (b + 1) (2 * node + 1)).split (b + 1) (2 * node) count

/-- Takes a block with room for `n` words out of the pool, and returns the offset of those
words. -/
def allocate (p : Pool) (n : Nat) : Option (Nat × Pool) := do
  let target ← p.bucketFor? n
  let source ← p.lastFree? target
  let head ← p.heads[source]?
  let node := p.node source head
  let (node, p) := (p.removeFree source node).split source node (target - source)
  let i := p.offset target node
  return (i + 1, p.setWord i target.toUInt64)

/-- Gives a node of bucket `b` back, joined with its other half for as long as that is free. -/
def join (p : Pool) (node : Nat) : (b : Nat) → Pool
  | 0 => p.insertFree 0 node
  | b + 1 =>
    if p.splits.contains (node / 2) then (p.removeFree (b + 1) (buddy node)).join (node / 2) b
    else p.insertFree (b + 1) node

/-- Gives back the block whose words start at `i`. What stands in front of `i` has to be the
bucket of a block that can lie there. -/
def deallocate (p : Pool) (i : Nat) : Except HeapError Pool :=
  if i = 0 ∨ p.capacity ≤ i then .error (.invalidBlock i)
  else
    let b := (p.word (i - 1)).toNat
    if p.maxLog ≤ b ∨ (i - 1) % p.blockWords b ≠ 0 then .error (.invalidBlock i)
    else .ok (p.join (p.node b (i - 1)) b)

/-- The number of words that the client of a block in use owns. -/
def blockCapacity (p : Pool) (i : Nat) : Nat := p.blockWords (p.word (i - 1)).toNat - 1

end Pool
end GoMachine
