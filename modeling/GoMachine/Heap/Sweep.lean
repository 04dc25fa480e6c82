import GoMachine.Heap.Basic
/-!
# Mark and sweep

Reference counts miss cycles. `HeapM.markAndSweep` releases every record that cannot be reached
through child slots from the given roots or from a pinned record, whatever its count says.
-/
namespace GoMachine
namespace Heap

/-- What is left of a set of records after all that can be reached from a list of addresses,
through records of the set, is taken out. -/
def unreached (h : Heap) (records : Std.TreeSet Nat) : List Address → Std.TreeSet Nat
  | [] => records
  | a :: rest =>
    if _ : records.contains a.index then
      let hd := Header.ofWord (h.pool.word a.index)
      h.unreached (records.erase a.index) ((h.slots a hd).reverse ++ rest)
    else h.unreached records rest
  termination_by pending => dropsLeft records pending
  decreasing_by
    · exact dropsLeft_erase (by assumption)
    · exact dropsLeft_tail

/-- The records that are pinned. -/
def pinned (h : Heap) : List Address :=
  h.liveObjects.filter fun a => (Header.ofWord (h.pool.word a.index)).pins != 0

/-- The references that records of the set hold to anything outside of it. -/
def outgoing (h : Heap) (garbage : Std.TreeSet Nat) : List Address :=
  garbage.toList.flatMap fun i =>
    (h.slots ⟨i⟩ (.ofWord (h.pool.word i))).filter fun a => !garbage.contains a.index

/-- Takes a record off the heap. The references in its slots are left to the caller. -/
def discard (h : Heap) (i : Nat) : Except HeapError Heap :=
  return { h with live := h.live.erase i, pool := ← h.pool.deallocate i }

end Heap

namespace HeapM

/-- Releases every record that is reached neither from the roots nor from a pinned record, and
returns their number. The references that they hold to other records are dropped. -/
def markAndSweep (roots : List Address) : HeapM Nat := do
  let h ← get
  let garbage := h.unreached h.live (h.pinned ++ roots)
  let pending := h.outgoing garbage
  for i in garbage.toList do
    set (← ask (·.discard i))
  fun h => h.drain pending.reverse
  return garbage.size

end HeapM
end GoMachine
