import GoMachine.Proofs.Atomic.Values
/-!
# Constructors that fail

A constructor needs several records and may run out of memory at each of them, at any depth of a
zero value. `Constructor` lists those that are called from outside. Whichever fails for want of
memory, or because of what the program asked for, the heap is as it was before: the same records
with the same fields, children and counts, and the same free blocks.
-/
namespace GoMachine

open Heap (Owns Raised)

/-- What can be made, or put into a container. -/
inductive Constructor where
  | text (text : String)
  | concat (a b : Address)
  | substring (s : Address) (low high : Int)
  | zeroValue (structs type : Address)
  | structType (name : String)
  | structDecl (name : String) (members : List (String × Address))
  | zeroedArray (structs elem : Address) (size : Nat)
  | arrayOf (elem : Address) (values : List Address)
  | zeroedStruct (structs decl : Address)
  | channel (elem : Address) (cap : Int)
  | slice (structs elem : Address) (size cap : Int)
  | mutex
  | semaphore (permits : Int64)
  | waitGroup
  | thread (id : UInt64) (frame structs : Address)
  | scheduler
  | binding (frame : Address) (name : String) (value : Address)
  | enqueued (queue value : Address)
  | pushed (stack value : Address)

namespace Constructor

/-- What a constructor does. The last three give nothing back. -/
def run : Constructor → Action Address
  | text s => Text.create s
  | concat a b => Text.concat a b
  | substring s low high => Text.substring s low high
  | zeroValue structs type => GoMachine.zeroValue structs type
  | structType name => TypeDesc.named name
  | structDecl name members => TypeDesc.declare name members
  | zeroedArray structs elem size => ArrayValue.zeroed structs elem size
  | arrayOf elem values => ArrayValue.ofValues elem values
  | zeroedStruct structs decl => StructValue.zeroed structs decl
  | channel elem cap => Channel.create elem cap
  | slice structs elem size cap => Slice.make structs elem size cap
  | mutex => Mutex.create
  | semaphore permits => Semaphore.create permits
  | waitGroup => WaitGroup.create
  | thread id frame structs => Thread.create id frame structs
  | scheduler => Scheduler.create
  | binding frame name value => do
    Frame.insertText frame name value
    return .nil
  | enqueued queue value => do
    Queue.enqueue queue value
    return .nil
  | pushed stack value => do
    Stack.push stack value
    return .nil

/-- The records that a constructor is given. -/
def arguments : Constructor → List Address
  | text _ | structType _ | mutex | semaphore _ | waitGroup | scheduler => []
  | concat a b => [a, b]
  | substring s _ _ => [s]
  | zeroValue structs type => [structs, type]
  | structDecl _ members => members.map Prod.snd
  | zeroedArray structs elem _ => [structs, elem]
  | arrayOf elem values => elem :: values
  | zeroedStruct structs decl => [structs, decl]
  | channel elem _ => [elem]
  | slice structs elem _ _ => [structs, elem]
  | thread _ frame structs => [frame, structs]
  | binding frame _ value => [frame, value]
  | enqueued queue value => [queue, value]
  | pushed stack value => [stack, value]

variable {P O : Multiset Address} {n : Nat} {h h' : Heap} {e : Fault}

/-- A constructor is carried out, or nothing is left of it. -/
theorem restores (k : Constructor) (own : Owns P (n + 2) O h) (live : ∀ a ∈ k.arguments, Old h a) :
    Restores P O h (n + 1) 0 k.run h fun _ _ => True := by
  have g₂ : Raised P O h (fun _ => 0) (n + 2) 0 h := .start own
  have g : Raised P O h (fun _ => 0) (n + 1) 0 h := g₂.weaken (Nat.le_succ _)
  have raised {x : Action Address} (raises : Raises P O h x) :
    Restores P O h (n + 1) 0 x h fun _ _ => True :=
    (raises 0 g).mono fun _ _ _ => trivial
  cases k with
  | text => exact raised Text.create_raises
  | concat a b =>
      exact raised (Text.concat_raises (live a (by simp [arguments]))
        (live b (by simp [arguments])))
  | substring s => exact raised (Text.substring_raises (live s (by simp [arguments])))
  | zeroValue structs type =>
    exact raised (zeroValue_raises (live structs (by simp [arguments]))
      (live type (by simp [arguments])))
  | structType => exact raised TypeDesc.named_raises
  | structDecl name members =>
    exact raised (TypeDesc.declare_raises fun m hm => live m.2 (List.mem_map_of_mem hm))
  | zeroedArray structs elem =>
    exact raised (ArrayValue.zeroed_raises (live structs (by simp [arguments]))
      (live elem (by simp [arguments])))
  | arrayOf elem values =>
    exact raised (ArrayValue.ofValues_raises (live elem (by simp [arguments])) fun a ha =>
      live a (List.mem_cons_of_mem elem ha))
  | zeroedStruct structs decl =>
    exact raised (StructValue.zeroed_raises (live structs (by simp [arguments]))
      (live decl (by simp [arguments])))
  | channel elem => exact raised (Channel.create_raises (live elem (by simp [arguments])))
  | slice structs elem =>
    exact raised (Slice.make_raises (live structs (by simp [arguments]))
      (live elem (by simp [arguments])))
  | mutex => exact raised LockKind.create_raises
  | semaphore => exact raised LockKind.create_raises
  | waitGroup => exact raised LockKind.create_raises
  | thread id frame structs =>
    exact raised (Thread.create_raises (live frame (by simp [arguments]))
      (live structs (by simp [arguments])))
  | scheduler => exact raised Scheduler.create_raises
  | binding frame name value =>
    exact (Frame.insertText_restores g (live frame (by simp [arguments]))
      (live value (by simp [arguments]))).bind
      fun _ _ _ => .pure trivial
  | enqueued queue value => exact (Queue.enqueue_restores g₂).bind fun _ _ _ => .pure trivial
  | pushed stack value => exact (Stack.push_restores g₂).bind fun _ _ _ => .pure trivial

/-- A constructor that fails, be it for want of memory at any of its records, leaves the heap as it
was: the same records with the same fields, children, counts and pins, the same free blocks and as
many free words. Left out are faults of a caller who hands over something else than what is asked
for. -/
theorem atomic {k : Constructor} (arises : h.Arises) (own : Owns P (n + 2) O h)
    (live : ∀ a ∈ k.arguments, a = .nil ∨ h.isLive a) (failed : k.run h = .error e h')
    (lawful : e.isProtocol = false) : h'.cell? = h.cell? ∧ h'.pool.Alike h.pool := by
  rcases k.restores own live with ⟨a, h₁, run, -⟩ | ⟨e₁, h₁, run, left⟩ <;> rw [failed] at run <;>
    cases run
  obtain ⟨ρ, g⟩ := left lawful
  exact ⟨g.same, g.alike arises.tidy.joined⟩

/-- The making of a channel in a heap of thirty-two words. -/
def channelRun : Bool :=
  match Heap.new 32 with
  | .error _ => false
  | .ok h => match (channel .nil 0).run h with
    | .ok _ _ => false
    | .error e _ => e = .heap (.outOfMemory 5 0)

/-- A channel in a heap of thirty-two words: its record and some of its queues can be had, the
others cannot. -/
theorem atomic_channel : ∃ h h', Heap.new 32 = .ok h ∧
    (channel .nil 0).run h = .error (.heap (.outOfMemory 5 0)) h' ∧ h'.cell? = h.cell? ∧
    h'.pool.Alike h.pool := by
  have ran : channelRun = true := by decide +kernel
  unfold channelRun at ran
  split at ran
  · cases ran
  next h made =>
  split at ran
  · cases ran
  next e h' failed =>
  obtain rfl := of_decide_eq_true ran
  have own : Owns 0 (0 + 2) 0 h := ⟨.new made, by decide, by simp [Heap.limit]⟩
  exact ⟨h, h', made, failed, atomic (.new made) own (by simp [arguments]) failed rfl⟩

end Constructor
end GoMachine
