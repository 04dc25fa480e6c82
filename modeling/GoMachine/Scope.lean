import GoMachine.Value.Text
/-!
# Scopes

A frame is one scope: a record with its parent frame and a chain of entries as children. An entry
binds a key, which is a string, to a value. A new entry goes in front of the chain, so that it
hides earlier ones with the same key. A name is looked up in the entries of a frame, then in its
parent.
-/
namespace GoMachine

namespace Entry

/-- An entry in front of a chain of entries. -/
def create (key value next : Address) : Action Address := do
  let entry ← HeapM.allocate .entry 0 3
  HeapM.setChild entry .entry 0 key
  HeapM.setChild entry .entry 1 value
  HeapM.setChild entry .entry 2 next
  return entry

def key (entry : Address) : Query Address := Query.child entry .entry 0

def value (entry : Address) : Query Address := Query.child entry .entry 1

def next (entry : Address) : Query Address := Query.child entry .entry 2

/-- The keys and values of the first entries of a chain. -/
def take : Nat → Address → Query (List (Address × Address))
  | 0, _ => return []
  | n + 1, entry => do
    if entry.isNil then return []
    let pair := (← key entry, ← value entry)
    return pair :: (← take n (← next entry))

/-- The keys and values of a chain in order, borrowed. -/
def pairs (entry : Address) : Query (List (Address × Address)) := do
  take ((← read).liveCount + 1) entry

/-- The value of the first entry of a chain with a key that matches, among the first so many. -/
def find? (matching : Address → Query Bool) : Nat → Address → Query (Option Address)
  | 0, _ => return none
  | n + 1, entry => do
    if entry.isNil then return none
    if ← matching (← key entry) then return some (← value entry)
    find? matching n (← next entry)

end Entry

namespace Frame

/-- A frame without entries. -/
def create (parent : Address) : Action Address := do
  let frame ← HeapM.allocate .frame 0 2
  HeapM.setChild frame .frame 0 parent
  return frame

/-- The frame around a frame, borrowed. -/
def parent (frame : Address) : Query Address := Query.child frame .frame 0

/-- Binds a key to a value, with a new reference to each. -/
def insert (frame key value : Address) : Action Unit := do
  let first ← Query.child frame .frame 1
  let entry ← Entry.create key value first
  HeapM.setChildOwned frame .frame 1 entry

/-- Binds a text to a value. -/
def insertText (frame : Address) (name : String) (value : Address) : Action Unit := do
  let key ← Text.create name
  Action.releasing key (insert frame key value)

/-- The newest binding of the frame itself whose key matches, borrowed. -/
def findLocal? (matching : Address → Query Bool) (frame : Address) : Query (Option Address) := do
  let first ← Query.child frame .frame 1
  Entry.find? matching ((← read).liveCount + 1) first

/-- The innermost binding along the first frames of a chain of scopes. -/
def findAmong? (matching : Address → Query Bool) : Nat → Address → Query (Option Address)
  | 0, _ => return none
  | n + 1, frame => do
    if frame.isNil then return none
    match ← findLocal? matching frame with
    | some value => return some value
    | none => findAmong? matching n (← parent frame)

/-- The innermost binding whose key matches, borrowed. -/
def find? (matching : Address → Query Bool) (frame : Address) : Query (Option Address) := do
  findAmong? matching ((← read).liveCount + 1) frame

/-- The innermost binding of the text that a string record holds. -/
def lookup? (frame name : Address) : Query (Option Address) :=
  find? (fun key => Text.equals key name) frame

/-- The innermost binding of a text. -/
def lookupText? (frame : Address) (name : String) : Query (Option Address) :=
  find? (fun key => Text.eqString key name) frame

/-- The binding of a text in the frame itself. -/
def lookupLocal? (frame : Address) (name : String) : Query (Option Address) :=
  findLocal? (fun key => Text.eqString key name) frame

/-- The bindings of the frame itself, the oldest first. -/
def entries (frame : Address) : Query (List (Address × Address)) := do
  return (← Entry.pairs (← Query.child frame .frame 1)).reverse

/-- The first frames of a chain of scopes. -/
def takeChain : Nat → Address → Query (List Address)
  | 0, _ => return []
  | n + 1, frame => do
    if frame.isNil then return []
    return frame :: (← takeChain n (← parent frame))

/-- The frames from a frame outwards. -/
def chain (frame : Address) : Query (List Address) := do takeChain ((← read).liveCount + 1) frame

end Frame
end GoMachine
