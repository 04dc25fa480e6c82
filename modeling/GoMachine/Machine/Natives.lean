import GoMachine.Builtin
import GoMachine.Channel
import GoMachine.Machine.Turn
import GoMachine.Value.View
/-!
# What builtins do

A builtin gets its arguments, borrowed, and either returns a value, which the caller owns, or has
itself put a result on the stash and seen to the thread: made it runnable or left it to a waker.
-/
namespace GoMachine

/-- What a builtin did with the running thread. -/
inductive Flow where
  /-- The result; the thread goes on. -/
  | returned (value : Address)
  /-- The thread was taken care of. -/
  | yielded
  deriving DecidableEq

namespace Builtin

/-- Fails unless there are so many arguments. -/
def checkArity (args : List Address) (expected : Nat) : Except Fault Unit :=
  if args.length = expected then .ok () else .error (.arityMismatch expected args.length)

/-- The only argument. -/
def single (args : List Address) : TurnM Address := do
  .conclude (checkArity args 1)
  return args.headD .nil

/-- A count as a result. -/
def returnCount (n : Nat) : TurnM Flow := return .returned (← Scalar.newInt32 n.toInt32)

def runLen (args : List Address) : TurnM Flow := do
  let a ← single args
  match ← View.of a with
  | .record .string s => returnCount (← Text.size s)
  | .record .array arr => returnCount (← ArrayValue.size arr)
  | .record .slice s => returnCount (← Slice.size s)
  | .record .channel ch => returnCount (← Channel.size ch)
  | .nil => returnCount 0
  | _ => throw (.typeMismatch "string, array, slice or channel" (← Query.tag a))

def runCap (args : List Address) : TurnM Flow := do
  let a ← single args
  match ← View.of a with
  | .record .array arr => returnCount (← ArrayValue.size arr)
  | .record .slice s => returnCount (← Slice.cap s)
  | .record .channel ch => returnCount (← Channel.cap ch)
  | .nil => returnCount 0
  | _ => throw (.typeMismatch "array, slice or channel" (← Query.tag a))

def runAppend : List Address → TurnM Flow
  | [] => throw (.arityMismatch 1 0)
  | target :: values => do
    return .returned (← Slice.append (← TurnM.structs) target values)

def runClose (args : List Address) : TurnM Flow := do
  let ch ← single args
  Channel.close ch (← TurnM.structs) (← get).scheduler
  return .returned .nil

/-- The texts of values, without a blank next to a string. -/
def spaced (afterString : Bool) : List Address → Query String
  | [] => return ""
  | a :: as => do
    let isString := (← Query.tag a) == .string
    let text ← display a
    let rest ← spaced isString as
    return (if isString || afterString then "" else " ") ++ text ++ rest

def runPrintln (args : List Address) : TurnM Flow := do
  let texts ← (args.mapM display : Query (List String))
  TurnM.emit (" ".intercalate texts ++ "\n")
  return .returned .nil

def runPrint (args : List Address) : TurnM Flow := do
  TurnM.emit (← spaced true args)
  return .returned .nil

def runSprint (args : List Address) : TurnM Flow := do
  return .returned (← Text.create (← spaced true args))

/-- The lock that the first argument leads to. -/
def receiver (args : List Address) (tag : Tag) (expected : String) : TurnM Address := do
  match args with
  | [] => throw .nilDereference
  | first :: _ =>
    let target ← Pointer.follow first
    let found ← Query.tag target
    if found = tag then return target
    if found = .nil then throw .nilDereference
    throw (.typeMismatch expected found)

def mutexOf (args : List Address) : TurnM Address := do
  .conclude (checkArity args 1)
  receiver args .mutex "sync.Mutex"

def waitGroupOf (args : List Address) (arity : Nat) : TurnM Address := do
  .conclude (checkArity args arity)
  receiver args .waitGroup "sync.WaitGroup"

def runLock (args : List Address) : TurnM Flow := do
  let m ← mutexOf args
  TurnM.pushValue .nil
  let _ ← Mutex.lock m (← get).thread (← get).scheduler
  return .yielded

def runUnlock (args : List Address) : TurnM Flow := do
  Mutex.unlock (← mutexOf args) (← get).scheduler
  return .returned .nil

def runAdd (args : List Address) : TurnM Flow := do
  let wg ← waitGroupOf args 2
  let delta ← Scalar.toInt32 (args.getD 1 .nil)
  WaitGroup.add wg delta.toInt64 (← get).scheduler
  return .returned .nil

def runDone (args : List Address) : TurnM Flow := do
  WaitGroup.add (← waitGroupOf args 1) (-1) (← get).scheduler
  return .returned .nil

def runWait (args : List Address) : TurnM Flow := do
  let wg ← waitGroupOf args 1
  TurnM.pushValue .nil
  let _ ← WaitGroup.wait wg (← get).thread (← get).scheduler
  return .yielded

/-- Runs a builtin. -/
def run : Builtin → List Address → TurnM Flow
  | append => runAppend
  | cap => runCap
  | close => runClose
  | len => runLen
  | print => runPrint
  | println => runPrintln
  | sprint => runSprint
  | lock => runLock
  | unlock => runUnlock
  | add => runAdd
  | done => runDone
  | wait => runWait

end Builtin
end GoMachine
