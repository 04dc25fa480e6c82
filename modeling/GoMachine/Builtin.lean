/-!
# Names of builtins

The functions that programs call without declaring them. Some belong to no package, some are
exported by a package, and the methods of the `sync` types are found through their receiver only.
-/
namespace GoMachine

inductive Builtin where
  | append | cap | close | len
  | print | println | sprint
  | lock | unlock
  | add | done | wait
  deriving DecidableEq

namespace Builtin

/-- Every builtin; those of one package are in the order of their names. -/
def all : List Builtin :=
  [append, cap, close, len, print, println, sprint, lock, unlock, add, done, wait]

/-- The package of a builtin; empty for those that need no import. -/
def package : Builtin → String
  | append | cap | close | len => ""
  | print | println | sprint => "fmt"
  | lock | unlock | add | done | wait => "sync"

/-- Whether a builtin is a method. -/
def isMethod : Builtin → Bool
  | lock | unlock | add | done | wait => true
  | _ => false

/-- The name with package and type. -/
def qualified : Builtin → String
  | append => "append"
  | cap => "cap"
  | close => "close"
  | len => "len"
  | print => "fmt.Print"
  | println => "fmt.Println"
  | sprint => "fmt.Sprint"
  | lock => "sync.Mutex.Lock"
  | unlock => "sync.Mutex.Unlock"
  | add => "sync.WaitGroup.Add"
  | done => "sync.WaitGroup.Done"
  | wait => "sync.WaitGroup.Wait"

/-- The builtin with a qualified name. -/
def ofName? (name : String) : Option Builtin := all.find? (·.qualified == name)

/-- Whether a package can be imported. -/
def isPackage (name : String) : Bool := name == "fmt" || name == "sync"

/-- The qualified names that an import of a package makes visible; those of the empty package are
always visible. -/
def exports (package : String) : List String :=
  (all.filter fun b => b.package == package && !b.isMethod).map qualified

end Builtin
end GoMachine
