import Css.Modules.Naming

/-!
# Exports

The table of the names that a file exports, and of the names of other files that it refers to.
-/
namespace Css.Modules

inductive Reference where
  | here (name : String)
  | global (name : String)
  | file (name specifier : String)
deriving DecidableEq

structure Export where
  name : String
  composes : List Reference
  isReferenced : Bool
deriving DecidableEq

abbrev Exports := List (String × Export)

namespace Exports

def writer? (exports : Exports) (generated : String) : Option String :=
  (exports.find? fun e => e.2.name == generated).map Prod.fst

def update (exports : Exports) (name : String) (f : Export → Export) : Exports :=
  exports.map fun e => if e.1 == name then (e.1, f e.2) else e

end Exports

abbrev References := List (String × Reference)

def References.insert (references : References) (placeholder : String) (r : Reference) :
    References :=
  references.filter (fun e => e.1 != placeholder) ++ [(placeholder, r)]

end Css.Modules
