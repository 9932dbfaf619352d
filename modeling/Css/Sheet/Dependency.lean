import Css.Digest.Blake3
import Css.Rule.Basic

/-!
# Dependencies

The files that a style sheet depends on. Each address is replaced by a placeholder, which whoever
resolves the addresses can find again in the code.
-/
namespace Css

structure Dependency where
  isImport : Bool
  url : String
  placeholder : String
  line : Nat
  column : Nat
deriving DecidableEq

namespace Dependency

def placeholderOf (filename url : String) : String :=
  String.ofList ((Blake3.hexDigest (filename ++ "\x00" ++ url)).take 8)

def isFile (url : String) : Bool :=
  !url.isEmpty && !Text.startsWith url "#" && !Text.startsWith (Text.lower url) "data:"

def make (filename : String) (isImport : Bool) (url : String) (location : Location) : Dependency :=
  ⟨isImport,url,placeholderOf filename url,location.line + 1,location.column + 1⟩

def note (filename : String) (isImport : Bool) (url : String) (location : Location) :
    StateM (List Dependency) String := do
  let d := make filename isImport url location
  modify fun found => found ++ [d]
  return d.placeholder

def valueVisitor (filename : String) : Component.Visitor (StateM (List Dependency)) where
  leaf
    | .url url location =>
      if isFile url then return .url (← note filename false url location) location
      else return .url url location
    | c => return c
  reference name source := return (name, source)

def replaceIn (filename : String) (declarations : List Declaration) :
    StateM (List Dependency) (List Declaration) :=
  Declaration.traverseValues (fun value => value.traverse (valueVisitor filename)) declarations

def ruleVisitor (filename : String) : Rule.Visitor (StateM (List Dependency)) where
  block b := return { b with declarations := ← replaceIn filename b.declarations }
  group g _ := return g
  statement s location :=
    match s with
    | .importSheet url layer supports media =>
      return .importSheet (← note filename true url location) layer supports media
    | s => s.traverseDeclarations (replaceIn filename)

def extract (filename : String) (rules : List Rule) : List Rule × List Dependency :=
  (Rule.traverseList (ruleVisitor filename) rules).run []

end Dependency

end Css
