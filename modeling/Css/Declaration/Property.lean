import Css.Token.Written

/-!
# Properties

A property is custom, if its name starts with two hyphens, or standard.
-/
namespace Css

inductive Vendor where
  | webkit | moz | ms | o
deriving DecidableEq

namespace Vendor

def all : List Vendor :=
  [webkit,moz,ms,o]

def text : Vendor → String
  | webkit => "-webkit-"
  | moz => "-moz-"
  | ms => "-ms-"
  | o => "-o-"

def textOf : Option Vendor → String
  | some vendor => vendor.text
  | none => ""

def split (name : String) : Option Vendor × String :=
  let chars := name.toList
  let leads (vendor : Vendor) : Bool :=
    let size := vendor.text.length
    size < chars.length && (chars.take size).map Char.toLower == vendor.text.toList
  match all.find? leads with
  | some vendor => (some vendor, String.ofList (chars.drop vendor.text.length))
  | none => (none, name)

end Vendor

inductive Property where
  | standard (name : String) (vendor : Option Vendor)
  | custom (name : String)
deriving DecidableEq

namespace Property

def ofName (name : String) : Property :=
  if Text.startsWith name "--" then custom name
  else
    let (vendor, rest) := Vendor.split (Text.lower name)
    standard rest vendor

def name : Property → String
  | standard name _ => name
  | custom name => name

def vendor : Property → Option Vendor
  | standard _ vendor => vendor
  | custom _ => none

def isCustom : Property → Bool
  | standard .. => false
  | custom _ => true

def withVendor (vendor : Option Vendor) : Property → Property
  | standard name _ => standard name vendor
  | custom name => custom name

def render : Property → String
  | standard name vendor => Vendor.textOf vendor ++ Written.identifier name
  | custom name => Written.identifier name

end Property

end Css
