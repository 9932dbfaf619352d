import Css.Text.Basic

/-!
# Browsers and versions

A version has a major, a minor and a patch number below 256 and is packed into one number, so that
versions are ordered as their packed numbers are.
-/
namespace Css

inductive Browser where
  | android | chrome | edge | firefox | ie | iosSafari | opera | safari | samsung
deriving DecidableEq

namespace Browser

def all : List Browser :=
  [android,chrome,edge,firefox,ie,iosSafari,opera,safari,samsung]

def name : Browser → String
  | android => "android"
  | chrome => "chrome"
  | edge => "edge"
  | firefox => "firefox"
  | ie => "ie"
  | iosSafari => "ios_saf"
  | opera => "opera"
  | safari => "safari"
  | samsung => "samsung"

def aliases : Browser → List String
  | firefox => ["ff"]
  | iosSafari => ["ios","ios_safari"]
  | _ => []

def ofName? (s : String) : Option Browser :=
  all.find? fun browser => (browser.name :: browser.aliases).contains (Text.lower s)

end Browser

abbrev Version := Nat

namespace Version

def pack (major minor patch : Nat) : Version :=
  major * 65536 + minor * 256 + patch

def format (v : Version) : String :=
  let major := v / 65536
  let minor := v / 256 % 256
  let patch := v % 256
  toString major ++
    if patch != 0 then "." ++ toString minor ++ "." ++ toString patch
    else if minor != 0 then "." ++ toString minor
    else ""

def readPart? (s : List Char) : Option Nat :=
  let digits := match s with
    | '+' :: digits => digits
    | digits => digits
  if digits.isEmpty || !digits.all Char.isDigit then none
  else
    let n := Text.decimalNumber digits
    if n < 256 then some n else none

def read? (s : List Char) : Option Version :=
  match (Text.splitBy (· == '.') s).mapM readPart? with
  | some [major] => some (pack major 0 0)
  | some [major,minor] => some (pack major minor 0)
  | some [major,minor,patch] => some (pack major minor patch)
  | _ => none

end Version

/-- The lowest version of each browser that is to be supported; none if the browser is not. -/
structure Targets where
  version : Browser → Option Version

namespace Targets

def none : Targets :=
  ⟨fun _ => Option.none⟩

def set (targets : Targets) (browser : Browser) (version : Option Version) : Targets :=
  ⟨fun b => if b = browser then version else targets.version b⟩

def entries (targets : Targets) : List (Browser × Version) :=
  Browser.all.filterMap fun browser => (targets.version browser).map (browser, ·)

def isEmpty (targets : Targets) : Bool :=
  targets.entries.isEmpty

def lowerTo (targets : Targets) (browser : Browser) (version : Version) : Targets :=
  targets.set browser (match targets.version browser with
    | some v => some (min v version)
    | Option.none => some version)

end Targets

end Css
