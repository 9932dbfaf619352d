import Css.Declaration.Property
import Css.Target.Browser

/-!
# Support tables

For each feature the first version of each browser that supports it; a browser that is not listed does
not.
-/
namespace Css

inductive Feature where
  | nesting | labColors | oklabColors | hexAlphaColors | insetShorthand | mediaRanges
deriving DecidableEq

namespace Feature

open Browser

def all : List Feature :=
  [nesting,labColors,oklabColors,hexAlphaColors,insetShorthand,mediaRanges]

def support : Feature → List (Browser × Version)
  | nesting =>
    [(android, .pack 112 0 0),(chrome, .pack 112 0 0),(edge, .pack 112 0 0),
     (firefox, .pack 117 0 0),(iosSafari, .pack 16 5 0),(opera, .pack 98 0 0),
     (safari, .pack 16 5 0),(samsung, .pack 23 0 0)]
  | labColors =>
    [(android, .pack 111 0 0),(chrome, .pack 111 0 0),(edge, .pack 111 0 0),
     (firefox, .pack 113 0 0),(iosSafari, .pack 15 0 0),(opera, .pack 97 0 0),
     (safari, .pack 15 0 0),(samsung, .pack 22 0 0)]
  | oklabColors =>
    [(android, .pack 111 0 0),(chrome, .pack 111 0 0),(edge, .pack 111 0 0),
     (firefox, .pack 113 0 0),(iosSafari, .pack 15 4 0),(opera, .pack 97 0 0),
     (safari, .pack 15 4 0),(samsung, .pack 22 0 0)]
  | hexAlphaColors =>
    [(android, .pack 62 0 0),(chrome, .pack 62 0 0),(edge, .pack 79 0 0),
     (firefox, .pack 49 0 0),(iosSafari, .pack 9 3 0),(opera, .pack 49 0 0),
     (safari, .pack 10 0 0),(samsung, .pack 8 0 0)]
  | insetShorthand =>
    [(android, .pack 87 0 0),(chrome, .pack 87 0 0),(edge, .pack 87 0 0),
     (firefox, .pack 66 0 0),(iosSafari, .pack 14 5 0),(opera, .pack 73 0 0),
     (safari, .pack 14 1 0),(samsung, .pack 14 0 0)]
  | mediaRanges =>
    [(android, .pack 104 0 0),(chrome, .pack 104 0 0),(edge, .pack 104 0 0),
     (firefox, .pack 63 0 0),(iosSafari, .pack 16 4 0),(opera, .pack 91 0 0),
     (safari, .pack 16 4 0),(samsung, .pack 20 0 0)]

def isCompatible (feature : Feature) (targets : Targets) : Bool :=
  targets.entries.all fun (browser, version) =>
    match feature.support.lookup browser with
    | some first => first ≤ version
    | none => false

end Feature

inductive Prefixable where
  | userSelect | appearance | backdropFilter | textSizeAdjust | maskImage | hyphens
  | boxDecorationBreak | sticky | keyframes
deriving DecidableEq

namespace Prefixable

open Browser Vendor

def all : List Prefixable :=
  [userSelect,appearance,backdropFilter,textSizeAdjust,maskImage,hyphens,boxDecorationBreak,
   sticky,keyframes]

structure Row where
  browser : Browser
  vendor : Vendor
  below : Option Version

def rows : Prefixable → List Row
  | userSelect =>
    [⟨android,webkit,some (.pack 54 0 0)⟩,⟨chrome,webkit,some (.pack 54 0 0)⟩,
     ⟨edge,ms,some (.pack 79 0 0)⟩,⟨firefox,moz,some (.pack 69 0 0)⟩,⟨ie,ms,none⟩,
     ⟨iosSafari,webkit,none⟩,⟨opera,webkit,some (.pack 41 0 0)⟩,⟨safari,webkit,none⟩,
     ⟨samsung,webkit,some (.pack 6 2 0)⟩]
  | appearance =>
    [⟨android,webkit,some (.pack 84 0 0)⟩,⟨chrome,webkit,some (.pack 84 0 0)⟩,
     ⟨edge,webkit,some (.pack 84 0 0)⟩,⟨firefox,moz,some (.pack 80 0 0)⟩,
     ⟨iosSafari,webkit,some (.pack 15 4 0)⟩,⟨opera,webkit,some (.pack 70 0 0)⟩,
     ⟨safari,webkit,some (.pack 15 4 0)⟩,⟨samsung,webkit,some (.pack 14 0 0)⟩]
  | backdropFilter =>
    [⟨iosSafari,webkit,some (.pack 18 0 0)⟩,⟨safari,webkit,some (.pack 18 0 0)⟩]
  | textSizeAdjust =>
    [⟨edge,ms,some (.pack 79 0 0)⟩,⟨firefox,moz,none⟩,⟨iosSafari,webkit,none⟩]
  | maskImage =>
    [⟨android,webkit,some (.pack 120 0 0)⟩,⟨chrome,webkit,some (.pack 120 0 0)⟩,
     ⟨edge,webkit,some (.pack 120 0 0)⟩,⟨iosSafari,webkit,some (.pack 15 4 0)⟩,
     ⟨opera,webkit,some (.pack 106 0 0)⟩,⟨safari,webkit,some (.pack 15 4 0)⟩,
     ⟨samsung,webkit,some (.pack 25 0 0)⟩]
  | hyphens =>
    [⟨edge,ms,some (.pack 79 0 0)⟩,⟨firefox,moz,some (.pack 43 0 0)⟩,⟨ie,ms,none⟩,
     ⟨iosSafari,webkit,some (.pack 17 0 0)⟩,⟨safari,webkit,some (.pack 17 0 0)⟩]
  | boxDecorationBreak =>
    [⟨android,webkit,some (.pack 130 0 0)⟩,⟨chrome,webkit,some (.pack 130 0 0)⟩,
     ⟨edge,webkit,some (.pack 130 0 0)⟩,⟨iosSafari,webkit,none⟩,
     ⟨opera,webkit,some (.pack 116 0 0)⟩,⟨safari,webkit,none⟩,⟨samsung,webkit,none⟩]
  | sticky =>
    [⟨iosSafari,webkit,some (.pack 13 0 0)⟩,⟨safari,webkit,some (.pack 13 0 0)⟩]
  | keyframes =>
    [⟨android,webkit,some (.pack 4 4 0)⟩,⟨chrome,webkit,some (.pack 43 0 0)⟩,
     ⟨firefox,moz,some (.pack 16 0 0)⟩,⟨iosSafari,webkit,some (.pack 9 0 0)⟩,
     ⟨opera,webkit,some (.pack 30 0 0)⟩,⟨safari,webkit,some (.pack 9 0 0)⟩]

def ofProperty? (name : String) : Option Prefixable :=
  if name == "user-select" then some userSelect
  else if name == "appearance" then some appearance
  else if name == "backdrop-filter" then some backdropFilter
  else if name == "text-size-adjust" then some textSizeAdjust
  else if name == "mask-image" then some maskImage
  else if name == "hyphens" then some hyphens
  else if name == "box-decoration-break" then some boxDecorationBreak
  else none

def Row.isNeeded (row : Row) (targets : Targets) : Bool :=
  match targets.version row.browser, row.below with
  | none, _ => false
  | some _, none => true
  | some version, some unprefixed => version < unprefixed

def vendorsFor (thing : Prefixable) (targets : Targets) : List Vendor :=
  Vendor.all.filter fun vendor =>
    thing.rows.any fun row => row.vendor == vendor && row.isNeeded targets

end Prefixable

end Css
