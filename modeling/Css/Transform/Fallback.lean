import Css.Declaration.Basic

/-!
# Fallbacks for older browsers

A declaration that a targeted browser may not understand gets declarations in front of it that it does.
-/
namespace Css.Declaration

def prefixedCopies (targets : Targets) (block : List Declaration) (d : Declaration) :
    List Declaration :=
  match Prefixable.ofProperty? d.property.name with
  | none => []
  | some thing =>
    let isWritten (vendor : Vendor) : Bool := block.any fun other =>
      other.property.name == d.property.name && other.property.vendor == some vendor
    ((thing.vendorsFor targets).filter fun vendor => !isWritten vendor).map fun vendor =>
      { d with property := d.property.withVendor (some vendor) }

def isKeyword (keyword : String) (d : Declaration) : Bool :=
  match d.value with
  | [c] => c.isKeyword keyword
  | _ => false

/-- A sticky position under the prefix that is needed, unless it is written in the block. -/
def stickyFallback (targets : Targets) (block : List Declaration) (d : Declaration) :
    List Declaration :=
  let isWritten := block.any fun other =>
    other.property.name == "position" && other.isKeyword "-webkit-sticky"
  if d.property.name == "position" && d.isKeyword "sticky" &&
      (Prefixable.sticky.vendorsFor targets).contains .webkit && !isWritten then
    [{ d with value := [.ident "-webkit-sticky"] }]
  else []

def insetSides? (targets : Targets) (d : Declaration) : Option (List Declaration) :=
  if d.property.name == "inset" && !Feature.insetShorthand.isCompatible targets &&
      !d.value.hasVariable then
    let longhand (side : String) (value : Value) : Declaration :=
      { d with property := .standard side none, value }
    let four (top right bottom left : Value) : List Declaration :=
      [longhand "top" top,longhand "right" right,longhand "bottom" bottom,longhand "left" left]
    match d.value.parts? with
    | some [all] => some (four all all all all)
    | some [vertical,horizontal] => some (four vertical horizontal vertical horizontal)
    | some [top,horizontal,bottom] => some (four top horizontal bottom horizontal)
    | some [top,right,bottom,left] => some (four top right bottom left)
    | _ => none
  else none

/-- A colour with an alpha, written as a function where hashes with an alpha are not supported. -/
def lowerAlpha (targets : Targets) (value : Value) : Value :=
  if Feature.hexAlphaColors.isCompatible targets then value
  else
    value.mapLeaves fun
      | .color (.rgba c) => .color (if c.isSolid then .rgba c else .legacyRgba c)
      | c => c

def isUnsupportedColor (targets : Targets) : Component → Bool
  | .color c =>
    c.isPerceptual && c.feature?.any fun feature => !feature.isCompatible targets
  | _ => false

def srgbValue (targets : Targets) (value : Value) : Value :=
  let hasHashAlpha := Feature.hexAlphaColors.isCompatible targets
  value.mapLeaves fun
    | .color c =>
      if c.isPerceptual then
        .color (if c.toRgba.isSolid || hasHashAlpha then .rgba c.toRgba else .legacyRgba c.toRgba)
      else .color c
    | c => c

/-- A copy with sRGB colours where perceptual ones are not supported, unless the property was declared
before. -/
def colorFallback (targets : Targets) (earlier : List Declaration) (d : Declaration) :
    List Declaration :=
  if d.value.anywhere (isUnsupportedColor targets) &&
      !earlier.any fun other => other.property == d.property then
    [{ d with value := srgbValue targets d.value }]
  else []

def withFallbacks (targets : Targets) (block earlier : List Declaration) (d : Declaration) :
    List Declaration :=
  let lowered := { d with value := lowerAlpha targets d.value }
  match d.property with
  | .custom _ => [d]
  | .standard _ (some _) => colorFallback targets earlier lowered ++ [lowered]
  | .standard _ none =>
    prefixedCopies targets block d ++ stickyFallback targets block d ++
      match insetSides? targets d with
      | some longhands => longhands
      | none => colorFallback targets earlier lowered ++ [lowered]

def addFallbacksFrom (targets : Targets) (block earlier : List Declaration) :
    List Declaration → List Declaration
  | [] => []
  | d :: rest =>
    withFallbacks targets block earlier d ++ addFallbacksFrom targets block (d :: earlier) rest

def addFallbacks (targets : Targets) (block : List Declaration) : List Declaration :=
  addFallbacksFrom targets block [] block

end Css.Declaration
