import Css.Declaration.Basic

/-!
# Fewer declarations

Declarations that later ones override are dropped, the longhands of the four sides of a box become a
shorthand, and a shorthand gets the fewest sides that say the same.
-/
namespace Css

def Value.wideUnits : List String :=
  ["px","em","ex","pt","pc","in","cm","mm","deg","s","ms"]

def Value.wideKeywords : List String :=
  ["inherit","auto","none","normal","transparent","black","silver","gray","white","maroon",
   "red","purple","fuchsia","green","lime","olive","yellow","navy","blue","teal","aqua",
   "orange","block","inline","bold","italic","hidden","visible","solid","dashed","dotted",
   "left","right","center","top","bottom","absolute","relative","fixed","static"]

def Component.isUniversal : Component → Bool
  | number _ | percentage _ | string _ | whitespace | comma => true
  | delim c => c == '/'
  | dimension _ unit => Value.wideUnits.contains (Text.lower unit)
  | color (.rgba c) => c.isSolid
  | ident name => Value.wideKeywords.contains (Text.lower name)
  | _ => false

def Value.isUniversal (value : Value) : Bool :=
  value.all Component.isUniversal

namespace Declaration

/-- Whether a declaration makes an earlier one pointless: no browser ignores it, and it is not less
important. -/
def overrides (later earlier : Declaration) : Bool :=
  later.property == earlier.property && (later.important || !earlier.important) &&
    (later.property.isCustom || later.value.isUniversal)

def dropOverridden : List Declaration → List Declaration
  | [] => []
  | d :: rest =>
    if rest.any (·.overrides d) then dropOverridden rest else d :: dropOverridden rest

def sides : List String :=
  ["top","right","bottom","left"]

def isSide (box side : String) (d : Declaration) : Bool :=
  d.property == .standard (box ++ "-" ++ side) none

def isAnySide (box : String) (d : Declaration) : Bool :=
  sides.any fun side => d.isSide box side

def onlySide? (box : String) (declarations : List Declaration) (side : String) :
    Option Declaration :=
  match declarations.filter (isSide box side) with
  | [d] => some d
  | _ => none

def isPlainSide (important : Bool) (d : Declaration) : Bool :=
  d.important == important && !d.value.hasVariable &&
    match d.value.parts? with
    | some [_] => true
    | _ => false

/-- What stands before, what from the first to the last declaration for a side, and what after. -/
def splitSides (box : String) (declarations : List Declaration) :
    List Declaration × List Declaration × List Declaration :=
  let other (d : Declaration) : Bool := !d.isAnySide box
  let rest := (declarations.dropWhile other).reverse
  (declarations.takeWhile other, (rest.dropWhile other).reverse, (rest.takeWhile other).reverse)

/-- Replaces the declarations for the four sides by one for the box, in the place of the last of
them, unless something between them is about the box as well. -/
def collapseSides (box : String) (declarations : List Declaration) : List Declaration :=
  match sides.mapM (onlySide? box declarations), splitSides box declarations with
  | some (top :: more), (before, first :: stretch, after) =>
    let others := (first :: stretch).filter fun d => !d.isAnySide box
    if (top :: more).all (isPlainSide top.important) &&
        !others.any fun d => Text.startsWith d.property.name box then
      let value := Value.ofParts ((top :: more).map Declaration.value)
      before ++ others ++ ⟨.standard box none,value,top.important,first.location⟩ :: after
    else declarations
  | _, _ => declarations

def fourSides? : List Value → Option (Value × Value × Value × Value)
  | [all] => some (all, all, all, all)
  | [vertical,horizontal] => some (vertical, horizontal, vertical, horizontal)
  | [top,horizontal,bottom] => some (top, horizontal, bottom, horizontal)
  | [top,right,bottom,left] => some (top, right, bottom, left)
  | _ => none

def fewestParts (top right bottom left : Value) : List Value :=
  if !left.same right then [top,right,bottom,left]
  else if !bottom.same top then [top,right,bottom]
  else if !right.same top then [top,right]
  else [top]

def boxes : List Property :=
  [.standard "margin" none,.standard "padding" none,.standard "inset" none]

def shortenBox (d : Declaration) : Declaration :=
  if boxes.contains d.property && !d.value.hasVariable then
    match d.value.parts? with
    | none => d
    | some parts =>
      match fourSides? parts with
      | none => d
      | some (top, right, bottom, left) =>
        let fewest := fewestParts top right bottom left
        if fewest.length < parts.length then { d with value := Value.ofParts fewest } else d
  else d

def minify (declarations : List Declaration) : List Declaration :=
  let collapsed := collapseSides "padding" (collapseSides "margin" (dropOverridden declarations))
  (dropOverridden collapsed).map shortenBox

end Declaration

end Css
