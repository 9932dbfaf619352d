import Css.Media.Render
import Css.Rule.Compact
import Css.Selector.Render

/-!
# Printing rules

Rules become pieces of text with marks for the source map: one for each rule, keyframe and declaration,
two for a nested rule that names the enclosing one.
-/
namespace Css

open Piece

/-- Declarations, each on a line of its own. Only minified code leaves out the last semicolon, if
nothing follows. -/
def Declaration.pieces (minify moreFollows : Bool) : List Declaration → List Piece
  | [] => []
  | d :: rest =>
    [line,mark d.location,text (d.render minify)] ++
      (if minify && rest.isEmpty && !moreFollows then [] else [text ";"]) ++
      pieces minify moreFollows rest

def Declaration.bodyPieces (minify moreFollows : Bool) (declarations : List Declaration) :
    List Piece :=
  pieces minify moreFollows (if minify then Declaration.minify declarations else declarations)

def Declaration.blockPieces (minify : Bool) (declarations : List Declaration) : List Piece :=
  [space,text "\x7b",indent] ++ bodyPieces minify false declarations ++
    [dedent,line,text "\x7d"]

def KeyframeSelector.render (minify : Bool) : KeyframeSelector → String
  | start => if minify then "0%" else "from"
  | finish => "to"
  | percentage x => if minify && x == 100 then "to" else Number.format minify x ++ "%"

def Keyframe.pieces (minify : Bool) (frame : Keyframe) : List Piece :=
  let comma := if minify then "," else ", "
  [mark frame.location,
    text (comma.intercalate (frame.selectors.map (KeyframeSelector.render minify)))] ++
    Declaration.blockPieces minify frame.declarations

def Keyframe.listPieces (minify : Bool) : List Keyframe → List Piece
  | [] => []
  | [frame] => frame.pieces minify
  | frame :: frames => frame.pieces minify ++ blankLine :: listPieces minify frames

namespace Statement

def importText (minify : Bool) (layer : Option (Option String)) (supports : Option Value)
    (media : MediaList) : String :=
  (match layer with
    | some (some name) => " layer(" ++ name ++ ")"
    | some none => " layer"
    | none => "") ++
  (match supports with
    | some condition => " supports(" ++ condition.render minify ++ ")"
    | none => "") ++
  (if media.isEmpty then "" else " " ++ media.render minify)

def pieces (minify : Bool) : Statement → List Piece
  | keyframes name quoted vendor frames =>
    let name := if quoted then Written.string name else Written.identifier name
    [text ("@" ++ Vendor.textOf vendor ++ "keyframes " ++ name),space,text "\x7b"] ++
      (if frames.isEmpty then []
        else [indent,line] ++ Keyframe.listPieces minify frames ++ [dedent]) ++
      [line,text "\x7d"]
  | property name declarations =>
    text ("@property " ++ Written.identifier name) :: Declaration.blockPieces minify declarations
  | fontFace declarations => text "@font-face" :: Declaration.blockPieces minify declarations
  | page selectors declarations =>
    text ("@page" ++ if selectors.isEmpty then "" else " " ++ selectors) ::
      Declaration.blockPieces minify declarations
  | importSheet url layer supports media =>
    [text ("@import " ++ Written.string url ++ importText minify layer supports media ++ ";")]
  | namespaceOf name url =>
    let name :=
      match name with
      | some name => Written.identifier name ++ " "
      | none => ""
    [text ("@namespace " ++ name ++ Written.string url ++ ";")]
  | layers names => [text ("@layer " ++ (if minify then "," else ", ").intercalate names ++ ";")]
  | customMedia name media =>
    [text ("@custom-media " ++ Written.identifier name ++ " " ++ media.render minify ++ ";")]
  | unknown name prelude block =>
    let head :=
      "@" ++ Written.identifier name ++ if prelude.isEmpty then "" else " " ++ prelude.render minify
    match block with
    | some contents =>
      [text head,space,text ("\x7b" ++ contents.render minify ++ "\x7d")]
    | none => [text (head ++ ";")]

end Statement

def Group.render (minify : Bool) : Group → String
  | media query => "@media" ++ if query.isEmpty then "" else " " ++ query.render minify
  | supports condition => "@supports " ++ condition.render minify
  | layer name =>
    "@layer" ++ match name with
      | some name => " " ++ name
      | none => ""

namespace Rule

def pieces (options : PrintOptions) : Rule → List Piece
  | style block rules => stylePieces options block (listPieces options rules)
  | nest block rules =>
    mark block.location :: stylePieces options block (listPieces options rules)
  | group g rules location =>
    [mark location,text (g.render options.minify),space,text "\x7b"] ++
      (match listPieces options rules with
        | [] => []
        | inner => [indent,line] ++ inner ++ [dedent]) ++
      [line,text "\x7d"]
  | statement s location => mark location :: s.pieces options.minify
where
  stylePieces (options : PrintOptions) (block : StyleBlock) (nested : List Piece) : List Piece :=
    [mark block.location,text (Selector.renderAll options block.selectors),space,text "\x7b",
      indent] ++
      Declaration.bodyPieces options.minify (!nested.isEmpty) block.declarations ++
      (if nested.isEmpty then []
        else (if block.declarations.isEmpty then line else blankLine) :: nested) ++
      [dedent,line,text "\x7d"]
  listPieces (options : PrintOptions) : List Rule → List Piece
    | [] => []
    | [r] => r.pieces options
    | r :: rs => r.pieces options ++ blankLine :: listPieces options rs

def printed (options : PrintOptions) (rules : List Rule) : List Piece :=
  pieces.listPieces options (if options.minify then compactList rules else rules)

def render (options : PrintOptions) (rules : List Rule) : String :=
  let start : Writer := { minify := options.minify, mapped := false }
  (start.putAll (printed options rules)).code

end Rule

end Css
