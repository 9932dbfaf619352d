import Css.Source.Location
import Css.SourceMap.Basic

/-!
# Writing code

What is printed is a list of pieces: text, optional blanks and line ends, changes of the indentation,
and marks that tie the next text to a place in the source.
-/
namespace Css

inductive Piece where
  | text (s : String)
  | space
  | line
  | blankLine
  | indent
  | dedent
  | mark (location : Location)

structure Writer where
  minify : Bool
  mapped : Bool
  source : Nat := 0
  code : String := ""
  line : Nat := 0
  column : Nat := 0
  indentation : Nat := 0
  mappings : List Mapping := []

namespace Writer

def advance (position : Nat × Nat) (c : Char) : Nat × Nat :=
  if c == '\n' then (position.1 + 1, 0) else (position.1, position.2 + Text.utf16Size c)

def putText (w : Writer) (s : String) : Writer :=
  let (line, column) := s.toList.foldl advance (w.line, w.column)
  { w with code := w.code ++ s, line, column }

def putLine (w : Writer) : Writer :=
  if w.minify then w
  else w.putText (String.ofList ('\n' :: List.replicate w.indentation ' '))

def put (w : Writer) : Piece → Writer
  | .text s => w.putText s
  | .space => if w.minify then w else w.putText " "
  | .line => w.putLine
  | .blankLine => if w.minify then w else (w.putText "\n").putLine
  | .indent => { w with indentation := w.indentation + 2 }
  | .dedent => { w with indentation := w.indentation - 2 }
  | .mark location =>
    if w.mapped then
      let origin := ⟨w.source,location.line,location.column,none⟩
      { w with mappings := w.mappings ++ [⟨w.line,w.column,some origin⟩] }
    else w

def putAll (w : Writer) (pieces : List Piece) : Writer :=
  pieces.foldl put w

end Writer

namespace Piece

def delimiter (c : Char) : List Piece :=
  [.text (String.singleton c),.space]

def spacedDelimiter (c : Char) : List Piece :=
  .space :: delimiter c

end Piece

end Css
