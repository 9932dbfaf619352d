import Css.Source.Span

/-!
# Lines and columns

A line ends after a line feed, a form feed, or a carriage return with the line feed that may follow it.
-/
namespace Css

structure Location where
  line : Nat
  column : Nat
deriving DecidableEq

structure LineIndex where
  text : List Char
  starts : List Nat

namespace LineIndex

def startsAfter (offset : Nat) : List Char → List Nat
  | [] => []
  | '\r' :: '\n' :: s => (offset + 2) :: startsAfter (offset + 2) s
  | c :: s =>
    let next := offset + c.utf8Size
    if Text.isNewline c then next :: startsAfter next s else startsAfter next s

def ofSource (source : String) : LineIndex :=
  ⟨source.toList,0 :: startsAfter 0 source.toList⟩

def lineCount (index : LineIndex) : Nat :=
  index.starts.length

/-- Where a byte offset lies. An offset past the end counts as the end; the column of an offset
inside a character is the number of bytes since the line start. -/
def location (index : LineIndex) (offset : Nat) : Location :=
  let before := index.starts.takeWhile (· ≤ offset)
  let start := before.getLast?.getD 0
  let stop := min offset (Text.utf8Length index.text)
  let column :=
    match Text.sliceBytes? start stop index.text with
    | some s => Text.utf16Length s
    | none => stop - start
  ⟨before.length - 1,column⟩

end LineIndex

end Css
