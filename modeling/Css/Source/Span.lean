import Css.Text.Basic

/-!
# Spans

A span is a range of byte offsets into a source text.
-/
namespace Css

structure Span where
  start : Nat
  stop : Nat
deriving DecidableEq

namespace Span

/-- The empty span at the start of the source, for faults that no text can be blamed for. -/
def none : Span := ⟨0,0⟩

def emptyAt (offset : Nat) : Span := ⟨offset,offset⟩

def join (a b : Span) : Span :=
  ⟨min a.start b.start,max a.stop b.stop⟩

def length (s : Span) : Nat :=
  s.stop - s.start

def isEmpty (s : Span) : Bool :=
  s.start == s.stop

def slice? (s : Span) (source : String) : Option String :=
  (Text.sliceBytes? s.start s.stop source.toList).map String.ofList

end Span

end Css
