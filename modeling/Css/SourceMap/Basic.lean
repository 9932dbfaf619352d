import Css.SourceMap.Vlq

/-!
# Source maps

A source map records, for positions in generated text, the position in a source they come from.
-/
namespace Css

structure Origin where
  source : Nat
  line : Nat
  column : Nat
  name : Option Nat
deriving DecidableEq

structure Mapping where
  line : Nat
  column : Nat
  origin : Option Origin
deriving DecidableEq

structure SourceMap where
  sources : List String := []
  contents : List (Option String) := []
  names : List String := []
  mappings : List Mapping := []

namespace SourceMap

def intern (names : List String) (name : String) : List String × Nat :=
  match names.idxOf? name with
  | some i => (names, i)
  | none => (names ++ [name], names.length)

def addSource (map : SourceMap) (name : String) : SourceMap × Nat :=
  match map.sources.idxOf? name with
  | some i => (map, i)
  | none =>
    ({ map with sources := map.sources ++ [name], contents := map.contents ++ [none] },
      map.sources.length)

def addName (map : SourceMap) (name : String) : SourceMap × Nat :=
  let (names, i) := intern map.names name
  ({ map with names }, i)

def setContent (map : SourceMap) (i : Nat) (text : String) : SourceMap :=
  { map with contents := map.contents.set i (some text) }

def addMapping (map : SourceMap) (m : Mapping) : SourceMap :=
  { map with mappings := map.mappings ++ [m] }

/-- Mappings in the order of the generated text, those of one position as they were recorded. -/
def sorted (mappings : List Mapping) : List Mapping :=
  mappings.mergeSort fun a b => a.line < b.line || (a.line == b.line && a.column ≤ b.column)

structure Cursor where
  line : Nat := 0
  column : Int := 0
  source : Int := 0
  originLine : Int := 0
  originColumn : Int := 0
  name : Int := 0
  started : Bool := false

def segment (cursor : Cursor) (m : Mapping) : List Int :=
  (m.column - cursor.column) ::
    match m.origin with
    | none => []
    | some o =>
      [o.source - cursor.source,o.line - cursor.originLine,o.column - cursor.originColumn] ++
        match o.name with
        | none => []
        | some n => [n - cursor.name]

def advance (cursor : Cursor) (m : Mapping) : Cursor :=
  let cursor := { cursor with column := m.column, started := true }
  match m.origin with
  | none => cursor
  | some o =>
    { cursor with
      source := o.source
      originLine := o.line
      originColumn := o.column
      name := match o.name with
        | none => cursor.name
        | some n => n }

/-- Segments of a sorted list of mappings: a semicolon ends a line and resets the column, a comma
divides the segments of a line. -/
def encodeFrom (cursor : Cursor) : List Mapping → List Char
  | [] => []
  | m :: rest =>
    let lines := m.line - cursor.line
    let cursor :=
      if lines = 0 then cursor else { cursor with line := m.line, column := 0, started := false }
    List.replicate lines ';' ++ (if cursor.started then [','] else []) ++
      (segment cursor m).flatMap Vlq.encode ++ encodeFrom (advance cursor m) rest

def mappingsText (map : SourceMap) : String :=
  String.ofList (encodeFrom {} (sorted map.mappings))

end SourceMap

end Css
