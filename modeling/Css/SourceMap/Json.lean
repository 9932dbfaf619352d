import Css.Text.Basic
import Css.SourceMap.Basic

/-!
# Source maps as JSON

The compact text of a version 3 map, its keys in the customary order.
-/
namespace Css.SourceMap

/-- A character inside a JSON string. Control characters, quotes and backslashes are escaped. -/
def jsonChar (c : Char) : List Char :=
  if c == '\x22' then ['\\','\x22']
  else if c == '\\' then ['\\','\\']
  else if c == '\x08' then ['\\','b']
  else if c == '\x0c' then ['\\','f']
  else if c == '\n' then ['\\','n']
  else if c == '\r' then ['\\','r']
  else if c == '\t' then ['\\','t']
  else if c.toNat < 0x20 then
    "\\u00".toList ++ [Nat.digitChar (c.toNat / 16),Nat.digitChar (c.toNat % 16)]
  else [c]

def jsonString (s : String) : String :=
  String.ofList ('\x22' :: s.toList.flatMap jsonChar ++ ['\x22'])

def jsonList (items : List String) : String :=
  "[" ++ String.intercalate "," items ++ "]"

def jsonObject (fields : List (String × String)) : String :=
  "\x7b" ++ String.intercalate "," (fields.map fun field => jsonString field.1 ++ ":" ++ field.2) ++
    "\x7d"

def toJson (map : SourceMap) : String :=
  jsonObject
    [("version", "3"),
     ("sources", jsonList (map.sources.map jsonString)),
     ("sourcesContent", jsonList (map.contents.map fun
        | some text => jsonString text
        | none => "null")),
     ("names", jsonList (map.names.map jsonString)),
     ("mappings", jsonString map.mappingsText)]

end Css.SourceMap
