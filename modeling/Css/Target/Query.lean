import Css.Error.Basic
import Css.Target.Browser

/-!
# Target queries

A query lists browsers with their lowest versions, as in `chrome 90, safari >= 13.1`.
-/
namespace Css.Targets

open Text

def dropComparison : List (List Char) → List (List Char)
  | [] => []
  | word :: words =>
    if word = ['>','='] then words
    else
      match word with
      | '>' :: '=' :: rest => rest :: words
      | _ => word :: words

def readEntry (entry : List Char) : Except TargetCause (Browser × Version) :=
  match words entry with
  | [] => .error .emptyEntry
  | word :: rest =>
    let name := String.ofList word
    match Browser.ofName? name with
    | Option.none => .error (.unknownBrowser name)
    | some browser =>
      match dropComparison rest with
      | [] => .error (.missingVersion name)
      | _ :: extra :: _ => .error (.unexpectedWord (String.ofList extra)
          (String.ofList (trimBy isBlank entry)))
      | [text] =>
        match Version.read? text with
        | some version => .ok (browser, version)
        | Option.none => .error (.invalidVersion (String.ofList text) name)

def readEntries (targets : Targets) : List (List Char) → Except TargetCause Targets
  | [] => .ok targets
  | entry :: entries =>
    match readEntry entry with
    | .error cause => .error cause
    | .ok (browser, version) => readEntries (targets.lowerTo browser version) entries

def ofQuery (query : String) : Except Error Targets :=
  match readEntries none (splitBy (· == ',') query.toList) with
  | .ok targets => .ok targets
  | .error cause => .error ⟨.target cause,Option.none⟩

end Css.Targets
