import Css.Declaration.Basic
import Css.Modules.Composes
import Css.Rule.Recovery
import Css.Token.Group
import Css.Value.Parser

/-!
# Parsing declarations

The body of a block of declarations is first cut into items, and then each item is parsed.
-/
namespace Css.Declaration

open Token

/-! ## One declaration -/

/-- Splits the mark of importance off the end of a value. An exclamation mark outside of brackets may
stand nowhere else; else its span is the error. -/
def splitImportant (tokens : List Token) : Except Span (List Token × Bool) :=
  let isBang (t : Token) : Bool := t.isDelim '!'
  match splitBefore isBang 0 tokens with
  | (_, []) => .ok (tokens, false)
  | (before, bang :: after) =>
    match (splitBefore isBang 0 after).2 with
    | second :: _ => .error second.span
    | [] =>
      match trimBlank after with
      | [word] =>
        if word.isIdent "important" then .ok (trimBlank before, true) else .error bang.span
      | _ => .error bang.span

def afterColon? (rest : List Token) : Option (List Token) :=
  match dropBlank rest with
  | t :: value => if t.kind == .colon then some value else none
  | [] => none

def parse (d : Dialect) (name : Token) (rest : List Token) : Except Fault Declaration :=
  match if name.kind == .ident then afterColon? rest else none with
  | none => .error (.parse .invalidDeclaration name.span)
  | some tokens =>
    match splitImportant (trimBlank tokens) with
    | .error span => .error (.parse (.unexpectedToken "!") span)
    | .ok (tokens, important) =>
      let property := Property.ofName name.name
      if tokens.isEmpty && !property.isCustom then
        .error (.parse (.missingValue name.name) name.span)
      else
        match Value.parse d.file (d.modules && d.dashed) tokens with
        | .error fault => .error fault
        | .ok value => .ok ⟨property,value,important,d.location name⟩

inductive Entry where
  | declaration (d : Declaration)
  | composes (groups : List Composes)

def parseEntry (d : Dialect) (name : Token) (rest : List Token) : Except Fault Entry :=
  match parse d name rest with
  | .error fault => .error fault
  | .ok declaration =>
    if d.modules && declaration.property == .standard "composes" none then
      match Composes.read declaration.value declaration.location name.span with
      | .ok groups => .ok (.composes groups)
      | .error problem => .error ⟨.modules (.invalidComposes problem),name.span⟩
    else .ok (.declaration declaration)

/-! ## Blocks of declarations -/

def isEnd (t : Token) : Bool :=
  t.kind == .semicolon || t.kind == .rightBrace

def isPreludeEnd (t : Token) : Bool :=
  t.kind == .semicolon || t.kind == .rightBrace || t.kind == .leftBrace

inductive Item where
  | declaration (name : Token) (rest : List Token)
  | atRule (keyword : Token)

def dropAtRule (rest : List Token) : List Token :=
  match (splitBefore isPreludeEnd 0 rest).2 with
  | [] => []
  | t :: after => if t.kind == .leftBrace then dropGroup after else t :: after

theorem length_dropAtRule_le (rest : List Token) : (dropAtRule rest).length ≤ rest.length := by
  have h := length_splitBefore_le isPreludeEnd 0 rest
  unfold dropAtRule
  split
  · simp
  · rename_i t after heq
    rw [heq,List.length_cons] at h
    have := length_dropGroup_le after
    split
    · omega
    · simpa using h

def splitItems (tokens : List Token) : List Item × Option (List Token) :=
  match tokens with
  | [] => ([], none)
  | t :: rest =>
    match t.kind with
    | .whitespace | .semicolon => splitItems rest
    | .rightBrace => ([], some rest)
    | .atKeyword =>
      let (items, after) := splitItems (dropAtRule rest)
      (.atRule t :: items, after)
    | _ =>
      let parts := splitBefore isEnd (depthAfter 0 t.kind) rest
      let (items, after) := splitItems parts.2
      (.declaration t parts.1 :: items, after)
termination_by tokens.length
decreasing_by
  all_goals simp only [List.length_cons]
  · omega
  · have := length_dropAtRule_le rest
    omega
  · have := length_splitBefore_le isEnd (depthAfter 0 t.kind) rest
    omega

theorem length_splitItems {tokens after : List Token}
    (h : (splitItems tokens).2 = some after) : after.length < tokens.length := by
  fun_induction splitItems tokens with
  | case1 => simp at h
  | case2 t rest hk ih =>
    have := ih h
    simp only [List.length_cons]
    omega
  | case3 t rest hk ih =>
    have := ih h
    simp only [List.length_cons]
    omega
  | case4 =>
    simp at h
    simp [h]
  | case5 t rest hk items more heq ih =>
    rw [heq] at ih
    have := ih h
    have := length_dropAtRule_le rest
    simp only [List.length_cons]
    omega
  | case6 t rest parts items more heq _ _ _ _ ih =>
    rw [heq] at ih
    have := ih h
    have : parts.2.length ≤ rest.length := length_splitBefore_le _ _ rest
    simp only [List.length_cons]
    omega

def parseItem (d : Dialect) : Item → ParseM (List Declaration)
  | .atRule keyword => do
    d.recover (.parse (.notAllowed keyword.name) keyword.span)
    return []
  | .declaration name rest => do
    match ← d.attempt (parseEntry d name rest) with
    | some (.declaration declaration) => return [declaration]
    | _ => return []

def parseItems (d : Dialect) (items : List Item) : ParseM (List Declaration) := do
  return (← items.mapM (parseItem d)).flatten

def parseBlock (d : Dialect) (opening : Token) (tokens : List Token) :
    ParseM (List Declaration × List Token) := do
  let (items, after) := splitItems tokens
  let declarations ← parseItems d items
  match after with
  | some after => return (declarations, after)
  | none => throw (.parse .unclosedBlock opening.span)

end Css.Declaration
