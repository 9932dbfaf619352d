import Css.Media.Basic
import Css.Token.Group
import Css.Value.Parser

/-!
# Parsing media queries

White space is skipped between the words and parentheses of a query and kept within values.
-/
namespace Css.Media

open Token

abbrev Nested := List Token → Except Fault MediaCondition

def faultAt (last : Span) (rest : List Token) : Fault :=
  .parse .invalidMediaQuery (((dropBlank rest).head?.map Token.span).getD last)

def lastSpan (tokens : List Token) : Span :=
  (tokens.getLast?.map Token.span).getD .none

def keyword? (tokens : List Token) : Option (String × List Token) :=
  match dropBlank tokens with
  | t :: rest => if t.kind == .ident then some (t.keyword, rest) else none
  | [] => none

/-! ## Features -/

def comparison? (t : Token) (orEqual : Bool) : Option Comparison :=
  match t.delim? with
  | some '<' => some (if orEqual then .lessEqual else .less)
  | some '>' => some (if orEqual then .greaterEqual else .greater)
  | some '=' => some .equal
  | _ => none

/-- The tokens before the first sign of comparison, and each sign with the tokens after it. -/
def splitComparisons : List Token → List Token × List (Comparison × List Token)
  | [] => ([], [])
  | [t] =>
    match comparison? t false with
    | some c => ([], [(c, [])])
    | none => ([t], [])
  | t :: u :: rest =>
    match comparison? t (u.isDelim '=') with
    | none =>
      let (before, more) := splitComparisons (u :: rest)
      (t :: before, more)
    | some c =>
      let (after, more) :=
        if u.isDelim '=' && !t.isDelim '=' then splitComparisons rest
        else splitComparisons (u :: rest)
      ([], (c, after) :: more)

def featureName? : List Token → Option String
  | [t] => if t.kind == .ident then some t.keyword else none
  | _ => none

def rangeFeature? (file : SourceFile) (fault : Fault) (tokens : List Token) :
    Except Fault (Option MediaFeature) :=
  let (first, more) := splitComparisons tokens
  let first := trimBlank first
  let more := more.map fun (c, part) => (c, trimBlank part)
  if first.isEmpty || more.any (fun (_, part) => part.isEmpty) then .ok none
  else
    match more with
    | [(c, second)] =>
      match featureName? first, featureName? second with
      | some name, _ => do return some (.range name c (← Value.parse file false second))
      | none, some name => do return some (.range name c.flip (← Value.parse file false first))
      | none, none => .error fault
    | [(c, second),(d, third)] =>
      match featureName? second with
      | none => .error fault
      | some name =>
        if c.isAscending != d.isAscending || c == .equal || d == .equal then .error fault
        else do
          let start ← Value.parse file false first
          return some (.interval start c name d (← Value.parse file false third))
    | _ => .ok none

def feature? (file : SourceFile) (fault : Fault) (inner : List Token) :
    Except Fault (Option MediaFeature) :=
  let tokens := trimBlank inner
  match tokens with
  | [] => .ok none
  | t :: rest =>
    if t.kind == .ident then
      match dropBlank rest with
      | [] =>
        let isCustom := Text.startsWith t.name "--"
        .ok (some (.boolean (if isCustom then t.name else t.keyword)))
      | u :: after =>
        if u.kind == .colon then
          let value := trimBlank after
          if value.isEmpty then .error fault
          else do return some (.plain t.keyword (← Value.parse file false value))
        else rangeFeature? file fault tokens
    else rangeFeature? file fault tokens

/-! ## Conditions -/

def startsCondition (inner : List Token) : Bool :=
  (dropBlank inner).head?.any fun t => t.kind == .leftParen || t.isIdent "not"

def inParens (file : SourceFile) (nested : Nested) (last : Span) (tokens : List Token) :
    Except Fault (MediaCondition × List Token) :=
  match dropBlank tokens with
  | [] => .error (faultAt last [])
  | t :: rest =>
    if t.kind == .leftParen || t.kind == .function then
      match splitParens 1 rest with
      | none => .error (faultAt last (t :: rest))
      | some (inner, after) =>
        let unknown := MediaCondition.unknown (plainText ((t :: rest).take (inner.length + 2)))
        if t.kind == .function then .ok (unknown, after)
        else if startsCondition inner then
          match nested inner with
          | .error fault => .error fault
          | .ok c => .ok (c, after)
        else
          match feature? file (faultAt last after) inner with
          | .error fault => .error fault
          | .ok (some f) => .ok (.feature f, after)
          | .ok none => .ok (unknown, after)
    else .error (faultAt last (t :: rest))

theorem length_inParens {file : SourceFile} {nested : Nested} {last : Span}
    {tokens rest : List Token} {c : MediaCondition}
    (h : inParens file nested last tokens = .ok (c, rest)) : rest.length < tokens.length := by
  have hd := length_dropBlank_le tokens
  unfold inParens at h
  split at h
  · simp at h
  · rename_i heq
    rw [heq,List.length_cons] at hd
    split at h
    · split at h
      · simp at h
      · obtain ⟨u,-,hu⟩ := eq_of_splitParens ‹_›
        have := congrArg List.length hu
        simp only [List.length_append,List.length_cons] at this
        repeat' split at h
        all_goals simp at h
        all_goals rw [← h.2]
        all_goals omega
    · simp at h

theorem length_keyword? {tokens rest : List Token} {word : String}
    (h : keyword? tokens = some (word, rest)) : rest.length < tokens.length := by
  have hd := length_dropBlank_le tokens
  unfold keyword? at h
  split at h
  · rename_i heq
    rw [heq,List.length_cons] at hd
    split at h
    · obtain ⟨_,rfl⟩ := Prod.mk.inj (Option.some.inj h)
      omega
    · simp at h
  · simp at h

def connective? (allowOr : Bool) (word : String) : Option Connective :=
  if word == "and" then some .and
  else if word == "or" && allowOr then some .or
  else none

def operands (file : SourceFile) (nested : Nested) (last : Span) (allowOr : Bool)
    (connective : Option Connective) (tokens : List Token) :
    Except Fault (Option Connective × List MediaCondition × List Token) :=
  match hk : keyword? tokens with
  | none => .ok (connective, [], tokens)
  | some (word, rest) =>
    match connective? allowOr word with
    | none => .error (faultAt last tokens)
    | some next =>
      if connective.any (· != next) then .error (faultAt last tokens)
      else
        match hp : inParens file nested last rest with
        | .error fault => .error fault
        | .ok (c, rest) =>
          have := length_keyword? hk
          have := length_inParens hp
          match operands file nested last allowOr (some next) rest with
          | .error fault => .error fault
          | .ok (connective, more, rest) => .ok (connective, c :: more, rest)
termination_by tokens.length

def condition (file : SourceFile) (nested : Nested) (last : Span) (allowOr : Bool)
    (tokens : List Token) : Except Fault (MediaCondition × List Token) :=
  match keyword? tokens with
  | some ("not", rest) => do
    let (c, rest) ← inParens file nested last rest
    return (.negation c, rest)
  | _ => do
    let (c, rest) ← inParens file nested last tokens
    match ← operands file nested last allowOr none rest with
    | (some connective, more, rest) => return (.operation connective (c :: more), rest)
    | (none, _, rest) => return (c, rest)

def conditionDeep (file : SourceFile) : Nat → Nested
  | 0 => fun _ => .error (.parse .invalidMediaQuery .none)
  | depth + 1 => fun tokens => do
    let last := lastSpan tokens
    let (c, rest) ← condition file (conditionDeep file depth) last true tokens
    if (dropBlank rest).isEmpty then .ok c else .error (faultAt last rest)

/-! ## Queries -/

def qualifier (tokens : List Token) : Option Qualifier × List Token :=
  match keyword? tokens with
  | some ("not", rest) => if (keyword? rest).isSome then (some .not, rest) else (none, tokens)
  | some ("only", rest) => (some .only, rest)
  | _ => (none, tokens)

def reserved : List String :=
  ["and","or","only","layer"]

def query (file : SourceFile) (tokens : List Token) : Except Fault MediaQuery := do
  let last := lastSpan tokens
  let nested := conditionDeep file tokens.length
  let (qualifier, rest) := qualifier tokens
  let (query, rest) ←
    match keyword? rest with
    | some (word, after) =>
      if word == "not" then do
        let (c, rest) ← condition file nested last true rest
        pure (⟨qualifier,none,some c⟩, rest)
      else if reserved.contains word then .error (faultAt last rest)
      else if (dropBlank after).isEmpty then
        pure (⟨qualifier,some word,none⟩, after)
      else
        match keyword? after with
        | some ("and", rest) => do
          let (c, rest) ← condition file nested last false rest
          pure (⟨qualifier,some word,some c⟩, rest)
        | _ => .error (faultAt last after)
    | none =>
      if qualifier.isSome then .error (faultAt last rest)
      else do
        let (c, rest) ← condition file nested last true rest
        pure ((⟨qualifier,none,some c⟩ : MediaQuery), rest)
  if (dropBlank rest).isEmpty then return query else .error (faultAt last rest)

end Css.Media

namespace Css.MediaList

def parse (file : SourceFile) (tokens : List Token) : Except Fault MediaList :=
  (Token.commaParts (Token.trimBlank tokens)).mapM (Media.query file)

end Css.MediaList
