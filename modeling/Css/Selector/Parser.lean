import Css.Error.Basic
import Css.Selector.Basic
import Css.Token.Group

/-!
# Parsing selectors

A simple selector is read off the front of the tokens. A compound is a run of simple selectors, and a
selector is compounds with combinators between them.
-/
namespace Css.Selector

open Token

structure Context where
  nesting : Bool := false
  implicit : Bool := false
  required : Bool := false
  relative : Bool := false
  modules : Bool := false

def Context.arguments (ctx : Context) (relative : Bool) : Context :=
  { nesting := ctx.nesting, relative, modules := ctx.modules }

abbrev Nested := Context → List Token → Except Fault Selector

def faultAt (last : Span) (rest : List Token) (problem : SelectorProblem) : Fault :=
  .selector problem ((rest.head?.map Token.span).getD last)

def combinator? (t : Token) : Option Combinator :=
  match t.delim? with
  | some '>' => some .child
  | some '+' => some .nextSibling
  | some '~' => some .laterSibling
  | _ => none

def parseList (nested : Nested) (ctx : Context) (tokens : List Token) :
    Except Fault (List Selector) :=
  let fault := Fault.parse .expectedSelector ((tokens.head?.map Token.span).getD .none)
  let parts := (commaParts tokens).map trimBlank
  if parts.isEmpty then .error fault
  else parts.mapM fun part => if part.isEmpty then .error fault else nested ctx part

/-! ## Attributes -/

def operatorOf? (t : Token) : Option AttributeOperator :=
  match t.delim? with
  | some '~' => some .includes
  | some '|' => some .dashMatch
  | some '^' => some .startsWith
  | some '$' => some .endsWith
  | some '*' => some .contains
  | _ => none

def attributeOperator (last : Span) (tokens : List Token) :
    Except Fault (AttributeOperator × List Token) :=
  match tokens with
  | [] => .error (faultAt last tokens .invalidAttribute)
  | t :: rest =>
    if t.isDelim '=' then .ok (.equals, rest)
    else
      match rest with
      | [] => .error (faultAt last tokens .invalidAttribute)
      | u :: after =>
        if u.isDelim '=' then
          match operatorOf? t with
          | some operator => .ok (operator, after)
          | none => .error (faultAt last tokens .invalidAttributeOperator)
        else .error (faultAt last tokens .invalidAttribute)

def attributeValue (last : Span) (tokens : List Token) : Except Fault (String × List Token) :=
  match tokens with
  | [] => .error (faultAt last [] .expectedAttributeValue)
  | t :: rest =>
    if t.kind == .ident then .ok (t.name, rest)
    else if t.kind == .string then .ok (t.stringValue, rest)
    else .error (faultAt last rest .expectedAttributeValue)

def attributeFlag (last : Span) (tokens : List Token) :
    Except Fault (Option CaseFlag × List Token) :=
  match tokens with
  | [] => .ok (none, tokens)
  | t :: rest =>
    if t.kind == .ident then
      if t.keyword == "i" then .ok (some .ignored, dropBlank rest)
      else if t.keyword == "s" then .ok (some .respected, dropBlank rest)
      else .error (faultAt last tokens .invalidCaseFlag)
    else .ok (none, tokens)

def attributeTest (last : Span) (tokens : List Token) : Except Fault (Part × List Token) :=
  match dropBlank tokens with
  | [] => .error (faultAt last [] .expectedAttributeName)
  | t :: rest =>
    if t.kind == .ident then
      let rest := dropBlank rest
      if rest.head?.any fun u => u.kind == .rightBracket then .ok (.attr t.name none, rest.tail)
      else do
        let (operator, rest) ← attributeOperator last rest
        let (value, rest) ← attributeValue last (dropBlank rest)
        let (flag, rest) ← attributeFlag last (dropBlank rest)
        match rest with
        | [] => .error (faultAt last [] .expectedClosingBracket)
        | u :: rest =>
          if u.kind == .rightBracket then .ok (.attr t.name (some ⟨operator,value,flag⟩), rest)
          else .error (faultAt last rest .expectedClosingBracket)
    else .error (faultAt last rest .expectedAttributeName)

/-! ## Pseudo-classes -/

def selectorFunctions : List String :=
  ["is","not","where","has","matches","any","-webkit-any","-moz-any","host",
   "host-context"]

def pseudoFunction (nested : Nested) (ctx : Context) (name : String) (arguments : List Token) :
    Except Fault (List Part) :=
  if ctx.modules && name == "global" then do
    return [.global (← nested (ctx.arguments false) (trimBlank arguments))]
  else if ctx.modules && name == "local" then nested (ctx.arguments false) (trimBlank arguments)
  else if selectorFunctions.contains name then do
    return [.pseudoClassOf name (← parseList nested (ctx.arguments (name == "has")) arguments)]
  else .ok [.pseudoClassText name (plainText arguments)]

def pseudoNamed (nested : Nested) (ctx : Context) (last : Span) (isElement : Bool)
    (tokens : List Token) : Except Fault (List Part × List Token) :=
  match tokens with
  | [] => .error (faultAt last [] .expectedPseudoName)
  | t :: rest =>
    match t.kind with
    | .ident => .ok ([if isElement then .pseudoElement t.keyword else .pseudoClass t.keyword], rest)
    | .function =>
      match splitParens 1 rest with
      | none => .error (faultAt last [] .unclosedParenthesis)
      | some (arguments, rest) =>
        if isElement then .ok ([.pseudoElementText t.keyword (plainText arguments)], rest)
        else
          match pseudoFunction nested ctx t.keyword arguments with
          | .error fault => .error fault
          | .ok parts => .ok (parts, rest)
    | _ => .error (faultAt last rest .expectedPseudoName)

def pseudo (nested : Nested) (ctx : Context) (last : Span) (tokens : List Token) :
    Except Fault (List Part × List Token) :=
  match tokens with
  | [] => pseudoNamed nested ctx last false []
  | t :: rest =>
    if t.kind == .colon then pseudoNamed nested ctx last true rest
    else pseudoNamed nested ctx last false (t :: rest)

/-! ## Compounds -/

def classAfterPoint (last : Span) (tokens : List Token) : Except Fault (List Part × List Token) :=
  match tokens with
  | [] => .error (faultAt last [] .expectedClassName)
  | t :: rest =>
    if t.kind == .ident then .ok ([.className t.name], rest)
    else .error (faultAt last rest .expectedClassName)

def simple? (nested : Nested) (ctx : Context) (last : Span) (isFirst : Bool)
    (tokens : List Token) : Except Fault (Option (List Part × List Token)) :=
  match tokens with
  | [] => .ok none
  | t :: rest =>
    match t.kind with
    | .ident =>
      if isFirst then .ok (some ([.element t.name], rest))
      else .error (faultAt last tokens .elementNotFirst)
    | .idHash => .ok (some ([.idName t.name], rest))
    | .hash => .error (faultAt last tokens .invalidId)
    | .leftBracket =>
      match attributeTest last rest with
      | .error fault => .error fault
      | .ok (part, rest) => .ok (some ([part], rest))
    | .colon =>
      match pseudo nested ctx last rest with
      | .error fault => .error fault
      | .ok found => .ok (some found)
    | .delim =>
      match t.delim? with
      | some '*' =>
        if isFirst then .ok (some ([.universal], rest))
        else .error (faultAt last tokens .universalNotFirst)
      | some '&' => .ok (some ([.nesting], rest))
      | some '.' =>
        match classAfterPoint last rest with
        | .error fault => .error fault
        | .ok found => .ok (some found)
      | _ => .ok none
    | _ => .ok none

/-! ### What is left is less -/

variable {last : Span} {tokens rest : List Token} {nested : Nested} {ctx : Context}
  {parts : List Part}

theorem suffix_attributeOperator {operator : AttributeOperator}
    (h : attributeOperator last tokens = .ok (operator, rest)) : rest <:+ tokens := by
  unfold attributeOperator at h
  repeat' split at h
  all_goals cases h
  · exact List.suffix_cons _ _
  · exact (List.suffix_cons _ _).trans (List.suffix_cons _ _)

theorem suffix_attributeValue {value : String} (h : attributeValue last tokens = .ok (value, rest)) :
    rest <:+ tokens := by
  unfold attributeValue at h
  repeat' split at h
  all_goals cases h
  all_goals exact List.suffix_cons _ _

theorem suffix_attributeFlag {flag : Option CaseFlag}
    (h : attributeFlag last tokens = .ok (flag, rest)) : rest <:+ tokens := by
  unfold attributeFlag at h
  repeat' split at h
  all_goals cases h
  · exact List.suffix_refl _
  · exact (List.dropWhile_suffix _).trans (List.suffix_cons _ _)
  · exact (List.dropWhile_suffix _).trans (List.suffix_cons _ _)
  · exact List.suffix_refl _

/-- An attribute is a name, and a bracket closes it behind the name or behind an operator and a value. -/
theorem attributeTest_cases {part : Part} (h : attributeTest last tokens = .ok (part, rest)) :
    ∃ t after u, t :: after <:+ tokens ∧ t.kind = .ident ∧ u :: rest <:+ after ∧
      u.kind = .rightBracket ∧ (part = .attr t.name none ∨
        ∃ operator value flag inner more, inner <:+ after ∧
          attributeValue last inner = .ok (value, more) ∧
          part = .attr t.name (some ⟨operator,value,flag⟩)) := by
  have hb (l : List Token) : dropBlank l <:+ l := List.dropWhile_suffix _
  unfold attributeTest at h
  split at h
  · cases h
  · rename_i t after heq
    have ha : t :: after <:+ tokens := heq ▸ hb tokens
    split at h
    · rename_i hk
      dsimp only at h
      split at h
      · rename_i hu
        cases hd : dropBlank after with
        | nil => rw [hd] at hu; cases hu
        | cons u rest' =>
          rw [hd] at hu h
          cases h
          exact ⟨t,after,u,ha,eq_of_beq hk,hd ▸ hb after,eq_of_beq hu,Or.inl rfl⟩
      · obtain ⟨⟨operator,r1⟩,ho,h⟩ := ok_of_bind_ok h
        obtain ⟨⟨value,r2⟩,hv,h⟩ := ok_of_bind_ok h
        obtain ⟨⟨flag,r3⟩,hf,h⟩ := ok_of_bind_ok h
        have h1 := (hb r1).trans ((suffix_attributeOperator ho).trans (hb after))
        have h2 := (suffix_attributeFlag hf).trans
          ((hb r2).trans ((suffix_attributeValue hv).trans h1))
        cases r3 with
        | nil => cases h
        | cons u more =>
          dsimp only at h
          split at h
          · rename_i hu
            cases h
            exact ⟨t,after,u,ha,eq_of_beq hk,h2,eq_of_beq hu,
              Or.inr ⟨operator,value,flag,_,r2,h1,hv,rfl⟩⟩
          · cases h
    · cases h

theorem suffix_attributeTest {part : Part} (h : attributeTest last tokens = .ok (part, rest)) :
    ∃ t, t :: rest <:+ tokens := by
  obtain ⟨t,after,u,ha,-,hr,-⟩ := attributeTest_cases h
  exact ⟨u,hr.trans ((List.suffix_cons t after).trans ha)⟩

/-- The ways to read a simple selector off the front of the tokens. -/
inductive IsSimple (nested : Nested) (ctx : Context) (last : Span) (isFirst : Bool) :
    List Token → List Part → List Token → Prop
  | element {t : Token} {rest : List Token} (hk : t.kind = .ident) (hf : isFirst) :
    IsSimple nested ctx last isFirst (t :: rest) [.element t.name] rest
  | idName {t : Token} {rest : List Token} (hk : t.kind = .idHash) :
    IsSimple nested ctx last isFirst (t :: rest) [.idName t.name] rest
  | attr {t : Token} {tokens rest : List Token} {part : Part}
    (h : attributeTest last tokens = .ok (part, rest)) :
    IsSimple nested ctx last isFirst (t :: tokens) [part] rest
  | universal {t : Token} {rest : List Token} (hd : t.isDelim '*') (hf : isFirst) :
    IsSimple nested ctx last isFirst (t :: rest) [.universal] rest
  | nesting {t : Token} {rest : List Token} (hd : t.isDelim '&') :
    IsSimple nested ctx last isFirst (t :: rest) [.nesting] rest
  | className {t u : Token} {rest : List Token} (hk : u.kind = .ident) :
    IsSimple nested ctx last isFirst (t :: u :: rest) [.className u.name] rest
  | pseudoElement {t c u : Token} {rest : List Token} (hk : u.kind = .ident) :
    IsSimple nested ctx last isFirst (t :: c :: u :: rest) [.pseudoElement u.keyword] rest
  | pseudoElementText {t c u : Token} {tokens arguments rest : List Token}
    (hs : splitParens 1 tokens = some (arguments, rest)) :
    IsSimple nested ctx last isFirst (t :: c :: u :: tokens)
      [.pseudoElementText u.keyword (plainText arguments)] rest
  | pseudoClass {t u : Token} {rest : List Token} (ht : t.kind = .colon) (hk : u.kind = .ident) :
    IsSimple nested ctx last isFirst (t :: u :: rest) [.pseudoClass u.keyword] rest
  | pseudoFunction {t u : Token} {tokens arguments rest : List Token} {parts : List Part}
    (ht : t.kind = .colon) (hk : u.kind = .function)
    (hs : splitParens 1 tokens = some (arguments, rest))
    (h : pseudoFunction nested ctx u.keyword arguments = .ok parts) :
    IsSimple nested ctx last isFirst (t :: u :: tokens) parts rest

variable {isFirst : Bool}

theorem isSimple_of_pseudo {t : Token} (ht : t.kind = .colon)
    (h : pseudo nested ctx last tokens = .ok (parts, rest)) :
    IsSimple nested ctx last isFirst (t :: tokens) parts rest := by
  unfold pseudo at h
  split at h
  · cases h
  · rename_i u after
    split at h
    · cases after with
      | nil => cases h
      | cons v after =>
        rw [pseudoNamed] at h
        split at h
        · rename_i hk
          cases h
          exact .pseudoElement hk
        · split at h
          · cases h
          · rename_i hs
            cases h
            exact .pseudoElementText hs
        · cases h
    · rw [pseudoNamed] at h
      split at h
      · rename_i hk
        cases h
        exact .pseudoClass ht hk
      · rename_i hk
        split at h
        · cases h
        · rename_i hs
          rw [if_neg Bool.false_ne_true] at h
          split at h
          · cases h
          · rename_i hp
            cases h
            exact .pseudoFunction ht hk hs hp
      · cases h

theorem isSimple_of_simple? (h : simple? nested ctx last isFirst tokens = .ok (some (parts, rest))) :
    IsSimple nested ctx last isFirst tokens parts rest := by
  unfold simple? at h
  split at h
  · cases h
  · rename_i t after
    split at h
    · rename_i hk
      split at h
      · rename_i hf
        cases h
        exact .element hk hf
      · cases h
    · rename_i hk
      cases h
      exact .idName hk
    · cases h
    · split at h
      · cases h
      · rename_i ha
        cases h
        exact .attr ha
    · rename_i hk
      split at h
      · cases h
      · rename_i hp
        cases h
        exact isSimple_of_pseudo hk hp
    · split at h
      · rename_i hd
        split at h
        · rename_i hf
          cases h
          exact .universal (beq_iff_eq.mpr hd) hf
        · cases h
      · rename_i hd
        cases h
        exact .nesting (beq_iff_eq.mpr hd)
      · split at h
        · cases h
        · rename_i hc
          cases h
          unfold classAfterPoint at hc
          split at hc
          · cases hc
          · split at hc
            · rename_i hk
              cases hc
              exact .className (eq_of_beq hk)
            · cases hc
      · cases h
    · cases h

theorem suffix_of_isSimple (h : IsSimple nested ctx last isFirst tokens parts rest) :
    ∃ t, t :: rest <:+ tokens := by
  cases h with
  | element | idName | universal | nesting => exact ⟨_,List.suffix_rfl⟩
  | className | pseudoClass => exact ⟨_,List.suffix_cons _ _⟩
  | pseudoElement => exact ⟨_,(List.suffix_cons _ _).trans (List.suffix_cons _ _)⟩
  | attr ha =>
    obtain ⟨t,ht⟩ := suffix_attributeTest ha
    exact ⟨t,ht.trans (List.suffix_cons _ _)⟩
  | @pseudoElementText t c u _ arguments _ hs =>
    obtain ⟨v,-,rfl⟩ := eq_of_splitParens hs
    exact ⟨v,t :: c :: u :: arguments,rfl⟩
  | @pseudoFunction t u _ arguments _ _ _ _ hs =>
    obtain ⟨v,-,rfl⟩ := eq_of_splitParens hs
    exact ⟨v,t :: u :: arguments,rfl⟩

theorem length_simple? (h : simple? nested ctx last isFirst tokens = .ok (some (parts, rest))) :
    rest.length < tokens.length := by
  obtain ⟨t,ht⟩ := suffix_of_isSimple (isSimple_of_simple? h)
  exact ht.length_le

def compound (nested : Nested) (ctx : Context) (last : Span) (isFirst : Bool)
    (tokens : List Token) : Except Fault (List Part × List Token) :=
  match h : simple? nested ctx last isFirst tokens with
  | .error fault => .error fault
  | .ok none => .ok ([], tokens)
  | .ok (some (parts, rest)) =>
    have := length_simple? h
    match compound nested ctx last false rest with
    | .error fault => .error fault
    | .ok (more, rest) => .ok (parts ++ more, rest)
termination_by tokens.length

theorem length_compound {isFirst : Bool}
    (h : compound nested ctx last isFirst tokens = .ok (parts, rest)) :
    rest.length ≤ tokens.length ∧ (parts ≠ [] → rest.length < tokens.length) := by
  fun_induction compound nested ctx last isFirst tokens generalizing parts rest with
  | case1 => simp at h
  | case2 =>
    simp at h
    simp [← h.1,← h.2]
  | case3 => simp at h
  | case4 _ _ _ _ _ hlt more after hrec ih =>
    have := (ih hrec).1
    simp at h
    rw [← h.2]
    omega

/-! ## Selectors -/

def compounds (nested : Nested) (ctx : Context) (last : Span) (tokens : List Token) :
    Except Fault Selector :=
  match h : compound nested ctx last true tokens with
  | .error fault => .error fault
  | .ok ([], rest) => .error (faultAt last rest .expectedSimple)
  | .ok (part :: parts, rest) =>
    have := (length_compound h).2 (by simp)
    have := length_dropBlank_le rest
    match hd : dropBlank rest with
    | [] => .ok (part :: parts)
    | t :: after =>
      have := length_dropBlank_le after
      match combinator? t with
      | some c =>
        match compounds nested ctx last (dropBlank after) with
        | .error fault => .error fault
        | .ok more => .ok (part :: parts ++ .combinator c :: more)
      | none =>
        if rest.head?.any isBlank then
          match compounds nested ctx last (t :: after) with
          | .error fault => .error fault
          | .ok more => .ok (part :: parts ++ .combinator .descendant :: more)
        else .error (faultAt last (t :: after) .unexpectedToken)
termination_by tokens.length
decreasing_by
  all_goals simp only [hd,List.length_cons] at *
  all_goals omega

def complex (nested : Nested) (ctx : Context) (tokens : List Token) : Except Fault Selector :=
  let last := (tokens.getLast?.map Token.span).getD .none
  match dropBlank tokens with
  | [] => compounds nested ctx last []
  | t :: rest =>
    match combinator? t with
    | none => compounds nested ctx last (t :: rest)
    | some c =>
      if ctx.relative || ctx.implicit then
        match compounds nested ctx last (dropBlank rest) with
        | .error fault => .error fault
        | .ok parts => .ok (.combinator c :: parts)
      else .error (faultAt last (t :: rest) .leadingCombinator)

/-- Whether a part takes the names after it out of the scope of the file, or puts them back. -/
def scopeSwitch? : Part → Option Bool
  | .pseudoClass name =>
    if name == "global" then some true else if name == "local" then some false else none
  | _ => none

def inScope (isGlobal : Bool) : Part → Part
  | .combinator c => .combinator c
  | .global selector => .global selector
  | part => if isGlobal then .global [part] else part

/-- Carries out the switches of scope in the parts that are left; `out` is what is done, last
first. -/
def resolveScopes (ctx : Context) (span : Span) (isGlobal : Bool) (out : List Part) :
    List Part → Except Fault Selector
  | [] => .ok out.reverse
  | part :: rest =>
    match scopeSwitch? part with
    | none => resolveScopes ctx span isGlobal (inScope isGlobal part :: out) rest
    | some isGlobal =>
      let standsAlone := out.head?.all Part.isCombinator
      match rest with
      | [] => .error (.selector .nothingToScope span)
      | .combinator .descendant :: after =>
        if standsAlone then resolveScopes ctx span isGlobal out after
        else resolveScopes ctx span isGlobal out (.combinator .descendant :: after)
      | .combinator c :: after =>
        if standsAlone && out.isEmpty && !ctx.relative then
          .error (.selector .leadingCombinator span)
        else if standsAlone && out.head? == some (.combinator .descendant) then
          resolveScopes ctx span isGlobal out.tail (.combinator c :: after)
        else resolveScopes ctx span isGlobal out (.combinator c :: after)
      | next :: after => resolveScopes ctx span isGlobal out (next :: after)

def relativeToParent : Selector → Selector
  | .combinator c :: parts => .nesting :: .combinator c :: parts
  | parts => .nesting :: .combinator .descendant :: parts

def checkNesting (ctx : Context) (tokens : List Token) (selector : Selector) :
    Except Fault Selector :=
  if selector.hasNesting then
    if ctx.nesting then .ok selector
    else
      let blamed := tokens.find? fun t => t.isDelim '&'
      .error (.parse .invalidNesting ((blamed.map Token.span).getD (spanOf tokens)))
  else if ctx.required then .error (.parse .missingNesting (spanOf tokens))
  else if ctx.implicit then .ok (relativeToParent selector)
  else .ok selector

/-- The tokens matter only where the check fails. -/
theorem checkNesting_eq_ok_iff {s t : Selector} : checkNesting ctx tokens s = .ok t ↔
    s.hasNesting = true ∧ ctx.nesting = true ∧ t = s ∨
      s.hasNesting = false ∧ ctx.required = false ∧
        t = if ctx.implicit then relativeToParent s else s := by
  unfold checkNesting
  cases s.hasNesting <;> cases ctx.nesting <;> cases ctx.required <;> cases ctx.implicit <;>
    simp [eq_comm]

def parseWith (nested : Nested) (ctx : Context) (tokens : List Token) : Except Fault Selector := do
  let selector ← complex nested ctx tokens
  let selector ←
    if ctx.modules then resolveScopes ctx (spanOf tokens) false [] selector else pure selector
  checkNesting ctx tokens selector

def parseDeep : Nat → Nested
  | 0 => fun _ _ => .error (.selector .expectedSimple .none)
  | depth + 1 => parseWith (parseDeep depth)

/-- Parses a list of selectors. Arguments are fewer tokens than what they stand in, so that there are
fewer levels than tokens. -/
def parseAll (ctx : Context) (tokens : List Token) : Except Fault (List Selector) :=
  parseList (parseDeep (tokens.length + 1)) ctx tokens

end Css.Selector
