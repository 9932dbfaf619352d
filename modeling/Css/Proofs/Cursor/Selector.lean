import Css.Proofs.Cursor.Group
import Css.Selector.Parser

/-!
# Selectors under a cursor

The parser of selectors as one that moves a cursor. Only the arguments of functions are taken as a
slice, and brackets are counted for their end.
-/
namespace Css.Cursor
open List Token Selector CheckM Nat Option

abbrev NestedSelector := Context → List Token → CheckM Selector

def blame (ts : List Token) (i : Nat) (problem : SelectorProblem) : Fault :=
  .selector problem (((ts[i]?.or ts.getLast?).map Token.span).getD .none)

/-- The arguments of a function that start at `start`, and the index behind it: what is left at `i` is in
`depth` brackets. -/
def argumentsFrom (ts : List Token) (start depth i : Nat) : List Token → CheckM (Option (List Token × Nat))
  | [] => return none
  | t :: rest =>
    match t.kind with
    | .function | .leftParen | .leftBracket => argumentsFrom ts start (depth + 1) (i + 1) rest
    | .rightParen | .rightBracket => do
      let depth ← pred depth
      if depth = 0 then
        let stop ← pred (i + 1)
        return some (← slice ts start stop,i + 1)
      else argumentsFrom ts start depth (i + 1) rest
    | _ => argumentsFrom ts start depth (i + 1) rest

def functionArguments (ts : List Token) (start : Nat) : CheckM (Option (List Token × Nat)) :=
  argumentsFrom ts start 1 start (ts.drop start)

def selectorsWith (nested : NestedSelector) (ctx : Context) (ts : List Token) : CheckM (List Selector) := do
  let fault := Fault.parse .expectedSelector ((ts.head?.map Token.span).getD .none)
  let parts := (← commaSlices ts).map trimBlank
  if parts.isEmpty then throw fault
  else parts.mapM fun part => if part.isEmpty then throw fault else nested ctx part

def pseudoFunction (nested : NestedSelector) (ctx : Context) (name : String)
    (arguments : List Token) : CheckM (List Part) :=
  if ctx.modules && name == "global" then do
    return [.global (← nested (ctx.arguments false) (trimBlank arguments))]
  else if ctx.modules && name == "local" then nested (ctx.arguments false) (trimBlank arguments)
  else if selectorFunctions.contains name then do
    return [.pseudoClassOf name (← selectorsWith nested (ctx.arguments (name == "has")) arguments)]
  else return [.pseudoClassText name (plainText arguments)]

section
variable (nested : NestedSelector) (ctx : Context) (ts : List Token)

def pseudoNamed (isElement : Bool) (i : Nat) : CheckM (List Part × Nat) := match ts[i]? with
  | none => throw (blame ts (i + 1) .expectedPseudoName)
  | some t =>
    match t.kind with
    | .ident =>
      return ([if isElement then .pseudoElement t.keyword else .pseudoClass t.keyword],i + 1)
    | .function => do
      match ← functionArguments ts (i + 1) with
      | none => throw (blame ts ts.length .unclosedParenthesis)
      | some (arguments,next) =>
        if isElement then return ([.pseudoElementText t.keyword (plainText arguments)],next)
        else return (← pseudoFunction nested ctx t.keyword arguments,next)
    | _ => throw (blame ts (i + 1) .expectedPseudoName)

def pseudo (i : Nat) : CheckM (List Part × Nat) :=
  if ts[i]?.any fun t => t.kind == .colon then pseudoNamed nested ctx ts true (i + 1)
  else pseudoNamed nested ctx ts false i

def attributeAt (i : Nat) : CheckM (Part × Nat) := do
  let last := (ts.getLast?.map Token.span).getD .none
  let (part,rest) ← MonadExcept.ofExcept (attributeTest last (ts.drop i))
  return (part,ts.length - rest.length)

def simple? (isFirst : Bool) (i : Nat) : CheckM (Option (List Part × Nat)) := match ts[i]? with
  | none => return none
  | some t =>
    match t.kind with
    | .ident =>
      if isFirst then return some ([.element t.name],i + 1)
      else throw (blame ts i .elementNotFirst)
    | .idHash => return some ([.idName t.name],i + 1)
    | .hash => throw (blame ts i .invalidId)
    | .leftBracket => do
      let (part,next) ← attributeAt ts (i + 1)
      return some ([part],next)
    | .colon => return some (← pseudo nested ctx ts (i + 1))
    | .delim =>
      if t.delim? = some '*' then
        if isFirst then return some ([.universal],i + 1)
        else throw (blame ts i .universalNotFirst)
      else if t.delim? = some '&' then return some ([.nesting],i + 1)
      else if t.delim? = some '.' then
        match ts[i + 1]? with
        | none => throw (blame ts (i + 2) .expectedClassName)
        | some u =>
          if u.kind == .ident then return some ([.className u.name],i + 2)
          else throw (blame ts (i + 2) .expectedClassName)
      else return none
    | _ => return none

def compound (isFirst : Bool) (i : Nat) : CheckM (List Part × Nat) := do
  match ← simple? nested ctx ts isFirst i with
  | none => return ([],i)
  | some (parts,next) =>
    onward ts.length i next fun _ => do
      let (more,stop) ← compound false next
      return (parts ++ more,stop)
termination_by ts.length - i
decreasing_by omega

def compounds (i : Nat) : CheckM Selector := do
  let (parts,stop) ← compound nested ctx ts true i
  if parts.isEmpty then throw (blame ts stop .expectedSimple)
  let next ← skipBlank ts stop
  match ts[next]? with
  | none => return parts
  | some t =>
    match combinator? t with
    | some c => do
      let start ← skipBlank ts (next + 1)
      onward ts.length i start fun _ => do
        return parts ++ .combinator c :: (← compounds start)
    | none =>
      if ts[stop]?.any isBlank then
        onward ts.length i next fun _ => do
          return parts ++ .combinator .descendant :: (← compounds next)
      else throw (blame ts next .unexpectedToken)
termination_by ts.length - i
decreasing_by all_goals omega

def complex : CheckM Selector := do
  let i ← skipBlank ts 0
  match ts[i]?.bind combinator? with
  | none => compounds nested ctx ts i
  | some c =>
    if ctx.relative || ctx.implicit then
      let start ← skipBlank ts (i + 1)
      return .combinator c :: (← compounds nested ctx ts start)
    else throw (blame ts i .leadingCombinator)

def selectorWith : CheckM Selector := do
  let selector ← complex nested ctx ts
  MonadExcept.ofExcept do
    let selector ←
      if ctx.modules then resolveScopes ctx (spanOf ts) false [] selector else pure selector
    checkNesting ctx ts selector

end

def selector (ctx : Context) (ts : List Token) : CheckM Selector := selectorWith (fun ctx arguments =>
    if _h : arguments.length < ts.length then selector ctx arguments else breach .stuck) ctx ts
termination_by ts.length

def selectors (ctx : Context) (ts : List Token) : CheckM (List Selector) := selectorsWith selector ctx ts

variable {rest : List Token} {i : Nat} {ts : List Token}

lemma reads_blame {α β : Type} {R : α → β → Prop} (hr : ts.drop i = rest) (problem : SelectorProblem) :
    Reads R (throw (blame ts i problem)) (.error (faultAt ((ts.getLast?.map Token.span).getD .none) rest problem)) := by
  subst hr
  have hb : blame ts i problem = faultAt ((ts.getLast?.map Token.span).getD .none) (ts.drop i) problem := by
    obtain ⟨hd,hg,-⟩ | ⟨t,hd,hg,-⟩ := drop_cases ts i
    · rw [blame,faultAt,hd,hg]; rfl
    · rw [blame,faultAt,hd,hg]; rfl
  rw [hb]
  exact reads_throw _

/-- The arguments that were passed already are `part`. Brackets are open as long as they are counted, so
that their count is not zero. -/
lemma argumentsFrom_eq (pre part : List Token) {depth start : Nat}
    (ht : ts = pre ++ part ++ rest) (hs : start = pre.length)
    (hi : i = start + part.length) (hdp : 0 < depth) :
    argumentsFrom ts start depth i rest = pure ((splitParens depth rest).map fun ps =>
        (part ++ ps.1,ts.length - ps.2.length)) := by
  induction rest generalizing part depth i with
  | nil => rfl
  | cons t rest ih =>
    have hn {depth : Nat} (hd : 0 < depth) : argumentsFrom ts start depth (i + 1) rest =
          pure (((splitParens depth rest).map fun ps => (t :: ps.1,ps.2)).map fun ps =>
            (part ++ ps.1,ts.length - ps.2.length)) := by
      rw [ih (part ++ [t]) (by simpa using ht) (by simp; omega) hd,Option.map_map]
      congr 2
      funext ps
      simp
    have hc : (do
          let depth ← pred depth
          if depth = 0 then
            let stop ← pred (i + 1)
            return some (← slice ts start stop,i + 1)
          else argumentsFrom ts start depth (i + 1) rest) =
        pure ((if depth ≤ 1 then some ([],rest)
          else (splitParens (depth - 1) rest).map fun ps => (t :: ps.1,ps.2)).map
            fun ps => (part ++ ps.1,ts.length - ps.2.length)) := by
      rw [pred_eq hdp,pure_bind]
      by_cases hd : depth ≤ 1
      · have hl := congrArg List.length ht
        simp only [length_append,length_cons] at hl
        have ha : ts.length - rest.length = i + 1 := by omega
        rw [if_pos (by omega),if_pos hd,pred_eq (succ_pos i),pure_bind,succ_sub_one,slice_part ht hs hi,pure_bind]
        simp [ha]
      · rw [if_neg (by omega),if_neg hd]
        exact hn (by omega)
    rw [argumentsFrom,splitParens]
    cases hk : t.kind <;> first
      | exact hn (succ_pos depth)
      | exact hc
      | exact hn hdp

lemma functionArguments_eq (ts : List Token) (hi : i ≤ ts.length) :
    functionArguments ts i = pure ((splitParens 1 (ts.drop i)).map fun ps =>
        (ps.1,ts.length - ps.2.length)) :=
  argumentsFrom_eq (ts.take i) [] (by simp) (by simp; omega) rfl Nat.one_pos

variable {last : Span}

lemma reads_attributeAt (hi : i ≤ ts.length) : Reads (Left ts i) (attributeAt ts i)
      (attributeTest ((ts.getLast?.map Token.span).getD .none) (ts.drop i)) := by
  rw [attributeAt]
  cases ht : attributeTest ((ts.getLast?.map Token.span).getD .none) (ts.drop i) with
  | error fault => exact reads_throw fault
  | ok found =>
    obtain ⟨t,hs⟩ := Selector.suffix_attributeTest ht
    exact reads_pure (left_of_suffix _ ((suffix_cons t _).trans hs) hi)

lemma compound_eq (nested : Selector.Nested) (ctx : Context) (last : Span) (isFirst : Bool) (ts : List Token) :
    Selector.compound nested ctx last isFirst ts =
      match Selector.simple? nested ctx last isFirst ts with
      | .error fault => .error fault
      | .ok none => .ok ([],ts)
      | .ok (some (ps,rest)) =>
        match Selector.compound nested ctx last false rest with
        | .error fault => .error fault
        | .ok (more,rest) => .ok (ps ++ more,rest) := by
  rw [Selector.compound.eq_def]
  split
  · next heq => simp only [heq]
  · next heq => simp only [heq]
  · next heq => simp only [heq] <;> rfl

lemma compounds_eq (nested : Selector.Nested) (ctx : Context) (last : Span) (ts : List Token) :
    Selector.compounds nested ctx last ts =
      match Selector.compound nested ctx last true ts with
      | .error fault => .error fault
      | .ok ([],rest) => .error (faultAt last rest .expectedSimple)
      | .ok (part :: ps,rest) =>
        match dropBlank rest with
        | [] => .ok (part :: ps)
        | t :: post =>
          match combinator? t with
          | some c =>
            match Selector.compounds nested ctx last (dropBlank post) with
            | .error fault => .error fault
            | .ok more => .ok (part :: ps ++ .combinator c :: more)
          | none =>
            if rest.head?.any isBlank then
              match Selector.compounds nested ctx last (t :: post) with
              | .error fault => .error fault
              | .ok more => .ok (part :: ps ++ .combinator .descendant :: more)
            else .error (faultAt last (t :: post) .unexpectedToken) := by
  rw [Selector.compounds.eq_def]
  split
  · next heq => simp only [heq]
  · next heq => simp only [heq]
  · next heq =>
      simp only [heq]
      split
      · next hd => simp only [hd]
      · next hd => simp only [hd] <;> rfl

section
variable {nested : NestedSelector} {nested' : Selector.Nested} {ts : List Token}

lemma reads_selectorsWith (ctx : Context)
    (h : ∀ ctx part, part.length ≤ ts.length → Reads Eq (nested ctx part) (nested' ctx part)) :
    Reads Eq (selectorsWith nested ctx ts) (parseList nested' ctx ts) := by
  rw [selectorsWith,commaSlices_eq,pure_bind,parseList]
  dsimp only
  split
  · exact reads_throw _
  · refine reads_mapM fun part hpr => ?_
    split
    · exact reads_throw _
    · obtain ⟨p,hp,rfl⟩ := mem_map.mp hpr
      exact h ctx _ ((trimBlank_sublist p).trans (sublist_of_mem_commaParts hp)).length_le

lemma reads_pseudoFunction (ctx : Context) (name : String)
    (h : ∀ ctx part, part.length ≤ ts.length → Reads Eq (nested ctx part) (nested' ctx part)) :
    Reads Eq (pseudoFunction nested ctx name ts) (Selector.pseudoFunction nested' ctx name ts) := by
  have ht : (trimBlank ts).length ≤ ts.length := (trimBlank_sublist ts).length_le
  rw [pseudoFunction,Selector.pseudoFunction]
  split
  · exact (h _ _ ht).elim_eq reads_throw fun _ _ => reads_pure rfl
  · split
    · exact h _ _ ht
    · split
      · exact (reads_selectorsWith _ h).elim_eq reads_throw fun _ _ => reads_pure rfl
      · exact reads_pure rfl

variable (h : ∀ ctx part, part.length < ts.length → Reads Eq (nested ctx part) (nested' ctx part))
include h

variable {i : Nat}

lemma reads_pseudoNamed (ctx : Context) (isElement : Bool) (hi : i ≤ ts.length) :
    Reads (Left ts (i + 1)) (pseudoNamed nested ctx ts isElement i)
      (Selector.pseudoNamed nested' ctx ((ts.getLast?.map Token.span).getD .none) isElement (ts.drop i)) := by
  rw [pseudoNamed,Selector.pseudoNamed.eq_def]
  obtain ⟨hd,hg,hl⟩ | ⟨t,hd,hg,hlt⟩ := drop_cases ts i
  · rw [hg,hd]
    exact reads_blame (drop_eq_nil_of_le (by omega)) _
  · rw [hg,hd]
    dsimp only
    cases hk : t.kind with
    | ident => exact reads_pure ⟨rfl,Nat.le_refl _,hlt,rfl⟩
    | function =>
      rw [functionArguments_eq ts hlt,pure_bind]
      cases hs : splitParens 1 (ts.drop (i + 1)) with
      | none =>
        exact reads_blame drop_length _
      | some ps =>
        obtain ⟨args,rest⟩ := ps
        obtain ⟨u,-,hu⟩ := eq_of_splitParens hs
        have hsf : rest <:+ ts.drop (i + 1) := ⟨args ++ [u],by simp [hu]⟩
        have hl := congrArg List.length hu
        simp only [length_drop,length_append,length_cons] at hl
        dsimp only [map_some]
        split
        · exact reads_pure (left_of_suffix _ hsf hlt)
        · have hr := reads_pseudoFunction ctx t.keyword
            fun ctx part (hp : part.length ≤ args.length) => h ctx part (by omega)
          exact hr.elim_eq reads_throw fun _ _ => reads_pure (left_of_suffix _ hsf hlt)
    | _ => exact reads_blame rfl _

lemma reads_pseudo (ctx : Context) (hi : i ≤ ts.length) : Reads (Left ts (i + 1)) (pseudo nested ctx ts i)
      (Selector.pseudo nested' ctx ((ts.getLast?.map Token.span).getD .none) (ts.drop i)) := by
  rw [pseudo,Selector.pseudo.eq_def]
  obtain ⟨hd,hg,hl⟩ | ⟨t,hd,hg,hlt⟩ := drop_cases ts i
  · have hr := reads_pseudoNamed h ctx false hi
    rw [hd] at hr
    rw [hg,hd]
    exact hr
  · rw [hg,hd]
    by_cases hk : (t.kind == .colon)
    · have hr := reads_pseudoNamed h ctx true hlt
      rw [if_pos (by simpa using hk)]
      dsimp only
      rw [if_pos hk]
      exact hr.mono fun a b hab => hab.mono (le_succ _)
    · have hr := reads_pseudoNamed h ctx false hi
      rw [hd] at hr
      simpa [hk] using hr

lemma reads_simple? (ctx : Context) (isFirst : Bool) (i : Nat) :
    Reads (Option.Rel (Left ts (i + 1))) (simple? nested ctx ts isFirst i)
      (Selector.simple? nested' ctx ((ts.getLast?.map Token.span).getD .none) isFirst (ts.drop i)) := by
  rw [simple?,Selector.simple?.eq_def]
  obtain ⟨hd,hg,hln⟩ | ⟨t,hd,hg,hlt⟩ := drop_cases ts i
  · rw [hg,hd]
    exact reads_pure .none
  · rw [hg,hd]
    dsimp only
    cases hk : t.kind with
    | ident =>
      dsimp only
      split
      · exact reads_pure (.some ⟨rfl,Nat.le_refl _,hlt,rfl⟩)
      · exact reads_blame hd _
    | idHash => exact reads_pure (.some ⟨rfl,Nat.le_refl _,hlt,rfl⟩)
    | hash => exact reads_blame hd _
    | leftBracket =>
      dsimp only
      refine (reads_attributeAt hlt).elim reads_throw ?_
      rintro ⟨part,next⟩ ⟨part',rest⟩ hl -
      exact reads_pure (.some { hl with result := congrArg ([·]) hl.result })
    | colon =>
      dsimp only
      refine (reads_pseudo h ctx hlt).elim reads_throw fun found found' hl _ => ?_
      exact reads_pure (.some (hl.mono (Nat.le_succ _)))
    | delim =>
      dsimp only
      split
      · next hs =>
          rw [hs]
          split
          · exact reads_pure (.some ⟨rfl,Nat.le_refl _,hlt,rfl⟩)
          · exact reads_blame hd _
      split
      · next hn =>
          rw [hn]
          exact reads_pure (.some ⟨rfl,Nat.le_refl _,hlt,rfl⟩)
      split
      · next hp =>
          rw [hp,classAfterPoint.eq_def]
          obtain ⟨hd',hg',hln⟩ | ⟨u,hd',hg',hlt'⟩ := drop_cases ts (i + 1)
          · rw [hg',hd']
            exact reads_blame (drop_eq_nil_of_le (by omega)) _
          · rw [hg',hd']
            dsimp only
            split
            · exact reads_pure (.some ⟨rfl,Nat.le_succ _,hlt',rfl⟩)
            · exact reads_blame rfl _
      · split
        · contradiction
        · contradiction
        · contradiction
        · exact reads_pure .none
    | _ => exact reads_pure .none

lemma reads_compound (ctx : Context) (isFirst : Bool) (hi : i ≤ ts.length) :
    Reads (Left ts i) (compound nested ctx ts isFirst i)
      (Selector.compound nested' ctx ((ts.getLast?.map Token.span).getD .none) isFirst (ts.drop i)) := by
  induction hn : ts.length - i using Nat.strongRecOn generalizing i isFirst with
  | ind n ih =>
    rw [compound,compound_eq]
    refine (reads_simple? h ctx isFirst i).elim reads_throw fun found found' hf _ => ?_
    rw [pure_bind]
    cases hf with
    | none => exact reads_pure ⟨rfl,Nat.le_refl _,hi,rfl⟩
    | @some found found' hlf =>
      obtain ⟨ps,next⟩ := found
      obtain ⟨ps',rest⟩ := found'
      obtain ⟨rfl,⟨hle,hl⟩,rfl⟩ := hlf.spec
      dsimp only
      rw [onward_eq ⟨hle,hl⟩]
      refine (ih (ts.length - next) (by omega) false hl rfl).elim reads_throw ?_
      rintro ⟨more,stop⟩ ⟨more',rest⟩ hlf' -
      obtain ⟨rfl,⟨hle',hl'⟩,rfl⟩ := hlf'.spec
      exact reads_pure ⟨rfl,Nat.le_trans (Nat.le_of_lt hle) hle',hl',rfl⟩

lemma reads_compounds (ctx : Context) (hi : i ≤ ts.length) : Reads Eq (compounds nested ctx ts i)
      (Selector.compounds nested' ctx ((ts.getLast?.map Token.span).getD .none) (ts.drop i)) := by
  induction hn : ts.length - i using Nat.strongRecOn generalizing i with
  | ind n ih =>
    rw [compounds,compounds_eq]
    refine (reads_compound h ctx true hi).elim reads_throw ?_
    rintro ⟨ps,stop⟩ ⟨ps',rest⟩ hl hy
    obtain ⟨rfl,⟨hle,hln⟩,rfl⟩ := hl.spec
    rw [pure_bind]
    cases ps with
    | nil => exact reads_blame rfl _
    | cons part ps =>
      -- A compound that is not empty moves the cursor on.
      have hm : i < stop := by
        have hsh := (length_compound hy).2 (cons_ne_nil part ps)
        rw [length_drop,length_drop] at hsh; omega
      obtain ⟨next,hs,⟨hnx,hnx'⟩,hb⟩ := skipBlank_spec ts hln
      dsimp only
      rw [if_neg (by simp),hs,pure_bind,hb]
      obtain ⟨hd,hg,-⟩ | ⟨t,hd,hg,hlt⟩ := drop_cases ts next
      · rw [hg,hd]
        exact reads_pure rfl
      · rw [hg,hd]
        dsimp only
        cases hc : combinator? t with
        | some c =>
          obtain ⟨start,hs',⟨hst,hst'⟩,hb'⟩ := skipBlank_spec ts hlt
          dsimp only
          rw [hs',pure_bind,onward_eq ⟨by omega,hst'⟩,hb']
          exact (ih (ts.length - start) (by omega) hst' rfl).elim_eq reads_throw fun _ _ => reads_pure rfl
        | none =>
          dsimp only
          rw [head?_drop]
          split
          · rw [onward_eq ⟨by omega,hnx'⟩,← hd]
            exact (ih (ts.length - next) (by omega) hnx' rfl).elim_eq reads_throw fun _ _ => reads_pure rfl
          · exact reads_blame hd _

lemma reads_complex (ctx : Context) : Reads Eq (complex nested ctx ts) (Selector.complex nested' ctx ts) := by
  rw [complex,Selector.complex]
  obtain ⟨i,hs,⟨-,hi⟩,hb⟩ := skipBlank_spec ts (zero_le _)
  rw [drop_zero] at hb
  rw [hs,pure_bind,hb]
  obtain ⟨hd,hg,-⟩ | ⟨t,hd,hg,hlt⟩ := drop_cases ts i
  · have hr := reads_compounds h ctx hi
    rw [hd] at hr
    rw [hg,hd]
    exact hr
  · rw [hg,hd]
    dsimp only [bind_some]
    cases hc : combinator? t with
    | none =>
      have hr := reads_compounds h ctx hi
      rw [hd] at hr
      exact hr
    | some c =>
      dsimp only
      split
      · obtain ⟨start,hs',⟨-,hst⟩,hb'⟩ := skipBlank_spec ts hlt
        rw [hs',pure_bind,hb']
        exact (reads_compounds h ctx hst).elim_eq reads_throw fun _ _ => reads_pure rfl
      · exact reads_blame hd _

lemma reads_selectorWith (ctx : Context) : Reads Eq (selectorWith nested ctx ts) (parseWith nested' ctx ts) := by
  rw [selectorWith,parseWith]
  refine reads_bind (reads_complex h ctx) fun s s' hs => ?_
  subst hs
  exact reads_ofExcept _

end

lemma reads_selector {depth : Nat} (ctx : Context) (hd : ts.length < depth) :
    Reads Eq (selector ctx ts) (parseDeep depth ctx ts) := by
  induction depth generalizing ctx ts with
  | zero => omega
  | succ depth ih =>
    rw [selector,parseDeep]
    refine reads_selectorWith (fun ctx part hp => ?_) ctx
    rw [dif_pos hp]
    exact ih ctx (by omega)

lemma selectors_eq (ctx : Context) (ts : List Token) : selectors ctx ts = MonadExcept.ofExcept (parseAll ctx ts) :=
  (reads_selectorsWith ctx fun ctx _ hp => reads_selector ctx (lt_succ_of_le hp)).eq_ofExcept

end Css.Cursor
