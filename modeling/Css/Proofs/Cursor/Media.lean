import Css.Media.Parser
import Css.Proofs.Cursor.Value

/-!
# Media queries under a cursor

The parser of media queries as one that moves a cursor over the tokens that are no white space.
-/
namespace Css.Cursor
open List Token Media CheckM Nat Option

def significant (ts : List Token) : List Token := ts.filter fun t => !t.isBlank

def queryFault (ts : List Token) (i : Nat) : Fault := .parse .invalidMediaQuery
    ((((significant ts)[i]?.or ts.getLast?).map Token.span).getD .none)

def keywordAt? (ts : List Token) (i : Nat) : Option String := match (significant ts)[i]? with
  | some t => if t.kind == .ident then some t.keyword else none
  | none => none

/-- The index of the token that closes the last of `depth` parentheses, if `i` is that of the first
token. -/
def closingParen (depth i : Nat) : List Token → CheckM (Option Nat)
  | [] => return none
  | t :: rest =>
    match t.kind with
    | .function | .leftParen | .leftBracket => closingParen (depth + 1) (i + 1) rest
    | .rightParen | .rightBracket => do
      let depth ← pred depth
      if depth = 0 then return some i else closingParen depth (i + 1) rest
    | _ => closingParen depth (i + 1) rest

def originalIndex (ts : List Token) (i : Nat) : CheckM Nat := do
  let t ← token (significant ts) i
  return (ts.findIdx? fun u => u.span == t.span).getD 0

/-! ## Features -/

def equalAfter (ts : List Token) (i : Nat) : Bool := ts[i + 1]?.any fun t => t.isDelim '='

def comparisonEnd (ts : List Token) (t : Token) (i : Nat) : Nat :=
  if equalAfter ts i && !t.isDelim '=' then i + 2 else i + 1

/-- The tokens from `start` on before the first sign of comparison from `i` on, and each sign with the
tokens after it. -/
def segmentsFrom (ts : List Token) (start i : Nat) : CheckM (List Token × List (Comparison × List Token)) := do
  if i < ts.length then
    let t ← token ts i
    match comparison? t (equalAfter ts i) with
    | none => onward ts.length i (i + 1) fun _ => segmentsFrom ts start (i + 1)
    | some c =>
      let part ← slice ts start i
      onward ts.length i (comparisonEnd ts t i) fun _ => do
        let (after,more) ← segmentsFrom ts (comparisonEnd ts t i) (comparisonEnd ts t i)
        return (part,(c,after) :: more)
  else return (← slice ts start ts.length,[])
termination_by ts.length - i
decreasing_by all_goals omega

def rangeFeature (file : SourceFile) (fault : Fault) (ts : List Token) : CheckM (Option MediaFeature) := do
  let (first,more) ← segmentsFrom ts 0 0
  let first := trimBlank first
  let more := more.map fun (c,part) => (c,trimBlank part)
  if first.isEmpty || more.any (fun (_,part) => part.isEmpty) then return none
  else
    match more with
    | [(c,second)] =>
      match featureName? first, featureName? second with
      | some name, _ => do
        return some (.range name c (← value file false second))
      | none, some name => do
        return some (.range name c.flip (← value file false first))
      | none, none => throw fault
    | [(c,second),(d,third)] =>
      match featureName? second with
      | none => throw fault
      | some name =>
        if c.isAscending != d.isAscending || c == .equal || d == .equal then throw fault
        else do
          let start ← value file false first
          return some (.interval start c name d (← value file false third))
    | _ => return none

def feature (file : SourceFile) (fault : Fault) (inner : List Token) : CheckM (Option MediaFeature) := do
  let ts := trimBlank inner
  let words := significant ts
  if words.length = 1 && words.head?.any fun t => t.kind == .ident then
    let name ← token words 0
    let isCustom := Text.startsWith name.name "--"
    return some (.boolean (if isCustom then name.name else name.keyword))
  else if 2 ≤ words.length then
    let name ← token words 0
    let second ← token words 1
    if name.kind == .ident && second.kind == .colon then
      let colon := (ts.findIdx? fun t => t.kind == .colon).getD 0
      let part := trimBlank (← slice ts (colon + 1) ts.length)
      if part.isEmpty then throw fault
      else return some (.plain name.keyword (← value file false part))
    else rangeFeature file fault ts
  else rangeFeature file fault ts

/-! ## Conditions -/

section
variable (file : SourceFile) (nested : List Token → CheckM MediaCondition) (ts : List Token)

def inParens (i : Nat) : CheckM (MediaCondition × Nat) := match (significant ts)[i]? with
  | none => throw (queryFault ts i)
  | some t => do
    if t.kind == .leftParen || t.kind == .function then
      match ← closingParen 0 i ((significant ts).drop i) with
      | none => throw (queryFault ts i)
      | some j =>
        let start ← originalIndex ts i
        let stop ← originalIndex ts j
        let inner ← slice ts (start + 1) stop
        if t.kind == .function then
          return (.unknown (plainText (← slice ts start (stop + 1))),j + 1)
        else if startsCondition inner then return (← nested inner,j + 1)
        else
          match ← feature file (queryFault ts (j + 1)) inner with
          | some f => return (.feature f,j + 1)
          | none => return (.unknown (plainText (← slice ts start (stop + 1))),j + 1)
    else throw (queryFault ts i)

def operands (allowOr : Bool) (connective : Option Connective) (i : Nat) :
    CheckM ((Option Connective × List MediaCondition) × Nat) :=
  match keywordAt? ts i with
  | none => return ((connective,[]),i)
  | some word =>
    match connective? allowOr word with
    | none => throw (queryFault ts i)
    | some next => do
      if connective.any (· != next) then throw (queryFault ts i)
      else
        let (c,j) ← inParens file nested ts (i + 1)
        onward (significant ts).length i j fun _ => do
          let ((connective,more),stop) ← operands allowOr (some next) j
          return ((connective,c :: more),stop)
termination_by (significant ts).length - i
decreasing_by omega

def condition (allowOr : Bool) (i : Nat) : CheckM (MediaCondition × Nat) := do
  if keywordAt? ts i == some "not" then
    let (c,j) ← inParens file nested ts (i + 1)
    return (.negation c,j)
  else
    let (c,j) ← inParens file nested ts i
    match ← operands file nested ts allowOr none j with
    | ((some connective,more),stop) => return (.operation connective (c :: more),stop)
    | ((none,_),stop) => return (c,stop)

def conditionWith : CheckM MediaCondition := do
  let (c,i) ← condition file nested ts true 0
  if (significant ts)[i]?.isNone then return c else throw (queryFault ts i)

end

def mediaCondition (file : SourceFile) (ts : List Token) : CheckM MediaCondition := conditionWith file (fun inner =>
    if _h : inner.length < ts.length then mediaCondition file inner else breach .stuck) ts
termination_by ts.length

/-! ## Queries -/

def qualifierOf (ts : List Token) : Option Qualifier × Nat := if keywordAt? ts 0 == some "not" then
    if (keywordAt? ts 1).isSome then (some .not,1) else (none,0)
  else if keywordAt? ts 0 == some "only" then (some .only,1)
  else (none,0)

def mediaQuery (file : SourceFile) (ts : List Token) : CheckM MediaQuery := do
  let (qualifier,i) := qualifierOf ts
  let (query,i) ←
    match keywordAt? ts i with
    | some word => do
      if word == "not" then
        let (c,j) ← condition file (mediaCondition file) ts true i
        pure (⟨qualifier,none,some c⟩,j)
      else if reserved.contains word then throw (queryFault ts i)
      else if (significant ts)[i + 1]?.isNone then pure (⟨qualifier,some word,none⟩,i + 1)
      else if keywordAt? ts (i + 1) == some "and" then
        let (c,j) ← condition file (mediaCondition file) ts false (i + 2)
        pure (⟨qualifier,some word,some c⟩,j)
      else throw (queryFault ts (i + 1))
    | none => do
      if qualifier.isSome then throw (queryFault ts i)
      else
        let (c,j) ← condition file (mediaCondition file) ts true i
        pure ((⟨qualifier,none,some c⟩ : MediaQuery),j)
  if (significant ts)[i]?.isNone then return query else throw (queryFault ts i)

def mediaList (file : SourceFile) (ts : List Token) : CheckM MediaList := do
  (← commaSlices (trimBlank ts)).mapM (mediaQuery file)

/-! ## Cursors beside white space -/

lemma significant_append (ts rest : List Token) : significant (ts ++ rest) = significant ts ++ significant rest :=
  filter_append ..

variable {t : Token} {ts rest post : List Token} {i : Nat}

lemma significant_cons (ht : t.isBlank = false) (rest : List Token) : significant (t :: rest) = t :: significant rest :=
  filter_cons_of_pos (by simp [ht])

lemma dropBlank_cases (ts : List Token) : (dropBlank ts = [] ∧ significant ts = []) ∨
      ∃ t rest, dropBlank ts = t :: rest ∧ t.isBlank = false ∧ significant ts = t :: significant rest := by
  induction ts with
  | nil => exact .inl ⟨rfl,rfl⟩
  | cons t rest ih =>
    by_cases ht : t.isBlank
    · have hdr : dropBlank (t :: rest) = dropBlank rest := dropWhile_cons_of_pos ht
      have hw : significant (t :: rest) = significant rest := filter_cons_of_neg (by simp [ht])
      rw [hdr,hw]
      exact ih
    · have hb : t.isBlank = false := by simpa using ht
      exact .inr ⟨t,rest,dropWhile_cons_of_neg ht,hb,significant_cons hb rest⟩

structure Beside (ts : List Token) (i : Nat) (rest : List Token) : Prop where
  le_length : i ≤ (significant ts).length
  suffix : rest <:+ ts
  words : significant rest = (significant ts).drop i

lemma beside_start (ts : List Token) : Beside ts 0 ts := ⟨zero_le _,suffix_refl _,rfl⟩

lemma Beside.cases (h : Beside ts i rest) : (dropBlank rest = [] ∧ (significant ts)[i]? = none) ∨
      ∃ t post, dropBlank rest = t :: post ∧ t.isBlank = false ∧
        (significant ts)[i]? = some t ∧ Beside ts (i + 1) post := by
  obtain ⟨hdr,hw⟩ | ⟨t,post,hdr,ht,hw⟩ := dropBlank_cases rest
  · refine .inl ⟨hdr,List.getElem?_eq_none (drop_eq_nil_iff.mp ?_)⟩
    rw [← h.words,hw]
  · have hc : (significant ts).drop i = t :: significant post := h.words.symm.trans hw
    obtain ⟨hg,hn,hlt⟩ := eq_of_drop_eq_cons hc
    have ha : post <:+ rest := (suffix_cons t post).trans (hdr ▸ dropWhile_suffix _)
    exact .inr ⟨t,post,hdr,ht,hg,hlt,ha.trans h.suffix,hn.symm⟩

lemma Beside.queryFault_eq (h : Beside ts i rest) : queryFault ts i = faultAt (lastSpan ts) rest := by
  obtain ⟨hdr,hg⟩ | ⟨t,post,hdr,-,hg,-⟩ := h.cases
  · rw [queryFault,faultAt,hdr,hg]; rfl
  · rw [queryFault,faultAt,hdr,hg]; rfl

lemma Beside.keyword_cases (h : Beside ts i rest) : (keyword? rest = none ∧ keywordAt? ts i = none) ∨
      ∃ word post, keyword? rest = some (word,post) ∧ keywordAt? ts i = some word ∧ Beside ts (i + 1) post := by
  rw [keyword?,keywordAt?]
  obtain ⟨hdr,hg⟩ | ⟨t,post,hdr,-,hg,ha⟩ := h.cases
  · rw [hdr,hg]
    exact .inl ⟨rfl,rfl⟩
  · rw [hdr,hg]
    dsimp only
    split
    · exact .inr ⟨t.keyword,post,rfl,rfl,ha⟩
    · exact .inl ⟨rfl,rfl⟩

lemma Beside.of_keyword? {word : String} (h : Beside ts i rest) (hw : keyword? rest = some (word,post)) :
    keywordAt? ts i = some word ∧ Beside ts (i + 1) post := by
  obtain ⟨hn,-⟩ | ⟨found,more,hs,hf,hm⟩ := h.keyword_cases
  · rw [hn] at hw; cases hw
  · rw [hs] at hw; cases hw
    exact ⟨hf,hm⟩

lemma Beside.not_keyword {word : String} (h : Beside ts i rest)
    (hw : ∀ post, keyword? rest = some (word,post) → False) :
    ¬(keywordAt? ts i == some word) := by
  obtain ⟨-,hn⟩ | ⟨found,more,hs,hf,-⟩ := h.keyword_cases
  · simp [hn]
  · rw [hf]
    intro heq
    obtain rfl : found = word := by simpa using heq
    exact hw more hs

lemma Beside.isSome_keyword (h : Beside ts i rest) : (keywordAt? ts i).isSome = (keyword? rest).isSome := by
  obtain ⟨hn,hn'⟩ | ⟨word,more,hs,hs',-⟩ := h.keyword_cases
  · rw [hn,hn']; rfl
  · rw [hs,hs']; rfl

lemma Beside.isNone_eq (h : Beside ts i rest) : (significant ts)[i]?.isNone = (dropBlank rest).isEmpty := by
  obtain ⟨hdr,hg⟩ | ⟨t,post,hdr,-,hg,-⟩ := h.cases
  · rw [hdr,hg]; rfl
  · rw [hdr,hg]; rfl

/-! ## Parentheses -/

lemma closingParen_eq {depth : Nat} (hdp : 0 < depth) (i : Nat) (ts : List Token) :
    closingParen depth i ts = pure ((splitParens depth ts).map fun parts => i + parts.1.length) := by
  induction ts generalizing depth i with
  | nil => rfl
  | cons t rest ih =>
    have hn {depth : Nat} (hd : 0 < depth) : closingParen depth (i + 1) rest =
        pure (((splitParens depth rest).map fun parts => (t :: parts.1,parts.2)).map
          fun parts => i + parts.1.length) := by
      rw [ih hd,Option.map_map]
      congr 2
      funext parts
      simp only [Function.comp,length_cons]
      omega
    have hc : (do
          let depth ← pred depth
          if depth = 0 then return some i else closingParen depth (i + 1) rest) =
        pure ((if depth ≤ 1 then some ([],rest)
          else (splitParens (depth - 1) rest).map fun parts => (t :: parts.1,parts.2)).map
            fun parts => i + parts.1.length) := by
      rw [pred_eq hdp,pure_bind]
      by_cases hd : depth ≤ 1
      · rw [if_pos (by omega),if_pos hd]; rfl
      · rw [if_neg (by omega),if_neg hd]
        exact hn (by omega)
    rw [closingParen,splitParens]
    cases hk : t.kind <;> first
      | exact hn (succ_pos depth)
      | exact hc
      | exact hn hdp

lemma splitParens_significant (depth : Nat) (ts : List Token) : splitParens depth (significant ts) =
      (splitParens depth ts).map fun parts => (significant parts.1,significant parts.2) := by
  induction ts generalizing depth with
  | nil => rfl
  | cons t rest ih =>
    by_cases ht : t.isBlank
    · have hkn : t.kind = .whitespace := by simpa [isBlank] using ht
      have hw (inner : List Token) : significant (t :: inner) = significant inner := filter_cons_of_neg (by simp [ht])
      rw [hw,ih,splitParens,hkn,Option.map_map]
      congr 1
      funext parts
      simp only [Function.comp,hw]
    · have hw := significant_cons (t := t) (by simpa using ht)
      have hn (depth : Nat) : (splitParens depth (significant rest)).map (fun parts => (t :: parts.1,parts.2)) =
            ((splitParens depth rest).map fun parts => (t :: parts.1,parts.2)).map
              fun parts => (significant parts.1,significant parts.2) := by
        rw [ih,Option.map_map,Option.map_map]
        congr 1
        funext parts
        simp only [Function.comp,hw]
      have hc : (if depth ≤ 1 then some ([],significant rest)
            else (splitParens (depth - 1) (significant rest)).map fun parts => (t :: parts.1,parts.2)) =
          (if depth ≤ 1 then some ([],rest)
            else (splitParens (depth - 1) rest).map fun parts => (t :: parts.1,parts.2)).map
              fun parts => (significant parts.1,significant parts.2) := by
        split
        · rfl
        · exact hn (depth - 1)
      rw [hw,splitParens,splitParens]
      cases hk : t.kind <;> first
        | exact hn _
        | exact hc

lemma closingParen_opening (ht : (t.kind == .leftParen || t.kind == .function)) (i : Nat) (ts : List Token) :
    closingParen 0 i (t :: significant ts) =
      pure ((splitParens 1 ts).map fun parts => i + 1 + (significant parts.1).length) := by
  have ho : closingParen 0 i (t :: significant ts) = closingParen 1 (i + 1) (significant ts) := by
    rw [closingParen]
    simp only [Bool.or_eq_true,beq_iff_eq] at ht
    obtain hk | hk := ht <;> rw [hk]
  rw [ho,closingParen_eq Nat.one_pos,splitParens_significant,Option.map_map]; rfl

/-! ## Features -/

lemma splitComparisons_cons (t : Token) (rest : List Token) : splitComparisons (t :: rest) =
      match comparison? t (rest.head?.any fun u => u.isDelim '=') with
      | none => (t :: (splitComparisons rest).1,(splitComparisons rest).2)
      | some c =>
        let next := if (rest.head?.any fun u => u.isDelim '=') && !t.isDelim '=' then rest.tail else rest
        ([],(c,(splitComparisons next).1) :: (splitComparisons next).2) := by
  cases rest with
  | nil =>
    dsimp only [List.head?_nil,any_none]
    cases hc : comparison? t false <;> simp [splitComparisons,hc]
  | cons u rest =>
    cases hu : u.isDelim '=' <;> cases ht : t.isDelim '=' <;>
      cases hc : comparison? t (u.isDelim '=') <;> rw [hu] at hc <;>
      simp [splitComparisons,hu,ht,hc]

lemma equalAfter_eq (ts : List Token) (i : Nat) :
    equalAfter ts i = (ts.drop (i + 1)).head?.any fun u => u.isDelim '=' := by
  rw [equalAfter,List.head?_drop]

lemma comparisonEnd_spec (hi : i < ts.length) :
    (i < comparisonEnd ts t i ∧ comparisonEnd ts t i ≤ ts.length) ∧ ts.drop (comparisonEnd ts t i) =
        if equalAfter ts i && !t.isDelim '=' then (ts.drop (i + 1)).tail
        else ts.drop (i + 1) := by
  rw [comparisonEnd]
  by_cases h : (equalAfter ts i && !t.isDelim '=')
  · have hn : i + 1 < ts.length := by
      rw [Bool.and_eq_true,equalAfter,Option.any_eq_true] at h
      obtain ⟨⟨u,hu,-⟩,-⟩ := h
      exact (List.getElem?_eq_some_iff.mp hu).1
    rw [if_pos h,if_pos h,tail_drop]
    exact ⟨⟨by omega,by omega⟩,rfl⟩
  · rw [if_neg h,if_neg h]
    exact ⟨⟨by omega,hi⟩,rfl⟩

lemma segmentsFrom_eq (ts : List Token) {start : Nat} (hs : start ≤ i) (hi : i ≤ ts.length) :
    segmentsFrom ts start i =
      pure ((ts.drop start).take (i - start) ++ (splitComparisons (ts.drop i)).1,
        (splitComparisons (ts.drop i)).2) := by
  induction hn : ts.length - i using Nat.strongRecOn generalizing start i with
  | ind n ih =>
    rw [segmentsFrom]
    obtain ⟨hdr,hg,hl⟩ | ⟨t,hdr,hg,hlt⟩ := drop_cases ts i
    · have he : i = ts.length := Nat.le_antisymm hi hl
      rw [if_neg (by omega),hdr,← he,slice_eq hs hi,pure_bind]
      simp [splitComparisons]
    · rw [if_pos hlt,token_eq hg,pure_bind,hdr,splitComparisons_cons,← equalAfter_eq]
      cases hc : comparison? t (equalAfter ts i) with
      | none =>
        have hp : (ts.drop start).take (i + 1 - start) = (ts.drop start).take (i - start) ++ [t] := by
          rw [Nat.succ_sub hs,take_add_one,List.getElem?_drop,Nat.add_sub_cancel' hs,hg]; rfl
        have hm : i < i + 1 ∧ i + 1 ≤ ts.length := ⟨Nat.lt_succ_self i,hlt⟩
        dsimp only
        rw [onward_eq hm,ih (ts.length - (i + 1)) (by omega) (Nat.le_succ_of_le hs) hlt rfl,hp,append_assoc]
        rfl
      | some c =>
        obtain ⟨hm,hnx⟩ := comparisonEnd_spec (t := t) hlt
        dsimp only
        rw [slice_eq hs hi,pure_bind,onward_eq hm,
          ih (ts.length - comparisonEnd ts t i) (by omega) (Nat.le_refl _) hm.2 rfl,
          pure_bind,hnx,Nat.sub_self,take_zero,nil_append,append_nil]

lemma reads_rangeFeature (file : SourceFile) (fault : Fault) (ts : List Token) :
    Reads Eq (rangeFeature file fault ts) (rangeFeature? file fault ts) := by
  have hs : segmentsFrom ts 0 0 = pure (splitComparisons ts) := by
    rw [segmentsFrom_eq ts (Nat.le_refl 0) (Nat.zero_le _)]; rfl
  rw [rangeFeature,rangeFeature?,hs,pure_bind]
  dsimp only
  generalize trimBlank (splitComparisons ts).1 = first
  generalize (splitComparisons ts).2.map (fun (c,part) => (c,trimBlank part)) = more
  split
  · exact reads_pure rfl
  · obtain _ | ⟨⟨c,second⟩,_ | ⟨⟨d,third⟩,_ | _⟩⟩ := more
    · exact reads_pure rfl
    · dsimp only
      cases featureName? first with
      | some name => exact (reads_value file false second).elim_eq reads_throw fun _ _ => reads_pure rfl
      | none =>
        cases featureName? second with
        | none => exact reads_throw fault
        | some name => exact (reads_value file false first).elim_eq reads_throw fun _ _ => reads_pure rfl
    · dsimp only
      cases featureName? second with
      | none => exact reads_throw fault
      | some name =>
        dsimp only
        split
        · exact reads_throw fault
        · refine (reads_value file false first).elim_eq reads_throw fun start _ => ?_
          exact (reads_value file false third).elim_eq reads_throw fun _ _ => reads_pure rfl
    · exact reads_pure rfl

lemma not_isBlank_of_trimBlank (h : trimBlank ts = t :: rest) : t.isBlank = false := by
  obtain ⟨more,hm⟩ := isPrefix_trimBlank ts
  rw [h,cons_append] at hm
  obtain ⟨hdr,-⟩ | ⟨u,post,hdr,hu,-⟩ := dropBlank_cases ts
  · rw [hdr] at hm; cases hm
  · rw [hdr] at hm; cases hm
    exact hu

lemma slice_afterColon {u : Token} (ht : t.kind ≠ .colon)
    (hr : dropBlank rest = u :: post) (hu : u.kind = .colon) :
    slice (t :: rest) ((((t :: rest).findIdx? fun t => t.kind == .colon).getD 0) + 1)
      (t :: rest).length = pure post := by
  have hs : rest = rest.takeWhile isBlank ++ u :: post := by
    rw [← hr]
    exact takeWhile_append_dropWhile.symm
  have ha := all_eq_true.mp (all_takeWhile (l := rest) (p := isBlank))
  generalize rest.takeWhile isBlank = blank at hs ha
  have hb : blank.findIdx? (fun t => t.kind == .colon) = none := by
    refine List.findIdx?_eq_none_iff.mpr fun v hv => ?_
    have hk : v.kind = .whitespace := by simpa [isBlank] using ha v hv
    rw [hk]; rfl
  have hf : (t :: rest).findIdx? (fun t => t.kind == .colon) = some (blank.length + 1) := by
    rw [hs,List.findIdx?_cons,if_neg (by simpa using ht),List.findIdx?_append,hb,
      List.findIdx?_cons,if_pos (by simpa using hu)]
    simp
  have hp : t :: rest = (t :: blank ++ [u]) ++ post ++ [] := by simp [hs]
  rw [hf]
  refine slice_part hp (by simp) ?_
  simp [hs]
  omega

lemma reads_feature (file : SourceFile) (fault : Fault) (inner : List Token) :
    Reads Eq (feature file fault inner) (feature? file fault inner) := by
  rw [feature,feature?]
  cases htr : trimBlank inner with
  | nil =>
    have hr := reads_rangeFeature file fault []
    exact hr
  | cons t rest =>
    have ht := not_isBlank_of_trimBlank htr
    dsimp only
    rw [significant_cons ht]
    obtain ⟨hdr,hw⟩ | ⟨u,post,hdr,hu,hw⟩ := dropBlank_cases rest
    · rw [hw,hdr]
      by_cases hi : (t.kind == .ident)
      · rw [if_pos (by simpa using hi),if_pos hi,token_eq rfl,pure_bind]
        exact reads_pure rfl
      · rw [if_neg (by simpa using hi),if_neg (by simp),if_neg hi]
        exact reads_rangeFeature file fault (t :: rest)
    · rw [hw,hdr,if_neg (by simp),if_pos (by simp),token_eq rfl,pure_bind,token_eq rfl,pure_bind]
      by_cases hi : (t.kind == .ident)
      · have hk : t.kind ≠ .colon := by
          rw [beq_iff_eq.mp hi]
          exact Kind.noConfusion
        rw [if_pos hi]
        dsimp only
        by_cases hc : (u.kind == .colon)
        · rw [if_pos (by simp [hi,hc]),if_pos hc,slice_afterColon hk hdr (beq_iff_eq.mp hc),pure_bind]
          split
          · exact reads_throw fault
          · exact (reads_value file false (trimBlank post)).elim_eq reads_throw fun _ _ => reads_pure rfl
        · rw [if_neg (by simp [hc]),if_neg hc]
          exact reads_rangeFeature file fault (t :: rest)
      · rw [if_neg (by simp [hi]),if_neg hi]
        exact reads_rangeFeature file fault (t :: rest)

/-! ## Conditions -/

abbrev Distinct (ts : List Token) : Prop := ts.Pairwise fun t u => t.span ≠ u.span

lemma originalIndex_eq {pre : List Token} (hd : Distinct ts) (htk : ts = pre ++ t :: rest) (ht : t.isBlank = false)
    (hi : i = (significant pre).length) : originalIndex ts i = pure pre.length := by
  have hw : (significant ts)[i]? = some t := by
    rw [htk,significant_append,significant_cons ht,hi]
    simp
  have hb : pre.findIdx? (fun u => u.span == t.span) = none := by
    refine List.findIdx?_eq_none_iff.mpr fun u hu => ?_
    rw [htk] at hd
    have hne := (pairwise_append.mp hd).2.2 u hu t mem_cons_self
    simpa using hne
  rw [originalIndex,token_eq hw,pure_bind,htk,List.findIdx?_append,hb,List.findIdx?_cons,if_pos (beq_self_eq_true _)]
  simp

lemma slice_parens {pre inner more : List Token} {c : Token} {start stop : Nat}
    (ht : ts = pre ++ t :: (inner ++ c :: more)) (hs : start = pre.length)
    (hst : stop = (pre ++ t :: inner).length) :
    slice ts (start + 1) stop = pure inner ∧ slice ts start (stop + 1) =
        pure ((t :: (inner ++ c :: more)).take (inner.length + 2)) := by
  have hi : ts = (pre ++ [t]) ++ inner ++ c :: more := by simp [ht]
  have hw : ts = pre ++ (t :: (inner ++ [c])) ++ more := by simp [ht]
  have htk : (t :: (inner ++ c :: more)).take (inner.length + 2) = t :: (inner ++ [c]) := by
    rw [take_succ_cons,take_length_add_append]; rfl
  rw [htk]
  simp only [length_append,length_cons] at hst
  refine ⟨slice_part hi ?_ ?_,slice_part hw hs ?_⟩
  · simp [hs]
  · omega
  · simp only [length_cons,length_append,length_nil]
    omega

abbrev Agrees {α : Type} (ts : List Token) (x : α × Nat) (y : α × List Token) : Prop := x.1 = y.1 ∧ Beside ts x.2 y.2

structure Passed {α : Type} (ts : List Token) (i : Nat) (x : α × Nat)
    (y : α × List Token) : Prop where
  result : x.1 = y.1
  lt : i < x.2
  beside : Beside ts x.2 y.2

lemma Beside.before (h : Beside ts i rest) (hr : dropBlank rest = t :: post) :
    t.isBlank = false ∧ Beside ts (i + 1) post ∧
      ∃ pre, ts = pre ++ t :: post ∧ i = (significant pre).length := by
  obtain ⟨pre,hb⟩ : dropBlank rest <:+ ts := (dropWhile_suffix _).trans h.suffix
  obtain ⟨hdr,-⟩ | ⟨u,more,hdr,ht,-,ha⟩ := h.cases
  · rw [hdr] at hr; cases hr
  · rw [hdr] at hr; cases hr
    rw [hdr] at hb
    refine ⟨ht,ha,pre,hb.symm,?_⟩
    have hle := ha.le_length
    have hw := congrArg List.length ha.words
    rw [length_drop] at hw
    rw [← hb,significant_append,significant_cons ht] at hle hw
    simp only [length_append,length_cons] at hle hw
    omega

lemma beside_behind {pre : List Token} (htk : ts = pre ++ t :: post) (ht : t.isBlank = false) :
    Beside ts ((significant pre).length + 1) post := by
  have hw : significant ts = significant pre ++ t :: significant post := by
    rw [htk,significant_append,significant_cons ht]
  refine ⟨?_,⟨pre ++ [t],by simp [htk]⟩,?_⟩
  · rw [hw]
    simp
  · rw [hw,drop_length_add_append]; rfl

lemma faultAt_dropBlank (last : Span) (rest : List Token) : faultAt last (dropBlank rest) = faultAt last rest := by
  have hdr : dropBlank (dropBlank rest) = dropBlank rest := by
    obtain ⟨hn,-⟩ | ⟨t,post,hc,ht,-⟩ := dropBlank_cases rest
    · rw [hn]; rfl
    · rw [hc]
      exact dropWhile_cons_of_neg (by simp [ht])
  rw [faultAt,faultAt,hdr]

lemma operands_eq (file : SourceFile) (nested : Nested) (last : Span) (allowOr : Bool)
    (connective : Option Connective) (ts : List Token) :
    Media.operands file nested last allowOr connective ts = match keyword? ts with
      | none => .ok (connective,[],ts)
      | some (word,rest) =>
        match connective? allowOr word with
        | none => .error (faultAt last ts)
        | some next =>
          if connective.any (· != next) then .error (faultAt last ts)
          else
            Media.inParens file nested last rest >>= fun found =>
              Media.operands file nested last allowOr (some next) found.2 >>= fun more =>
                .ok (more.1,found.1 :: more.2.1,more.2.2) := by
  rw [Media.operands.eq_def]
  split
  · next h => rw [h]
  · next word rest h =>
      simp only [h]
      cases connective? allowOr word with
      | none => rfl
      | some next =>
        dsimp only
        split
        · rfl
        · split
          · next hp =>
              rw [hp]; rfl
          · next c more hp =>
              rw [hp]
              change _ = (Media.operands file nested last allowOr (some next) more >>= _)
              cases Media.operands file nested last allowOr (some next) more <;> rfl

section
variable {file : SourceFile} {nested : List Token → CheckM MediaCondition} {nested' : Nested}
  {ts : List Token} (hd : Distinct ts)
  (hnested : ∀ inner, inner.Sublist ts → inner.length < ts.length → Reads Eq (nested inner) (nested' inner))

include hd hnested

variable {rest : List Token} {i : Nat}

lemma reads_inParens (h : Beside ts i rest) : Reads (Passed ts i) (inParens file nested ts i)
      (Media.inParens file nested' (lastSpan ts) rest) := by
  rw [inParens,Media.inParens,h.queryFault_eq,← faultAt_dropBlank]
  obtain ⟨hdr,hg⟩ | ⟨t,post,hdr,-,hg,-⟩ := h.cases
  · rw [hdr,hg]
    exact reads_throw _
  · obtain ⟨ht,ha,pre,htk,hi⟩ := h.before hdr
    rw [hdr,hg]
    dsimp only
    by_cases ho : (t.kind == .leftParen || t.kind == .function)
    · have hw : (significant ts).drop i = t :: significant post := by
        rw [htk,significant_append,significant_cons ht,hi]
        exact drop_left
      rw [if_pos ho,if_pos ho,hw,closingParen_opening ho,pure_bind]
      cases hs : splitParens 1 post with
      | none => exact reads_throw _
      | some parts =>
        obtain ⟨inner,more⟩ := parts
        obtain ⟨c,hck,rfl⟩ := eq_of_splitParens hs
        have hc : c.isBlank = false := by rcases hck with hk | hk <;> rw [isBlank,hk] <;> rfl
        have hst := originalIndex_eq hd htk ht hi
        have hpr : ts = (pre ++ t :: inner) ++ c :: more := by simp [htk]
        have hj : i + 1 + (significant inner).length = (significant (pre ++ t :: inner)).length := by
          rw [significant_append,significant_cons ht,length_append,length_cons,hi]; omega
        have hsp := originalIndex_eq hd hpr hc hj
        obtain ⟨hin,hwh⟩ := slice_parens htk rfl rfl
        have hb : Beside ts (i + 1 + (significant inner).length + 1) more := by
          rw [hj]
          exact beside_behind hpr hc
        have hp (a : MediaCondition) : Passed ts i (a,i + 1 + (significant inner).length + 1) (a,more) :=
          ⟨rfl,by dsimp only; omega,hb⟩
        dsimp only [map_some]
        rw [hst,pure_bind,hsp,pure_bind,hin,pure_bind,hwh]
        by_cases hf : (t.kind == .function)
        · rw [if_pos hf,if_pos hf,pure_bind]
          exact reads_pure (hp _)
        · rw [if_neg hf,if_neg hf]
          split
          · have hsb : inner.Sublist ts := by
              rw [htk]
              exact ((sublist_append_left inner _).cons t).trans (sublist_append_right _ _)
            have hl : inner.length < ts.length := by
              rw [htk]
              simp only [length_append,length_cons]
              omega
            exact (hnested inner hsb hl).elim_eq reads_throw fun a _ => reads_pure (hp a)
          · rw [hb.queryFault_eq]
            refine (reads_feature file (faultAt (lastSpan ts) more) inner).elim_eq reads_throw fun found _ => ?_
            cases found <;> exact reads_pure (hp _)
    · rw [if_neg ho,if_neg ho]
      exact reads_throw _

lemma reads_operands (allowOr : Bool) (connective : Option Connective) (h : Beside ts i rest) :
    Reads (fun x y => x.1 = (y.1,y.2.1) ∧ Beside ts x.2 y.2.2) (operands file nested ts allowOr connective i)
      (Media.operands file nested' (lastSpan ts) allowOr connective rest) := by
  induction hn : (significant ts).length - i using Nat.strongRecOn generalizing connective rest i with
  | ind n ih =>
    rw [operands,operands_eq]
    obtain ⟨hw,hw'⟩ | ⟨word,post,hw,hw',ha⟩ := h.keyword_cases
    · rw [hw,hw']
      exact reads_pure ⟨rfl,h⟩
    · rw [hw,hw',h.queryFault_eq]
      dsimp only
      cases connective? allowOr word with
      | none => exact reads_throw _
      | some next =>
        dsimp only
        split
        · exact reads_throw _
        · refine reads_bind (reads_inParens hd hnested ha) ?_
          rintro ⟨c,j⟩ ⟨_,more⟩ hp
          obtain rfl : c = _ := hp.result
          have hle := hp.beside.le_length
          have hlt := hp.lt
          dsimp only at hle hlt ⊢
          rw [onward_eq ⟨by omega,hle⟩]
          refine reads_bind (ih _ (by omega) (some next) hp.beside rfl) ?_
          rintro ⟨⟨connective,more⟩,stop⟩ ⟨_,_,rest⟩ ⟨heq,hb⟩
          cases heq
          exact reads_pure ⟨rfl,hb⟩

lemma reads_condition (allowOr : Bool) (h : Beside ts i rest) : Reads (Agrees ts) (condition file nested ts allowOr i)
      (Media.condition file nested' (lastSpan ts) allowOr rest) := by
  rw [Media.condition]
  split
  · next post hn =>
      obtain ⟨hw,ha⟩ := h.of_keyword? hn
      rw [condition,hw,if_pos (beq_self_eq_true _)]
      refine reads_bind (reads_inParens hd hnested ha) ?_
      rintro ⟨c,j⟩ ⟨_,rest⟩ hp
      obtain rfl : c = _ := hp.result
      exact reads_pure ⟨rfl,hp.beside⟩
  · next hn =>
      rw [condition,if_neg (h.not_keyword hn)]
      refine reads_bind (reads_inParens hd hnested h) ?_
      rintro ⟨c,j⟩ ⟨_,rest⟩ hp
      obtain rfl : c = _ := hp.result
      refine reads_bind (reads_operands hd hnested allowOr none hp.beside) ?_
      rintro ⟨_,stop⟩ ⟨connective,more,rest⟩ ⟨heq,hb⟩
      cases heq
      cases connective with
      | none => exact reads_pure ⟨rfl,hb⟩
      | some connective => exact reads_pure ⟨rfl,hb⟩

lemma reads_conditionWith : Reads Eq (conditionWith file nested ts) (do
      let (c,rest) ← Media.condition file nested' (lastSpan ts) true ts
      if (dropBlank rest).isEmpty then .ok c else .error (faultAt (lastSpan ts) rest)) := by
  rw [conditionWith]
  refine reads_bind (reads_condition hd hnested true (beside_start ts)) ?_
  rintro ⟨c,i⟩ ⟨_,rest⟩ ⟨rfl,hb⟩
  dsimp only at hb ⊢
  rw [hb.isNone_eq,hb.queryFault_eq]
  split
  · exact reads_pure rfl
  · exact reads_throw _

end

lemma reads_mediaCondition (file : SourceFile) (hd : Distinct ts) {depth : Nat} (hdp : ts.length < depth) :
    Reads Eq (mediaCondition file ts) (conditionDeep file depth ts) := by
  induction depth generalizing ts with
  | zero => exact absurd hdp (not_lt_zero _)
  | succ depth ih =>
    rw [mediaCondition,conditionDeep]
    refine reads_conditionWith hd fun inner hi hl => ?_
    rw [dif_pos hl]
    exact ih (hd.sublist hi) (by omega)

/-! ## Queries -/

lemma beside_qualifier (ts : List Token) : (qualifierOf ts).1 = (qualifier ts).1 ∧
      Beside ts (qualifierOf ts).2 (qualifier ts).2 := by
  have hs := beside_start ts
  rw [qualifier]
  split
  · next post hn =>
      obtain ⟨hw,ha⟩ := hs.of_keyword? hn
      rw [qualifierOf,hw,if_pos (beq_self_eq_true _),ha.isSome_keyword]
      split
      · exact ⟨rfl,ha⟩
      · exact ⟨rfl,hs⟩
  · next post ho =>
      obtain ⟨hw,ha⟩ := hs.of_keyword? ho
      rw [qualifierOf,hw,if_neg (by decide),if_pos (beq_self_eq_true _)]
      exact ⟨rfl,ha⟩
  · next hn ho =>
      rw [qualifierOf,if_neg (hs.not_keyword hn),if_neg (hs.not_keyword ho)]
      exact ⟨rfl,hs⟩

lemma reads_mediaQuery (file : SourceFile) (hd : Distinct ts) : Reads Eq (mediaQuery file ts) (Media.query file ts) := by
  have hc (allowOr : Bool) {rest : List Token} {i : Nat} (h : Beside ts i rest) : Reads (Agrees ts)
        (condition file (mediaCondition file) ts allowOr i)
        (Media.condition file (conditionDeep file ts.length) (lastSpan ts) allowOr rest) :=
    reads_condition hd (fun inner hi hl => reads_mediaCondition file (hd.sublist hi) hl) allowOr h
  have he (x : MediaQuery × Nat) (y : MediaQuery × List Token) (h : Agrees ts x y) : Reads Eq
        (if (significant ts)[x.2]?.isNone then pure x.1 else throw (queryFault ts x.2))
        (if (dropBlank y.2).isEmpty then .ok y.1 else .error (faultAt (lastSpan ts) y.2)) := by
    obtain ⟨heq,hbh⟩ := h
    rw [hbh.isNone_eq,hbh.queryFault_eq]
    split
    · exact reads_pure heq
    · exact reads_throw _
  have hb := beside_qualifier ts
  rw [mediaQuery,Media.query]
  generalize qualifierOf ts = found at hb
  generalize qualifier ts = found' at hb
  obtain ⟨qualifier,i⟩ := found
  obtain ⟨_,rest⟩ := found'
  obtain ⟨rfl,hb⟩ := hb
  dsimp only at hb ⊢
  obtain ⟨hw,hw'⟩ | ⟨word,post,hw,hw',ha⟩ := hb.keyword_cases
  · rw [hw,hw',hb.queryFault_eq]
    dsimp only
    split
    · exact reads_throw _
    · refine reads_bind (hc true hb) ?_
      rintro ⟨c,j⟩ ⟨_,rest⟩ ⟨rfl,hbh⟩
      exact reads_bind (R := Agrees ts) (reads_pure ⟨rfl,hbh⟩) he
  · rw [hw,hw',hb.queryFault_eq,ha.isNone_eq,ha.queryFault_eq]
    dsimp only
    split
    · refine reads_bind (hc true hb) ?_
      rintro ⟨c,j⟩ ⟨_,rest⟩ ⟨rfl,hbh⟩
      exact reads_bind (R := Agrees ts) (reads_pure ⟨rfl,hbh⟩) he
    · split
      · exact reads_throw _
      · split
        · exact reads_bind (R := Agrees ts) (reads_pure ⟨rfl,ha⟩) he
        · by_cases han : (keywordAt? ts (i + 1) == some "and")
          · rw [if_pos han]
            split
            · next rest hr =>
                refine reads_bind (hc false (ha.of_keyword? hr).2) ?_
                rintro ⟨c,j⟩ ⟨_,rest⟩ ⟨rfl,hbh⟩
                exact reads_bind (R := Agrees ts) (reads_pure ⟨rfl,hbh⟩) he
            · next ho => exact absurd han (ha.not_keyword ho)
          · rw [if_neg han]
            split
            · next rest hr => exact absurd (by simp [(ha.of_keyword? hr).1]) han
            · exact reads_throw _

lemma reads_mediaList (file : SourceFile) (hd : Distinct ts) :
    Reads Eq (mediaList file ts) (MediaList.parse file ts) := by
  rw [mediaList,commaSlices_eq,pure_bind]
  refine reads_mapM fun part hp => reads_mediaQuery file (hd.sublist ?_)
  exact (sublist_of_mem_commaParts hp).trans (trimBlank_sublist ts)

end Css.Cursor

namespace Css.Media
open List Token
variable {rest : List Token}

lemma sublist_splitComparisons (ts : List Token) : (splitComparisons ts).1 <+: ts ∧
      ∀ part ∈ (splitComparisons ts).2, part.2.Sublist ts := by
  induction hn : ts.length using Nat.strongRecOn generalizing ts with
  | ind n ih =>
    cases ts with
    | nil => exact ⟨prefix_rfl,forall_mem_nil _⟩
    | cons t rest =>
      rw [length_cons] at hn
      rw [Cursor.splitComparisons_cons]
      cases comparison? t (rest.head?.any fun u => u.isDelim '=') with
      | none =>
        obtain ⟨hb,hpr⟩ := ih rest.length (by omega) rest rfl
        exact ⟨(prefix_cons_inj t).mpr hb,fun part hp => (hpr part hp).cons t⟩
      | some c =>
        obtain ⟨next,hnx⟩ : ∃ next, next =
            if (rest.head?.any fun u => u.isDelim '=') && !t.isDelim '=' then rest.tail else rest :=
          ⟨_,rfl⟩
        have hs : next.Sublist rest := by
          rw [hnx]
          split
          · exact tail_sublist rest
          · exact List.Sublist.refl rest
        dsimp only
        rw [← hnx]
        have hl := hs.length_le
        obtain ⟨hb,hpr⟩ := ih next.length (by omega) next rfl
        refine ⟨ nil_prefix,fun part hp => ?_⟩
        rcases mem_cons.mp hp with rfl | hp
        · exact (hb.sublist.trans hs).cons t
        · exact ((hpr part hp).trans hs).cons t

lemma exists_of_keyword? {ts : List Token} {word : String} (h : keyword? ts = some (word,rest)) :
    ∃ t ∈ ts, t.kind = .ident ∧ t.keyword = word ∧ rest.Sublist ts := by
  have hs : (dropBlank ts).Sublist ts := (dropWhile_suffix _).sublist
  unfold keyword? at h
  split at h
  · rename_i t post heq
    rw [heq] at hs
    split at h
    · rename_i hk
      cases h
      exact ⟨t,hs.subset mem_cons_self,eq_of_beq hk,rfl,(sublist_cons_self t rest).trans hs⟩
    · cases h
  · cases h

lemma sublist_of_keyword? {ts : List Token} {word : String} (h : keyword? ts = some (word,rest)) : rest.Sublist ts := by
  obtain ⟨_,_,_,_,hs⟩ := exists_of_keyword? h
  exact hs

lemma sublist_qualifier (ts : List Token) : (qualifier ts).2.Sublist ts := by
  unfold qualifier
  split
  · rename_i post hw
    split
    · exact sublist_of_keyword? hw
    · exact List.Sublist.refl _
  · rename_i post hw
    exact sublist_of_keyword? hw
  · exact List.Sublist.refl _

end Css.Media
