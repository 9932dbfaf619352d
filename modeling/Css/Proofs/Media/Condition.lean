import Css.Proofs.Media.Reading

/-!
# Media conditions are read back

A condition in parentheses is found by its brackets, and among the operands of an operation the
connectives tell where the next one starts.
-/
namespace Css
open List Text Token Media MediaFeature
namespace MediaCondition

def same : MediaCondition → MediaCondition → Bool
  | feature f, feature g => f.same g
  | negation c, negation d => c.same d
  | operation j cs, operation k ds => j == k && sameAll cs ds
  | unknown s, unknown t => s == t
  | _, _ => false
where
  sameAll : List MediaCondition → List MediaCondition → Bool
    | [], [] => true
    | c :: cs, d :: ds => c.same d && sameAll cs ds
    | _, _ => false

def isSimple : MediaCondition → Bool
  | feature f => f.isSimple
  | negation c => c.isSimple
  | operation _ cs => allSimple cs
  | unknown _ => false
where
  allSimple : List MediaCondition → Bool
    | [] => true
    | c :: cs => c.isSimple && allSimple cs

def isNegation : MediaCondition → Bool
  | negation _ => true
  | _ => false

structure ReadsInside (c : MediaCondition) (l : List Shape) : Prop where
  stretch : IsStretch l
  start : l.head? = some (.leftParen,"(")
  text : (enclose c.isCompound (c.render false)).toList = textOf l
  parsed : ∀ (file : SourceFile) {depth : Nat} (last : Span) {ts : List Token} (rest : List Token),
    ts.map shape = l → l.length ≤ depth →
      ∃ c', inParens file (conditionDeep file depth) last (ts ++ rest) = .ok (c',rest) ∧
        c.same c' = true

structure ReadsAs (c : MediaCondition) (l : List Shape) : Prop where
  stretch : IsStretch l
  text : (c.render false).toList = textOf l
  start : ∀ {ts : List Token}, ts.map shape = l → startsCondition ts = true
  keyword : ∀ {ts : List Token}, ts.map shape = l →
    if c.isNegation then ∃ rest, keyword? ts = some ("not",rest) ∧ keyword? rest = none
    else keyword? ts = none
  parsed : ∀ (file : SourceFile) {depth : Nat} (last : Span) {allowOr : Bool} {ts : List Token},
    ts.map shape = l → l.length ≤ depth → (c.isAlternative = true → allowOr = true) →
      ∃ c', condition file (conditionDeep file depth) last allowOr ts = .ok (c',[]) ∧
        c.same c' = true

end MediaCondition

namespace Media

section
variable {pre : List Token} (hbefore : ∀ t ∈ pre, t.isBlank = true) (ts : List Token)

include hbefore

lemma keyword?_append : keyword? (pre ++ ts) = keyword? ts := by
  rw [keyword?,keyword?,dropBlank_append hbefore]

lemma inParens_append (file : SourceFile) (nested : Nested) (last : Span) :
    inParens file nested last (pre ++ ts) = inParens file nested last ts := by
  rw [inParens,inParens,dropBlank_append hbefore]

lemma condition_append (file : SourceFile) (nested : Nested) (last : Span) (allowOr : Bool) :
    condition file nested last allowOr (pre ++ ts) = condition file nested last allowOr ts := by
  rw [condition,condition,keyword?_append hbefore,inParens_append hbefore]

end

lemma condition_of_not (file : SourceFile) (nested : Nested) (last : Span) (allowOr : Bool)
    {tokens rest : List Token} (h : keyword? tokens = some ("not",rest)) :
    condition file nested last allowOr tokens =
      inParens file nested last rest >>= fun found => .ok (.negation found.1,found.2) := by
  rw [condition,h]; rfl

def keywords : List String := ["not","only","and","or"]

variable {word : String}

lemma isLowerName_of_keywords (h : word ∈ keywords) : Written.IsLowerName word ∧ Written.identifier word = word := by
  have ha : ∀ word ∈ keywords, Written.HasNoNull word.toList ∧ word ≠ "" ∧ lower word = word ∧
      Written.identifier word = word := by
    decide +kernel
  obtain ⟨hn,hne,hl,hi⟩ := ha word h
  exact ⟨⟨⟨hn,hne⟩,hl⟩,hi⟩

variable {t : Token}

lemma keyword?_of_shape (hw : Written.IsLowerName word)
    (ht : t.shape = (.ident,Written.identifier word)) (rest : List Token) :
    keyword? (t :: rest) = some (word,rest) := by
  have hk := kind_of_shape ht
  rw [keyword?,dropBlank_cons (by rw [hk]; decide)]
  dsimp only
  rw [hk,keyword_of_shape hw ht]; rfl

lemma keyword?_of_keywords (hw : word ∈ keywords) (ht : t.shape = (.ident,word))
    (rest : List Token) : keyword? (t :: rest) = some (word,rest) := by
  obtain ⟨hn,hi⟩ := isLowerName_of_keywords hw
  rw [← hi] at ht
  exact keyword?_of_shape hn ht rest

lemma name_of_keywords (hw : word ∈ keywords) (ht : t.shape = (.ident,word)) : t.name = word := by
  obtain ⟨hn,hi⟩ := isLowerName_of_keywords hw
  rw [← hi] at ht
  exact name_of_identifier hn.hasNoNull (kind_of_shape ht) (text_of_shape ht)

lemma keyword?_of_leftParen (ht : t.shape = (.leftParen,"(")) (rest : List Token) : keyword? (t :: rest) = none := by
  have hk := kind_of_shape ht
  rw [keyword?,dropBlank_cons (by rw [hk]; decide)]
  dsimp only
  rw [hk]; rfl

end Media

lemma Token.IsStretch.blank {l l' : List Shape} (h : IsStretch l) (h' : IsStretch l') :
    IsStretch (l ++ (.whitespace," ") :: l') where
  scans := h.scans.blank (fun _ => rfl) h'.scans rfl h'.first
  balanced := by
    rw [map_append,map_cons]
    exact h.balanced.append (.flat rfl (fun _ => by decide) h'.balanced)
  solid := by
    rw [textOf_append]
    exact h.startsSolid_append _
  first := any_head?_append h.first _
  last := by
    have hl := any_getLast?_append [(.whitespace," ")] h'.last
    exact any_getLast?_append l hl

lemma Written.IsNameable.isStretch {s : String} (h : Written.IsNameable s) :
    IsStretch [(.ident,Written.identifier s)] where
  scans := h.scans
  balanced := .of_flat rfl
  solid := by
    rw [textOf_singleton]
    exact h.startsSolid
  first := rfl
  last := rfl

lemma Media.isStretch_keyword {word : String} (h : word ∈ keywords) : IsStretch [(.ident,word)] := by
  obtain ⟨hn,hi⟩ := isLowerName_of_keywords h
  rw [← hi]
  exact hn.isStretch

namespace Connective

def word : Connective → String
  | and => "and"
  | or => "or"

lemma word_mem_keywords (con : Connective) : con.word ∈ keywords := by cases con <;> decide

end Connective

namespace MediaCondition
variable {l : List Shape} {c : MediaCondition}

lemma isStretch_parens {ends : List Char → Bool} (hs : Scans ends l) (he : ∀ rest, ends (')' :: rest)) {isOutside : Bool}
    (hb : Balanced isOutside (l.map Prod.fst)) :
    IsStretch ((.leftParen,"(") :: (l ++ [(.rightParen,")")])) where
  scans := by
    have ho : Scans anything [(.leftParen,"(")] := scans_char fun _ => rfl
    have hcl : Scans anything [(.rightParen,")")] := scans_char fun _ => rfl
    have hi := hs.append hcl fun rest _ => he rest
    exact (ho.append hi fun _ _ => rfl).mono fun _ _ => rfl
  balanced := by
    rw [map_cons,map_append]
    exact .group rfl rfl hb.inside .nil
  solid := rfl
  first := rfl
  last := by
    rw [← cons_append]
    exact any_getLast?_append _ rfl

lemma exists_inside {isOutside : Bool} (hb : Balanced isOutside (l.map Prod.fst))
    {ts : List Token} (hts : ts.map shape = (.leftParen,"(") :: (l ++ [(.rightParen,")")]))
    (rest : List Token) : ∃ t inner post, ts ++ rest = t :: post ∧ t.kind = .leftParen ∧
      inner.map shape = l ∧ splitParens 1 post = some (inner,rest) := by
  obtain ⟨t,post,rfl,ht,ha⟩ := map_eq_cons_iff.mp hts
  obtain ⟨inner,closing,rfl,hi,hcl⟩ := map_eq_append_iff.mp ha
  obtain ⟨u,closing,rfl,hu,hn⟩ := map_eq_cons_iff.mp hcl
  cases map_eq_nil_iff.mp hn
  have hk : Balanced isOutside (inner.map kind) := by
    rw [← hi,map_map] at hb
    exact hb
  refine ⟨t,inner,inner ++ [u] ++ rest,cons_append,kind_of_shape ht,hi,?_⟩
  rw [append_assoc,splitParens_append hk,singleton_append,splitParens,kind_of_shape hu]
  simp

lemma readsInside_feature {f : MediaFeature} (hf : f.ReadsAs l) :
    ReadsInside (feature f) ((.leftParen,"(") :: (l ++ [(.rightParen,")")])) where
  stretch := isStretch_parens hf.scans (fun _ => rfl) hf.balanced
  start := rfl
  text := by
    change (f.render false).toList = _
    rw [hf.text,textOf_cons,textOf_append]; rfl
  parsed := by
    intro file depth last ts rest hts _
    obtain ⟨t,inner,post,heq,hk,hi,hs⟩ := exists_inside hf.balanced hts rest
    obtain ⟨f',hf',hsm⟩ := hf.parsed file (faultAt last rest) hi
    refine ⟨feature f',?_,hsm⟩
    rw [heq,inParens,dropBlank_cons (by rw [hk]; decide)]
    dsimp only
    rw [hk,hs]
    dsimp only
    rw [hf.notCondition hi,hf']; rfl

lemma ReadsAs.inside (hc : c.ReadsAs l) (hcm : c.isCompound) :
    ReadsInside c ((.leftParen,"(") :: (l ++ [(.rightParen,")")])) where
  stretch := isStretch_parens hc.stretch.scans (fun _ => rfl) hc.stretch.balanced
  start := rfl
  text := by
    rw [enclose,if_pos hcm,String.toList_append,String.toList_append,hc.text,textOf_cons,
      textOf_append,textOf_singleton,append_assoc]
  parsed := by
    intro file depth last ts rest hts hd
    obtain ⟨t,inner,post,heq,hk,hi,hs⟩ := exists_inside hc.stretch.balanced hts rest
    rw [length_cons,length_append,length_singleton] at hd
    obtain ⟨depth,rfl⟩ : ∃ n, depth = n + 1 := ⟨depth - 1,by omega⟩
    have hl : l.length ≤ depth := by omega
    obtain ⟨c',hc',hsm⟩ := hc.parsed file (lastSpan inner) hi hl fun _ => rfl
    have hdp : conditionDeep file (depth + 1) inner = .ok c' := by
      rw [conditionDeep]
      dsimp only
      rw [hc']; rfl
    refine ⟨c',?_,hsm⟩
    rw [heq,inParens,dropBlank_cons (by rw [hk]; decide)]
    dsimp only
    rw [hk,hs]
    dsimp only
    rw [hc.start hi,hdp]; rfl

def moreShapes (connective : Connective) (ls : List (List Shape)) : List Shape :=
  ls.flatMap fun l => (.whitespace," ") :: (.ident,connective.word) :: (.whitespace," ") :: l

lemma moreShapes_cons (con : Connective) (l : List Shape) (ls : List (List Shape)) :
    moreShapes con (l :: ls) = (.whitespace," ") :: (.ident,con.word) :: (.whitespace," ") :: (l ++ moreShapes con ls) :=
  rfl

variable {cs : List MediaCondition} {ls : List (List Shape)}

lemma isStretch_moreShapes (con : Connective) (hl : IsStretch l)
    (h : List.Forall₂ ReadsInside cs ls) : IsStretch (l ++ moreShapes con ls) := by
  induction h generalizing l with
  | nil =>
    rw [moreShapes,flatMap_nil,append_nil]
    exact hl
  | @cons c l' cs ls hc _ ih =>
    have hw := (isStretch_keyword con.word_mem_keywords).blank (ih hc.stretch)
    exact hl.blank hw

lemma toList_renderAll (con : Connective) (hc : c.ReadsInside l) (h : List.Forall₂ ReadsInside cs ls) :
    (render.renderAll false con (c :: cs)).toList = textOf (l ++ moreShapes con ls) := by
  induction h generalizing c l with
  | nil =>
    rw [moreShapes,flatMap_nil,append_nil]
    exact hc.text
  | @cons d l' cs ls hd _ ih =>
    have ht : con.text.toList = ' ' :: (con.word.toList ++ [' ']) := by cases con <;> rfl
    rw [render.renderAll,String.toList_append,String.toList_append,hc.text,ht,ih hd,moreShapes_cons]
    · simp [textOf_append,textOf_cons]
    · simp

lemma exists_operands (file : SourceFile) {depth : Nat} (last : Span) {allowOr : Bool}
    {connective : Connective} (hor : connective = .or → allowOr)
    (h : List.Forall₂ ReadsInside cs ls) (hd : (moreShapes connective ls).length ≤ depth)
    {current : Option Connective} (hcr : current.any (· != connective) = false) {ts : List Token}
    (hts : ts.map shape = moreShapes connective ls) :
    ∃ cs', Media.operands file (conditionDeep file depth) last allowOr current ts =
        .ok (if cs.isEmpty then current else some connective,cs',[]) ∧ same.sameAll cs cs' := by
  induction h generalizing current ts with
  | nil =>
    cases map_eq_nil_iff.mp hts
    refine ⟨[],?_,rfl⟩
    rw [Cursor.operands_eq]; rfl
  | @cons c l cs ls hc _ ih =>
    rw [moreShapes_cons] at hts hd
    obtain ⟨w,t,ts,rfl,hw,ht,hts⟩ := exists_pair_of_shapes hts
    obtain ⟨w',ts,rfl,hw',hts⟩ := map_eq_cons_iff.mp hts
    obtain ⟨first,rest,rfl,hf,hr⟩ := map_eq_append_iff.mp hts
    simp only [length_cons,length_append] at hd
    have hk : keyword? (w :: t :: w' :: (first ++ rest)) = some (connective.word,w' :: (first ++ rest)) :=
      (keyword?_append (forall_isBlank hw) _).trans (keyword?_of_keywords connective.word_mem_keywords ht _)
    have hcn : connective? allowOr connective.word = some connective := by
      cases connective with
      | and => rfl
      | or =>
        rw [hor rfl]; rfl
    have hl : l.length ≤ depth := by omega
    obtain ⟨c',hc',hs⟩ := hc.parsed file last rest hf hl
    have hp : inParens file (conditionDeep file depth) last (w' :: (first ++ rest)) = .ok (c',rest) :=
      (inParens_append (forall_isBlank hw') _ file _ last).trans hc'
    have hs' : (some connective).any (· != connective) = false := by simp
    obtain ⟨cs',hcs',ha⟩ := ih (by omega) hs' hr
    rw [ite_self] at hcs'
    refine ⟨c' :: cs',?_,Bool.and_eq_true_iff.mpr ⟨hs,ha⟩⟩
    rw [Cursor.operands_eq,hk]
    dsimp only
    rw [hcn]
    dsimp only
    rw [hcr,hp]
    dsimp only [bind,Except.bind]
    rw [hcs']; rfl

section
variable {c : MediaCondition} {l : List Shape} (hc : c.ReadsInside l) {ts : List Token} (hts : ts.map shape = l)

include hc hts

lemma ReadsInside.opens (rest : List Token) : startsCondition (ts ++ rest) ∧ keyword? (ts ++ rest) = none := by
  have hs := hc.start
  rw [← hts] at hs
  cases ts with
  | nil => cases hs
  | cons t ts =>
    have ht : t.shape = (.leftParen,"(") := Option.some.inj hs
    have hk := kind_of_shape ht
    refine ⟨?_,keyword?_of_leftParen ht (ts ++ rest)⟩
    rw [cons_append,startsCondition,dropBlank_cons (by rw [hk]; decide),head?_cons,Option.any_some,hk]
    rfl

lemma ReadsInside.alone (file : SourceFile) {depth : Nat} (last : Span) (allowOr : Bool) (hd : l.length ≤ depth) :
    ∃ c', condition file (conditionDeep file depth) last allowOr ts = .ok (c',[]) ∧ c.same c' := by
  obtain ⟨-,hk⟩ := hc.opens hts []
  obtain ⟨c',hc',hs⟩ := hc.parsed file last [] hts hd
  rw [append_nil] at hk hc'
  refine ⟨c',?_,hs⟩
  rw [condition,hk]
  rw [hc']
  dsimp only [bind,Except.bind]
  rw [Cursor.operands_eq]; rfl

end

lemma readsAs_feature {f : MediaFeature} (hf : f.ReadsAs l) :
    ReadsAs (feature f) ((.leftParen,"(") :: (l ++ [(.rightParen,")")])) where
  stretch := (readsInside_feature hf).stretch
  text := (readsInside_feature hf).text
  start := by
    intro ts hts
    have ho := ((readsInside_feature hf).opens hts []).1
    rwa [append_nil] at ho
  keyword := by
    intro ts hts
    have ho := ((readsInside_feature hf).opens hts []).2
    rwa [append_nil] at ho
  parsed := by
    intro file depth last allowOr ts hts hd _
    exact (readsInside_feature hf).alone hts file last allowOr hd

lemma readsAs_negation (hc : c.ReadsInside l) : ReadsAs (negation c) ((.ident,"not") :: (.whitespace," ") :: l) where
  stretch := (isStretch_keyword (by decide)).blank hc.stretch
  text := by
    rw [render,String.toList_append,hc.text,textOf_cons,textOf_cons,← append_assoc]; rfl
  start := by
    intro ts hts
    obtain ⟨t,ts,rfl,ht,hts⟩ := map_eq_cons_iff.mp hts
    have hk := kind_of_shape ht
    rw [startsCondition,dropBlank_cons (by rw [hk]; decide),head?_cons,Option.any_some,
      isIdent,hk,name_of_keywords (by decide) ht]
    rfl
  keyword := by
    intro ts hts
    obtain ⟨t,w,ts,rfl,ht,hw,hts⟩ := exists_pair_of_shapes hts
    have ho := (hc.opens hts []).2
    rw [append_nil] at ho
    have hr : keyword? (w :: ts) = none := (keyword?_append (forall_isBlank hw) ts).trans ho
    exact ⟨w :: ts,keyword?_of_keywords (by decide) ht _,hr⟩
  parsed := by
    intro file depth last allowOr ts hts hd _
    rw [length_cons,length_cons] at hd
    obtain ⟨t,w,ts,rfl,ht,hw,hts⟩ := exists_pair_of_shapes hts
    have hl : l.length ≤ depth := by omega
    obtain ⟨c',hc',hs⟩ := hc.parsed file last [] hts hl
    rw [append_nil] at hc'
    have hp : inParens file (conditionDeep file depth) last (w :: ts) = .ok (c',[]) :=
      (inParens_append (forall_isBlank hw) ts file _ last).trans hc'
    refine ⟨negation c',?_,hs⟩
    rw [condition_of_not file _ last allowOr (keyword?_of_keywords (by decide) ht _),hp]; rfl

lemma readsAs_operation {con : Connective} {d : MediaCondition} {l' : List Shape}
    (hc : c.ReadsInside l) (hd : d.ReadsInside l') (h : List.Forall₂ ReadsInside cs ls) :
    ReadsAs (operation con (c :: d :: cs)) (l ++ moreShapes con (l' :: ls)) where
  stretch := isStretch_moreShapes con hc.stretch (.cons hd h)
  text := toList_renderAll con hc (.cons hd h)
  start := by
    intro ts hts
    obtain ⟨first,rest,rfl,hf,-⟩ := map_eq_append_iff.mp hts
    exact (hc.opens hf rest).1
  keyword := by
    intro ts hts
    obtain ⟨first,rest,rfl,hf,-⟩ := map_eq_append_iff.mp hts
    exact (hc.opens hf rest).2
  parsed := by
    intro file depth last allowOr ts hts hdp hor
    obtain ⟨first,rest,rfl,hf,hr⟩ := map_eq_append_iff.mp hts
    rw [length_append] at hdp
    have hl : l.length ≤ depth := by omega
    have hm : (moreShapes con (l' :: ls)).length ≤ depth := by omega
    have ha : con = .or → allowOr := by
      rintro rfl
      exact hor rfl
    obtain ⟨c',hc',hs⟩ := hc.parsed file last rest hf hl
    have hn : (none : Option Connective).any (· != con) = false := rfl
    obtain ⟨cs',hcs',hal⟩ := exists_operands file last ha (.cons hd h) hm hn hr
    refine ⟨operation con (c' :: cs'),?_,?_⟩
    · rw [condition,(hc.opens hf rest).2]
      dsimp only
      rw [hc']
      dsimp only [bind,Except.bind]
      rw [hcs']; rfl
    · rw [same,same.sameAll,hs,hal]
      simp

lemma exists_readsAs_operation (con : Connective) (hl : 2 ≤ cs.length)
    (h : List.Forall₂ ReadsInside cs ls) : ∃ l, ReadsAs (operation con cs) l := by
  cases h with
  | nil => cases hl
  | cons hc h =>
    cases h with
    | nil => exact absurd hl (Nat.not_succ_le_self 1)
    | cons hd h => exact ⟨_,readsAs_operation hc hd h⟩

mutual

lemma exists_readsInside : (c : MediaCondition) → c.IsSound → c.isSimple → ∃ l, c.ReadsInside l
  | .feature f, .feature hf, h => by
    obtain ⟨l,hl⟩ := exists_readsAs hf h
    exact ⟨_,readsInside_feature hl⟩
  | .negation c, .negation hc, h => by
    obtain ⟨l,hl⟩ := exists_readsInside c hc h
    exact ⟨_,(readsAs_negation hl).inside rfl⟩
  | .operation con cs, .operation hln hcs, h => by
    obtain ⟨ls,hls⟩ := exists_allReadInside cs hcs h
    obtain ⟨l,hl⟩ := exists_readsAs_operation con hln hls
    exact ⟨_,hl.inside rfl⟩

lemma exists_allReadInside : (cs : List MediaCondition) → (∀ c ∈ cs, c.IsSound) →
    isSimple.allSimple cs → ∃ ls, List.Forall₂ ReadsInside cs ls
  | [], _, _ => ⟨[],.nil⟩
  | c :: cs, hcs, h => by
    obtain ⟨hc,hcs⟩ := forall_mem_cons.mp hcs
    obtain ⟨hf,hm⟩ := Bool.and_eq_true_iff.mp h
    obtain ⟨l,hl⟩ := exists_readsInside c hc hf
    obtain ⟨ls,hls⟩ := exists_allReadInside cs hcs hm
    exact ⟨l :: ls,.cons hl hls⟩

end

lemma exists_readsAs (hc : c.IsSound) (h : c.isSimple) : ∃ l, c.ReadsAs l := by
  cases hc with
  | feature hf =>
    obtain ⟨l,hl⟩ := exists_readsAs hf h
    exact ⟨_,readsAs_feature hl⟩
  | negation hc =>
    obtain ⟨l,hl⟩ := exists_readsInside _ hc h
    exact ⟨_,readsAs_negation hl⟩
  | operation hln hcs =>
    obtain ⟨ls,hls⟩ := exists_allReadInside _ hcs h
    exact exists_readsAs_operation _ hln hls
  | unknown => cases h

end MediaCondition
end Css
