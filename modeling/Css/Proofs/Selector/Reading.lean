import Css.Proofs.Selector.Grammar
import Css.Proofs.Token.Scanning

/-!
# Simple selectors are read back

The text of a part is cut into its tokens, and from them the parser makes the same part, wherever the
part stands among others.
-/
namespace Css
open List Text Token Selector
open Written (HasNoNull IsNameable identifier)

def Token.gap (tight : Bool) : List Shape := if tight then [] else [(.whitespace," ")]

namespace Combinator

def leadShapes (tight : Bool) (c : Combinator) : List Shape := (.delim,c.symbol) :: gap tight

def shapes (tight : Bool) : Combinator → List Shape
  | descendant => [(.whitespace," ")]
  | c => (.whitespace," ") :: c.leadShapes tight

lemma shapes_of_ne (tight : Bool) {c : Combinator} (hc : c ≠ descendant) :
    c.shapes tight = (.whitespace," ") :: c.leadShapes tight := by
  cases c with
  | descendant => exact absurd rfl hc
  | _ => rfl

end Combinator

namespace AttributeTest

def operatorShapes : AttributeOperator → List Shape
  | .equals => [(.delim,"=")]
  | .includes => [(.delim,"~"),(.delim,"=")]
  | .dashMatch => [(.delim,"|"),(.delim,"=")]
  | .startsWith => [(.delim,"^"),(.delim,"=")]
  | .endsWith => [(.delim,"$"),(.delim,"=")]
  | .contains => [(.delim,"*"),(.delim,"=")]

def valueShape (value : String) : Shape :=
  if Written.isPlain value then (.ident,value) else (.string,Written.string value)

def flagShapes : Option CaseFlag → List Shape
  | none => []
  | some flag => [(.whitespace," "),(.ident,flag.symbol)]

def shapes : Option AttributeTest → List Shape
  | none => []
  | some test => operatorShapes test.operator ++ valueShape test.value :: flagShapes test.flag

end AttributeTest

namespace Part

def isPseudo : Part → Bool
  | pseudoClass _ | pseudoClassOf .. | pseudoClassText .. => true
  | pseudoElement _ | pseudoElementText .. => true
  | _ => false

/-- The tokens of a part that a colon follows if `touches`. Arguments that are kept as text are no
tokens of their own. -/
def shapes (tight touches : Bool) : Part → List Shape
  | combinator c => c.shapes (tight && touches)
  | universal => [(.delim,"*")]
  | element name => [(.ident,identifier name)]
  | className name => [(.delim,"."),(.ident,identifier name)]
  | idName name => [(.idHash,"#" ++ identifier name)]
  | attr name test =>
    (.leftBracket,"[") :: (.ident,identifier name) :: (AttributeTest.shapes test ++ [(.rightBracket,"]")])
  | pseudoClass name => [(.colon,":"),(.ident,identifier name)]
  | pseudoClassOf name selectors =>
    (.colon,":") :: (.function,identifier name ++ "(") :: (ofAll tight selectors ++ [(.rightParen,")")])
  | pseudoElement name => [(.colon,":"),(.colon,":"),(.ident,identifier name)]
  | nesting => [(.delim,"&")]
  | pseudoClassText .. | pseudoElementText .. | global _ => []
where
  ofParts (tight : Bool) : List Part → List Shape
    | [] => []
    | p :: parts => p.shapes tight (parts.head?.any isPseudo) ++ ofParts tight parts
  ofAll (tight : Bool) : List (List Part) → List Shape
    | [] => []
    | [s] => if Selector.opens s then ofParts tight s else (ofParts tight s).tail
    | s :: selectors =>
      (if Selector.opens s then ofParts tight s else (ofParts tight s).tail) ++
        (.comma,",") :: (gap tight ++ ofAll tight selectors)

lemma shapes_of_simple {p : Part} (hp : p.isCombinator = false) (tight touches : Bool) :
    p.shapes tight touches = p.shapes tight false := by
  cases p with
  | combinator c => cases hp
  | _ => rfl

end Part

namespace Selector
open Part.shapes

def shapes (tight : Bool) (s : Selector) : List Shape :=
  if s.opens then ofParts tight s else (ofParts tight s).tail

def shapesAll (tight : Bool) (selectors : List Selector) : List Shape := ofAll tight selectors

lemma shapesAll_cons (tight : Bool) (s : Selector) {sels : List Selector} (hne : sels ≠ []) :
    shapesAll tight (s :: sels) = s.shapes tight ++ (.comma,",") :: (gap tight ++ shapesAll tight sels) := by
  cases sels with
  | nil => exact absurd rfl hne
  | cons s' sels => rfl

lemma ofParts_cons {p : Part} (hp : p.isCombinator = false) (tight : Bool) (parts : List Part) :
    ofParts tight (p :: parts) = p.shapes tight false ++ ofParts tight parts := by
  rw [ofParts,Part.shapes_of_simple hp]

lemma ofParts_compound {ps : List Part} (hpr : ∀ p ∈ ps, p.isCombinator = false) (tight : Bool) (rest : Selector) :
    ofParts tight (ps ++ rest) = ofParts tight ps ++ ofParts tight rest := by
  induction ps with
  | nil => rfl
  | cons p ps ih =>
    have hp := hpr p mem_cons_self
    rw [cons_append,ofParts_cons hp,ofParts_cons hp,ih fun q hq => hpr q (mem_cons_of_mem p hq),append_assoc]

lemma ofParts_combined {ps : List Part} (hp : ∀ p ∈ ps, p.isCombinator = false)
    (tight : Bool) (c : Combinator) (rest : Selector) :
    ofParts tight (ps ++ .combinator c :: rest) = ofParts tight ps ++
        (c.shapes (tight && rest.head?.any Part.isPseudo) ++ ofParts tight rest) :=
  ofParts_compound hp tight (.combinator c :: rest)

end Selector

namespace Token

def Shape.startsCompound (s : Shape) : Bool :=
  match s.1 with
  | .ident | .idHash | .leftBracket | .colon => true
  | .delim => s.2 == "*" || s.2 == "&" || s.2 == "."
  | _ => false

def Shape.startsSelector (s : Shape) : Bool :=
  match s.1 with
  | .ident | .idHash | .leftBracket | .colon | .delim => true
  | _ => false

lemma Shape.startsSelector_of_startsCompound {s : Shape} (h : s.startsCompound = true) :
    s.startsSelector = true := by
  obtain ⟨kind,text⟩ := s
  cases kind <;> first | rfl | cases h

end Token

namespace Written
variable {s : String}

lemma IsNameable.startsSolid (h : IsNameable s) : startsSolid (identifier s).toList = true := by
  have hi := startsIdent_identifier h.hasNoNull h.nonempty []
  rw [append_nil] at hi
  cases ht : (identifier s).toList with
  | nil => rfl
  | cons c text =>
    rw [ht] at hi
    rw [Token.startsSolid,head?_cons,Option.any_some,Lexer.isSpace_of_startsIdent hi]; rfl

lemma IsNameable.scans (h : IsNameable s) : Scans Lexer.endsName [(.ident,identifier s)] :=
  scans_identifier h.hasNoNull h.nonempty

end Written

namespace AttributeTest

lemma scans_operator (op : AttributeOperator) :
    Scans anything (operatorShapes op) := by
  have he : Scans anything [(.delim,"=")] := scans_char fun _ => rfl
  cases op with
  | equals => exact he
  | includes => exact (scans_char (c := '~') fun _ => rfl).append he fun _ _ => rfl
  | dashMatch => exact (scans_char (c := '|') fun _ => rfl).append he fun _ _ => rfl
  | startsWith => exact (scans_char (c := '^') fun _ => rfl).append he fun _ _ => rfl
  | endsWith => exact (scans_char (c := '$') fun _ => rfl).append he fun _ _ => rfl
  | contains => exact (scans_char (c := '*') fun _ => rfl).append he fun _ _ => rfl

variable {value : String}

lemma isNameable_of_isPlain (h : HasNoNull value.toList) (hp : Written.isPlain value = true) :
    IsNameable value ∧ identifier value = value := by
  rw [Written.isPlain,Bool.and_eq_true,Bool.not_eq_true',beq_iff_eq] at hp
  refine ⟨⟨h,?_⟩,hp.2⟩
  rintro rfl
  cases hp.1

lemma scans_value (h : HasNoNull value.toList) :
    Scans Lexer.endsName [valueShape value] := by
  unfold valueShape
  split
  · rename_i hp
    obtain ⟨hname,heq⟩ := isNameable_of_isPlain h hp
    have hs := hname.scans
    rwa [heq] at hs
  · exact (scans_string h).mono fun _ _ => rfl

lemma isNameable_symbol (flag : CaseFlag) :
    IsNameable flag.symbol ∧ identifier flag.symbol = flag.symbol := by
  cases flag
  · exact ⟨⟨by decide,by decide⟩,by decide⟩
  · exact ⟨⟨by decide,by decide⟩,by decide⟩

lemma scans_flag (flag : Option CaseFlag) : Scans Lexer.endsName (flagShapes flag) := by
  cases flag with
  | none => exact scans_nil _
  | some flag =>
    obtain ⟨hname,heq⟩ := isNameable_symbol flag
    have hs := hname.scans
    rw [heq] at hs
    refine scans_blank.append hs fun rest _ => ?_
    cases flag <;> rfl

lemma scans_shapes {test : Option AttributeTest} (h : ∀ t ∈ test, HasNoNull t.value.toList) :
    Scans anything (shapes test ++ [(.rightBracket,"]")]) := by
  have hb : Scans anything [(.rightBracket,"]")] := scans_char fun _ => rfl
  cases test with
  | none => exact hb
  | some test =>
    have hf := (scans_flag test.flag).append hb fun _ _ => rfl
    have hv := (scans_value (h test rfl)).append hf fun rest _ => by
      rcases test.flag with - | flag
      · rfl
      · cases flag <;> rfl
    rw [shapes,append_assoc]
    exact (scans_operator test.operator).append hv fun _ _ => rfl

lemma endsName_shapes (test : Option AttributeTest) (rest : List Char) :
    Lexer.endsName (textOf (shapes test ++ [(.rightBracket,"]")]) ++ rest) = true := by
  cases test with
  | none => rfl
  | some test =>
    rw [shapes]
    cases test.operator <;> rfl

lemma textOf_shapes (test : AttributeTest) :
    textOf (shapes (some test)) = test.render.toList := by
  have ho : textOf (operatorShapes test.operator) = test.operator.symbol.toList := by
    cases test.operator <;> rfl
  have hv : (valueShape test.value).2 =
      if Written.isPlain test.value then test.value else Written.string test.value := by
    unfold valueShape
    split <;> rfl
  rw [shapes,textOf_append,textOf_cons,ho,hv,render,String.toList_append,String.toList_append,append_assoc]
  congr 2
  rcases test.flag with - | flag
  · rfl
  · cases flag <;> rfl

lemma textOf_brackets (name : String) (test : Option AttributeTest) :
    ((Part.attr name test).render {}).toList = textOf ((.leftBracket,"[") :: (.ident,identifier name) ::
        (shapes test ++ [(.rightBracket,"]")])) := by
  rw [textOf_cons,textOf_cons,textOf_append]
  cases test with
  | none =>
    rw [Part.render,String.toList_append,String.toList_append,String.toList_append,append_assoc,append_assoc]
    rfl
  | some test =>
    rw [Part.render,textOf_shapes,String.toList_append,String.toList_append,
      String.toList_append,append_assoc,append_assoc]
    rfl

variable {ts : List Token}

lemma attributeOperator_of_shapes {op : AttributeOperator}
    (h : ts.map shape = operatorShapes op) (last : Span) (rest : List Token) :
    attributeOperator last (ts ++ rest) = .ok (op,rest) := by
  have ho {t : Token} (ht : t.shape = (.delim,"=")) :
      attributeOperator last (t :: rest) = .ok (.equals,rest) := by
    rw [attributeOperator.eq_def]
    dsimp only
    rw [isDelim_of_shape ht]; rfl
  have htw {c : Char} {op : AttributeOperator} {ts : List Token}
      (h : ts.map shape = [(.delim,String.ofList [c]),(.delim,"=")]) (hc : (c == '=') = false)
      (hop : ∀ t, t.delim? = some c → operatorOf? t = some op) :
      attributeOperator last (ts ++ rest) = .ok (op,rest) := by
    obtain ⟨t,u,vs,rfl,ht,hu,hvs⟩ := exists_pair_of_shapes h
    rw [map_eq_nil_iff.mp hvs,cons_append,singleton_append,attributeOperator,
      isDelim_of_shape ht,isDelim_of_shape hu,hc,hop t (delim?_of_shape ht)]
    rfl
  cases op with
  | equals =>
    obtain ⟨t,us,rfl,ht,hus⟩ := map_eq_cons_iff.mp h
    rw [map_eq_nil_iff.mp hus]
    exact ho ht
  | includes | dashMatch | startsWith | endsWith | contains =>
    exact htw h rfl fun t ht => by rw [operatorOf?,ht]; rfl

lemma exists_delim_of_operatorShapes {op : AttributeOperator}
    (h : ts.map shape = operatorShapes op) : ∃ t rest, ts = t :: rest ∧ t.kind = .delim := by
  cases op <;>
    (obtain ⟨t,us,rfl,ht,-⟩ := map_eq_cons_iff.mp h
     exact ⟨t,us,rfl,kind_of_shape ht⟩)

lemma attributeValue_of_shape (h : HasNoNull value.toList) {t : Token}
    (ht : t.shape = valueShape value) (last : Span) (rest : List Token) :
    attributeValue last (t :: rest) = .ok (value,rest) := by
  unfold valueShape at ht
  split at ht
  · rename_i hp
    obtain ⟨hname,heq⟩ := isNameable_of_isPlain h hp
    have hk := kind_of_shape ht
    rw [attributeValue,hk,name_of_identifier h hk (by rw [text_of_shape ht,heq])]; rfl
  · rw [attributeValue,kind_of_shape ht,stringValue_of_string h (text_of_shape ht)]
    rfl

lemma attributeFlag_of_shapes {flag : Option CaseFlag} {rest : List Token} {u : Token}
    (h : ts.map shape = flagShapes flag) (hu : u.kind = .rightBracket) (last : Span) :
    attributeFlag last (dropBlank (ts ++ u :: rest)) = .ok (flag,u :: rest) := by
  have hc : dropBlank (u :: rest) = u :: rest := dropBlank_cons (by rw [hu]; decide) rest
  cases flag with
  | none =>
    rw [map_eq_nil_iff.mp h,nil_append,hc,attributeFlag,hu]; rfl
  | some flag =>
    obtain ⟨t,v,vs,rfl,ht,hv,hvs⟩ := exists_pair_of_shapes h
    have hk := kind_of_shape hv
    have hb : dropBlank (t :: v :: u :: rest) = v :: u :: rest := by
      rw [dropBlank_blank (kind_of_shape ht),dropBlank_cons (by rw [hk]; decide)]
    have hname : v.keyword = flag.symbol := by
      obtain ⟨hn,heq⟩ := isNameable_symbol flag
      rw [keyword,name_of_identifier hn.hasNoNull hk (by rw [text_of_shape hv,heq])]
      cases flag <;> rfl
    rw [map_eq_nil_iff.mp hvs,cons_append,singleton_append,hb,attributeFlag,hk,hname,hc]
    cases flag <;> rfl

lemma balanced_shapes (test : Option AttributeTest) :
    Balanced true ((shapes test).map Prod.fst) := by
  cases test with
  | none => exact .nil
  | some test =>
    refine .of_flat ?_
    have hv :
        ((valueShape test.value).1.isFlat && (valueShape test.value).1 != .comma) = true := by
      unfold valueShape
      split <;> rfl
    rw [shapes,map_append,map_cons,all_append,all_cons,hv]
    cases test.operator <;> cases test.flag <;> rfl

lemma attributeTest_of_shapes {name : String} (hname : IsNameable name)
    {test : AttributeTest} (hvl : HasNoNull test.value.toList)
    (h : ts.map shape = (.ident,identifier name) :: (shapes (some test) ++ [(.rightBracket,"]")]))
    (last : Span) (rest : List Token) :
    Selector.attributeTest last (ts ++ rest) = .ok (.attr name (some test),rest) := by
  obtain ⟨t,post,rfl,ht,ha⟩ := map_eq_cons_iff.mp h
  rw [shapes,append_assoc] at ha
  obtain ⟨op,post,rfl,hop,ha⟩ := map_eq_append_iff.mp ha
  obtain ⟨v,post,rfl,hv,ha⟩ := map_eq_cons_iff.mp ha
  obtain ⟨flag,post,rfl,hf,ha⟩ := map_eq_append_iff.mp ha
  obtain ⟨u,post,rfl,hu,ha⟩ := map_eq_cons_iff.mp ha
  rw [map_eq_nil_iff.mp ha]
  have hk := kind_of_shape ht
  have hu := kind_of_shape hu
  obtain ⟨o,os,rfl,ho⟩ := exists_delim_of_operatorShapes hop
  have hv' : v.kind ≠ .whitespace := by
    unfold valueShape at hv
    split at hv
    · rw [kind_of_shape hv]; decide
    · rw [kind_of_shape hv]; decide
  have htk : t :: (o :: os ++ v :: (flag ++ [u])) ++ rest =
      t :: (o :: os ++ (v :: (flag ++ u :: rest))) := by simp
  rw [htk,Selector.attributeTest,dropBlank_cons (by rw [hk]; decide)]
  dsimp only
  rw [hk,name_of_identifier hname.hasNoNull hk (text_of_shape ht),if_pos (by decide),
    cons_append,dropBlank_cons (by rw [ho]; decide),head?_cons,Option.any_some,ho,
    if_neg (by decide),← cons_append,attributeOperator_of_shapes hop]
  simp only [bind,Except.bind]
  rw [dropBlank_cons hv',attributeValue_of_shape hvl hv]
  dsimp only
  rw [attributeFlag_of_shapes hf hu]
  dsimp only
  rw [hu]; rfl

end AttributeTest

namespace Part

/-- How a part reads back: its text is cut into its tokens, and the parser makes the part of them. -/
structure ReadsAs (tight : Bool) (ctx : Selector.Context) (p : Part) : Prop where
  stretch : IsStretch (p.shapes tight false)
  start : (p.shapes tight false).head?.any Shape.startsCompound = true := by rfl
  colon : p.isPseudo = true → (p.shapes tight false).head? = some (.colon,":") := by intro h; cases h
  ends : p.isType = false → Lexer.endsName (textOf (p.shapes tight false)) = true := by exact fun _ => rfl
  pretty : (p.render {}).toList = textOf (p.shapes false false)
  parsed : ∀ {depth : Nat} {last : Span} {isFirst : Bool} {ts rest : List Token},
    ts.map shape = p.shapes tight false → (p.shapes tight false).length ≤ depth →
      (isFirst = true ∨ p.isType = false) →
        Selector.simple? (Selector.parseDeep depth) ctx last isFirst (ts ++ rest) =
          .ok (some ([p],rest))

variable {tight : Bool} {ctx : Selector.Context}

lemma readsAs_universal : ReadsAs tight ctx universal where
  stretch := { scans := (scans_char (c := '*') fun _ => rfl).mono fun _ _ => rfl }
  ends h := by cases h
  pretty := rfl
  parsed := by
    intro depth last isFirst ts rest hts _ hf
    obtain ⟨t,ts,rfl,ht,hts⟩ := map_eq_cons_iff.mp hts
    rw [map_eq_nil_iff.mp hts,hf.resolve_right Bool.noConfusion,singleton_append,
      simple?,kind_of_shape ht,delim?_of_shape ht]
    rfl

lemma readsAs_nesting : ReadsAs tight ctx nesting where
  stretch := { scans := (scans_char (c := '&') fun _ => rfl).mono fun _ _ => rfl }
  pretty := rfl
  parsed := by
    intro depth last isFirst ts rest hts _ _
    obtain ⟨t,ts,rfl,ht,hts⟩ := map_eq_cons_iff.mp hts
    rw [map_eq_nil_iff.mp hts,singleton_append,simple?,kind_of_shape ht,delim?_of_shape ht]
    rfl

section
variable {name : String} (hname : IsNameable name)

include hname

lemma readsAs_element : ReadsAs tight ctx (element name) where
  stretch :=
    { scans := hname.scans
      solid := by
        rw [shapes,textOf_singleton]
        exact hname.startsSolid }
  ends h := by cases h
  pretty := by
    rw [shapes,textOf_singleton]; rfl
  parsed := by
    intro depth last isFirst ts rest hts _ hf
    obtain ⟨t,ts,rfl,ht,hts⟩ := map_eq_cons_iff.mp hts
    have hk := kind_of_shape ht
    rw [map_eq_nil_iff.mp hts,hf.resolve_right Bool.noConfusion,singleton_append,
      simple?,hk,if_pos rfl,name_of_identifier hname.hasNoNull hk (text_of_shape ht)]

lemma readsAs_className : ReadsAs tight ctx (className name) where
  stretch :=
    { scans := by
        refine scans_point.append hname.scans fun rest _ => ?_
        have hi := Written.startsIdent_identifier hname.hasNoNull hname.nonempty rest
        rw [textOf_singleton,Lexer.startsDigit_of_startsIdent hi]
        rfl }
  pretty := by
    rw [render,shapes,textOf_cons,textOf_singleton,String.toList_append]
  parsed := by
    intro depth last isFirst ts rest hts _ _
    obtain ⟨t,u,vs,rfl,ht,hu,hvs⟩ := exists_pair_of_shapes hts
    have hk := kind_of_shape hu
    have hc : classAfterPoint last (u :: rest) = .ok ([.className name],rest) := by
      rw [classAfterPoint,hk,name_of_identifier hname.hasNoNull hk (text_of_shape hu)]
      rfl
    rw [map_eq_nil_iff.mp hvs,cons_append,singleton_append,simple?,kind_of_shape ht,delim?_of_shape ht,hc]
    rfl

lemma readsAs_idName : ReadsAs tight ctx (idName name) := by
  have htx : textOf ((idName name).shapes tight false) =
      '#' :: (identifier name).toList := by
    rw [shapes,textOf_singleton,String.toList_append]; rfl
  refine ⟨⟨scans_hash hname.hasNoNull hname.nonempty,.of_flat rfl,?_,rfl,rfl⟩,rfl,?_,?_,?_,?_⟩
  · rw [htx]; rfl
  · intro h
    cases h
  · rw [htx]
    exact fun _ => rfl
  · rw [shapes,textOf_singleton]; rfl
  · intro depth last isFirst ts rest hts _ _
    obtain ⟨t,us,rfl,ht,hus⟩ := map_eq_cons_iff.mp hts
    have hk := kind_of_shape ht
    rw [map_eq_nil_iff.mp hus,singleton_append,simple?,hk,name_of_hash hname.hasNoNull hk (text_of_shape ht)]

variable (hlower : lower name = name)

include hlower

lemma readsAs_pseudoClass : ReadsAs tight ctx (pseudoClass name) where
  stretch := { scans := scans_colon.append hname.scans fun _ _ => rfl }
  colon _ := rfl
  pretty := by
    rw [render,shapes,textOf_cons,textOf_singleton]
    exact String.toList_append
  parsed := by
    intro depth last isFirst ts rest hts _ _
    obtain ⟨t,u,vs,rfl,ht,hu,hvs⟩ := exists_pair_of_shapes hts
    have hk := kind_of_shape hu
    have hp : pseudo (parseDeep depth) ctx last (u :: rest) =
        .ok ([.pseudoClass name],rest) := by
      rw [pseudo,pseudoNamed,hk,keyword,name_of_identifier hname.hasNoNull hk (text_of_shape hu),hlower]
      rfl
    rw [map_eq_nil_iff.mp hvs,cons_append,singleton_append,simple?,kind_of_shape ht,hp]

lemma readsAs_pseudoElement : ReadsAs tight ctx (pseudoElement name) where
  stretch := { scans := scans_colon.append (scans_colon.append hname.scans fun _ _ => rfl) fun _ _ => rfl }
  colon _ := rfl
  pretty := by
    rw [render,shapes,textOf_cons,textOf_cons,textOf_singleton]
    exact String.toList_append
  parsed := by
    intro depth last isFirst ts rest hts _ _
    obtain ⟨t,u,vs,rfl,ht,hu,hvs⟩ := exists_pair_of_shapes hts
    obtain ⟨v,ws,rfl,hv,hws⟩ := map_eq_cons_iff.mp hvs
    have hk := kind_of_shape hv
    have hp : pseudo (parseDeep depth) ctx last (u :: v :: rest) =
        .ok ([.pseudoElement name],rest) := by
      rw [pseudo,kind_of_shape hu,pseudoNamed,hk,keyword,name_of_identifier hname.hasNoNull hk (text_of_shape hv),hlower]
      rfl
    rw [map_eq_nil_iff.mp hws,cons_append,cons_append,singleton_append,simple?,kind_of_shape ht,hp]

end

section
variable {name : String} (hname : IsNameable name)

include hname

lemma attributeTest_of_name {ts : List Token}
    (hts : ts.map shape = [(.ident,identifier name),(.rightBracket,"]")]) (last : Span)
    (rest : List Token) : attributeTest last (ts ++ rest) = .ok (.attr name none,rest) := by
  obtain ⟨t,u,vs,rfl,ht,hu,hvs⟩ := exists_pair_of_shapes hts
  have hk := kind_of_shape ht
  have hc := kind_of_shape hu
  rw [map_eq_nil_iff.mp hvs,cons_append,singleton_append,attributeTest,dropBlank_cons (by rw [hk]; decide)]
  dsimp only
  rw [hk,name_of_identifier hname.hasNoNull hk (text_of_shape ht),
    dropBlank_cons (by rw [hc]; decide),head?_cons,Option.any_some,hc]
  rfl

lemma readsAs_attr {test : Option AttributeTest}
    (hv : ∀ t ∈ test, HasNoNull t.value.toList) : ReadsAs tight ctx (attr name test) where
  stretch :=
    { scans := by
        have hb : Scans anything [(.leftBracket,"[")] := scans_char fun _ => rfl
        have hname := hname.scans.append (AttributeTest.scans_shapes hv) fun rest _ =>
          AttributeTest.endsName_shapes test rest
        exact (hb.append hname fun _ _ => rfl).mono fun _ _ => rfl
      balanced := by
        have hf : Balanced true [.ident] := .of_flat rfl
        have hg : Balanced true
            (.leftBracket :: (.ident :: (AttributeTest.shapes test).map Prod.fst) ++ [.rightBracket]) :=
          .group rfl rfl (hf.append (AttributeTest.balanced_shapes test)).inside .nil
        rw [shapes,map_cons,map_cons,map_append]
        exact hg
      solid := rfl
      first := rfl
      last := any_getLast?_append (_ :: _ :: AttributeTest.shapes test) rfl }
  pretty := AttributeTest.textOf_brackets name test
  parsed := by
    intro depth last isFirst ts rest hts _ _
    obtain ⟨t,post,rfl,ht,ha⟩ := map_eq_cons_iff.mp hts
    have hte : attributeTest last (post ++ rest) = .ok (.attr name test,rest) := by
      cases test with
      | none => exact attributeTest_of_name hname ha last rest
      | some test =>
        exact AttributeTest.attributeTest_of_shapes hname (hv test rfl) ha last rest
    rw [cons_append,simple?,kind_of_shape ht,hte]

end
end Part
end Css
