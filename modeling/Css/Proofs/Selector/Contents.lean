import Css.Proofs.Selector.ClosedUp
import Css.Proofs.Value.Reading
import Css.Proofs.Value.Recolor
import Mathlib.Data.List.Induction

/-!
# Selectors that are kept as values

The contents of an at-rule that is not known are kept as values, selectors among them.
-/
namespace Css
open List Text Token Bool Css.Part
open Written (HasNoNull IsNameable identifier)

/-! ## The components of selectors -/

namespace Combinator

def sign : Combinator → Char
  | descendant => ' '
  | child => '>'
  | nextSibling => '+'
  | laterSibling => '~'

def leadComponents (c : Combinator) : List Component := [.delim c.sign,.whitespace]

def components : Combinator → List Component
  | descendant => [.whitespace]
  | c => .whitespace :: c.leadComponents

end Combinator

namespace AttributeTest

def operatorComponents : AttributeOperator → List Component
  | .equals => [.delim '=']
  | .includes => [.delim '~',.delim '=']
  | .dashMatch => [.delim '|',.delim '=']
  | .startsWith => [.delim '^',.delim '=']
  | .endsWith => [.delim '$',.delim '=']
  | .contains => [.delim '*',.delim '=']

def valueComponent (value : String) : Component :=
  if Written.isPlain value then .ident value else .string value

def flagComponents : Option CaseFlag → List Component
  | none => []
  | some flag => [.whitespace,.ident flag.symbol]

def components : Option AttributeTest → List Component
  | none => []
  | some test =>
    operatorComponents test.operator ++ valueComponent test.value :: flagComponents test.flag

end AttributeTest

namespace Part

def components : Part → List Component
  | combinator c => c.components
  | universal => [.delim '*']
  | element name => [.ident name]
  | className name => [.delim '.',.ident name]
  | idName name => [Value.hashComponent name]
  | attr name test => [.block .square (.ident name :: AttributeTest.components test)]
  | pseudoClass name => [.colon,.ident name]
  | pseudoClassOf name sels => [.colon,.function name (ofAll sels)]
  | pseudoElement name => [.colon,.colon,.ident name]
  | nesting => [.delim '&']
  | pseudoClassText .. | pseudoElementText .. | global _ => []
where
  ofParts : List Part → List Component
    | [] => []
    | p :: ps => p.components ++ ofParts ps
  ofAll : List (List Part) → List Component
    | [] => []
    | [s] => if Selector.opens s then ofParts s else (ofParts s).tail
    | s :: sels =>
      (if Selector.opens s then ofParts s else (ofParts s).tail) ++ .comma :: .whitespace :: ofAll sels

/-- Whether an id is written otherwise as a value: as a shorter colour, or with a digit first. -/
def isRewritten : Part → Bool
  | idName name => (Value.hashComponent name).render true != "#" ++ identifier name
  | _ => false

end Part

/-! ## Parts -/

namespace Part
open Component Component.render Value

/-- How a part is kept: as its components, which are read from its tokens and written as them. -/
structure IsContent (p : Part) : Prop where
  read : IsRead endsRange p.components (p.shapes false false)
  start : (p.shapes false false).head?.any (fun s => p.isType || endsRange s) = true := by rfl
  first : p.components.head?.any (leads p.isPseudo) = true := by rfl
  last : p.components.getLast?.any Component.isSolid = true := by rfl
  pretty : (renderList false none p.components).toList = textOf (p.shapes false false) := by rfl
  minified : (renderList true none p.components).toList = textOf (p.closedUp.shapes true false) := by rfl

lemma IsContent.exists_start {p : Part} (h : p.IsContent) : (p.shapes false false).head?.any whatever := by
  have hs := h.start
  cases hsh : p.shapes false false with
  | nil =>
    rw [hsh] at hs; cases hs
  | cons s l => rfl

lemma isContent_universal : IsContent universal where
  read := (isRead_delim '*').mono

lemma isContent_nesting : IsContent nesting where
  read := (isRead_delim '&').mono

section
variable {name : String} (hname : IsNameable name)

include hname

lemma isContent_element : IsContent (element name) where
  read := isRead_ident hname.hasNoNull
  pretty := toList_renderList false none rfl
  minified := toList_renderList true none rfl

lemma isContent_className : IsContent (className name) where
  read := (isRead_delim '.').append (isRead_ident hname.hasNoNull) rfl
  pretty := toList_renderList false none rfl
  minified := toList_renderList true none rfl

lemma isContent_pseudoClass : IsContent (pseudoClass name) where
  read := isRead_colon.append (isRead_ident hname.hasNoNull) rfl
  pretty := toList_renderList false none rfl
  minified := toList_renderList true none rfl

lemma isContent_pseudoElement : IsContent (pseudoElement name) where
  read := isRead_colon.append (isRead_colon.append (isRead_ident hname.hasNoNull) rfl) rfl
  pretty := toList_renderList false none rfl
  minified := toList_renderList true none rfl

lemma isContent_idName (h : (idName name).isRewritten = false) : IsContent (idName name) := by
  have hr (minify : Bool) : (hashComponent name).render minify = "#" ++ identifier name := by
    rw [isRewritten,bne_eq_false_iff_eq] at h
    rw [← h]
    unfold hashComponent
    split <;> rfl
  have hm : (hashComponent name).isSolid ∧ (hashComponent name).leads false ∧
      [hashComponent name].all (fun c => !(c.isWhitespace || c.isComma)) := by
    unfold hashComponent
    split <;> exact ⟨rfl,rfl,rfl⟩
  have ht (minify : Bool) : (renderList minify none [hashComponent name]).toList =
      textOf [(.idHash,"#" ++ identifier name)] := by
    rw [toList_renderList minify none hm.2.2,flatMap_cons,hr]; rfl
  exact ⟨(isRead_hash hname.hasNoNull).mono,rfl,hm.2.1,hm.1,ht false,ht true⟩

end
end Part

/-! ## Blanks between components -/

namespace Selector
open Component Component.render

section
variable {xs ys : List Component} (hlast : xs.getLast?.any Component.isSolid = true) {pseudo : Bool}
  (hfirst : ys.head?.any (leads pseudo) = true)

lemma isWhitespace_of_leads {c : Component} (h : c.leads pseudo) : c.isWhitespace = false := by
  rw [leads,and_eq_true,and_eq_true,not_eq_true'] at h
  exact h.1.1

include hfirst

lemma head_of_leads : ys.head?.any (fun c => !c.isWhitespace) := by
  cases ys with
  | nil => cases hfirst
  | cons c ys =>
    rw [head?_cons,Option.any_some,isWhitespace_of_leads hfirst]; rfl

lemma renderList_space {a : Component} (ha : a.isSolid) (m : Bool) :
    renderList m (some a) (.whitespace :: ys) = (if m && pseudo then "" else " ") ++ renderList m none ys := by
  cases ys with
  | nil => cases hfirst
  | cons b ys => exact renderList_blank ha hfirst m ys

lemma toList_lead (c : Combinator) (m : Bool) : (renderList m none (c.leadComponents ++ ys)).toList =
      textOf (c.leadShapes (m && pseudo)) ++ (renderList m none ys).toList := by
  have hs : (Component.delim c.sign).isSolid := by cases c <;> rfl
  have hsy : String.singleton c.sign = c.symbol := by cases c <;> rfl
  change (String.singleton c.sign ++ renderList m (some (.delim c.sign)) (.whitespace :: ys)).toList = _
  rw [renderList_space hfirst hs,hsy,Combinator.leadShapes,textOf_cons,String.toList_append,
    String.toList_append,append_assoc]
  cases m <;> cases pseudo <;> rfl

include hlast

lemma toList_joined (minify : Bool) : (renderList minify none (xs ++ ys)).toList =
      (renderList minify none xs).toList ++ (renderList minify none ys).toList := by
  rw [renderList_append minify none hlast,renderList_of_head minify _ (head_of_leads hfirst),String.toList_append]

lemma toList_descendant (minify : Bool) : (renderList minify none (xs ++ .whitespace :: ys)).toList =
      (renderList minify none xs).toList ++ (textOf (gap (minify && pseudo)) ++ (renderList minify none ys).toList) := by
  obtain ⟨a,hxs,ha⟩ := (Option.any_eq_true _ _).mp hlast
  rw [renderList_append minify none hlast,hxs,renderList_space hfirst ha,String.toList_append,String.toList_append]
  cases minify <;> cases pseudo <;> rfl

lemma toList_combinator (c : Combinator) (m : Bool) (hb : c = .descendant → (m && pseudo) = false) :
    (renderList m none (xs ++ (c.components ++ ys))).toList =
      (renderList m none xs).toList ++ (textOf (c.shapes (m && pseudo)) ++ (renderList m none ys).toList) := by
  by_cases hc : c = .descendant
  · subst hc
    have hd := toList_descendant hlast hfirst m
    rwa [hb rfl] at hd
  · have hcm : c.components ++ ys = .whitespace :: (c.leadComponents ++ ys) ∧
        (c.leadComponents ++ ys).head?.any (leads false) := by
      cases c with
      | descendant => exact absurd rfl hc
      | _ => exact ⟨rfl,rfl⟩
    rw [hcm.1,toList_descendant hlast hcm.2,toList_lead hfirst c,Combinator.shapes_of_ne _ hc,
      textOf_cons,Bool.and_false,append_assoc]
    rfl

end
end Selector

/-! ## Attributes -/

namespace AttributeTest
open Component Component.render Value

lemma isRead_operator (op : AttributeOperator) : IsRead whatever (operatorComponents op) (operatorShapes op) := by
  have he : IsRead whatever [.delim '='] [(.delim,"=")] := isRead_delim '='
  cases op with
  | equals => exact he
  | includes => exact (isRead_delim '~').append he rfl
  | dashMatch => exact (isRead_delim '|').append he rfl
  | startsWith => exact (isRead_delim '^').append he rfl
  | endsWith => exact (isRead_delim '$').append he rfl
  | contains => exact (isRead_delim '*').append he rfl

section
variable {test : AttributeTest} (hvalue : HasNoNull test.value.toList)

lemma isSolid_value (value : String) : (valueComponent value).isSolid := by
  unfold valueComponent
  split <;> rfl

include hvalue

lemma isRead_value : IsRead endsRange [valueComponent test.value] [valueShape test.value] := by
  unfold valueComponent valueShape
  split
  · rename_i hp
    obtain ⟨_,heq⟩ := isNameable_of_isPlain hvalue hp
    have hr := isRead_ident hvalue
    rwa [heq] at hr
  · exact (isRead_string hvalue).mono

lemma render_value (m : Bool) : (valueComponent test.value).render m = (valueShape test.value).2 := by
  unfold valueComponent valueShape
  split
  · rename_i hp
    exact (isNameable_of_isPlain hvalue hp).2
  · rfl

lemma isRead_some : IsRead endsRange (components (some test)) (shapes (some test)) := by
  have hr := isRead_value hvalue
  have hlast : [valueComponent test.value].getLast?.any (fun c => !c.isWhitespace) := by
    unfold valueComponent
    split <;> rfl
  rw [components,shapes]
  cases test.flag with
  | none => exact (isRead_operator test.operator).append hr rfl
  | some flag =>
    obtain ⟨hname,heq⟩ := isNameable_symbol flag
    have hf := isRead_ident hname.hasNoNull
    rw [heq] at hf
    exact (isRead_operator test.operator).append ((hr.blank rfl hlast).append hf rfl) rfl

lemma toList_some (minify : Bool) (name : String) :
    (renderList minify none (.ident name :: components (some test))).toList =
      textOf ((.ident,identifier name) :: shapes (some test)) := by
  have ht : (renderList minify none
      (.ident name :: (operatorComponents test.operator ++ [valueComponent test.value]))).toList =
        textOf ((.ident,identifier name) :: (operatorShapes test.operator ++ [valueShape test.value])) := by
    have ha : (.ident name :: (operatorComponents test.operator ++ [valueComponent test.value])).all
        (fun c => !(c.isWhitespace || c.isComma)) := by
      have hm : [valueComponent test.value].all (fun c => !(c.isWhitespace || c.isComma)) := by
        unfold valueComponent
        split <;> rfl
      rw [all_cons,all_append,hm]
      cases test.operator <;> rfl
    have ho : (operatorComponents test.operator).flatMap (fun c => (c.render minify).toList) =
        textOf (operatorShapes test.operator) := by
      cases test.operator <;> rfl
    rw [toList_renderList minify none ha,flatMap_cons,flatMap_append,ho,
      flatMap_singleton,render_value hvalue,textOf_cons,textOf_append,textOf_singleton]
    rfl
  rw [components,shapes]
  cases test.flag with
  | none => exact ht
  | some flag =>
    have hlast : (Component.ident name :: (operatorComponents test.operator ++ [valueComponent test.value])).getLast?.any
        Component.isSolid := any_getLast?_append (_ :: operatorComponents test.operator) (isSolid_value test.value)
    have hflag : [Component.ident flag.symbol].head?.any (leads false) := rfl
    have hw : (renderList minify none [.ident flag.symbol]).toList = flag.symbol.toList := by
      rw [toList_renderList minify none rfl,flatMap_singleton,Component.render,(isNameable_symbol flag).2]
    have hb := Selector.toList_descendant hlast hflag minify
    rw [ht,hw,cons_append,append_assoc] at hb
    refine hb.trans ?_
    rw [textOf_cons,textOf_cons,textOf_append,textOf_append,Bool.and_false,append_assoc,append_assoc,
      textOf_singleton,textOf_cons (valueShape _),flagShapes,textOf_cons,textOf_singleton]
    rfl

end

lemma isTrimmed_components (name : String) (test : Option AttributeTest) :
    isTrimmed (.ident name :: components test) := by
  cases test with
  | none => rfl
  | some test =>
    rw [components,← cons_append,isTrimmed,getLast?_append]
    have hvalue := isSolid_value test.value
    rcases test.flag with - | flag
    · rw [Component.isSolid,not_eq_true',or_eq_false_iff,or_eq_false_iff] at hvalue
      rw [flagComponents,getLast?_singleton,Option.some_or,Option.all_some,hvalue.1.1]; rfl
    · rfl

end AttributeTest

namespace Part
open Component Component.render Value

lemma isContent_attr {name : String} (hname : IsNameable name)
    {test : Option AttributeTest} (hvalue : ∀ t ∈ test, HasNoNull t.value.toList) :
    IsContent (attr name test) := by
  have hr : IsRead endsRange (.ident name :: AttributeTest.components test)
      ((.ident,identifier name) :: AttributeTest.shapes test) := by
    cases test with
    | none => exact isRead_ident hname.hasNoNull
    | some test =>
      refine (isRead_ident hname.hasNoNull).append (AttributeTest.isRead_some (hvalue test rfl)) ?_
      obtain ⟨op,value,flag⟩ := test
      cases op <;> rfl
  have htx (minify : Bool) : (renderList minify none (.ident name :: AttributeTest.components test)).toList =
      textOf ((.ident,identifier name) :: AttributeTest.shapes test) := by
    cases test with
    | none => exact toList_renderList minify none rfl
    | some test => exact AttributeTest.toList_some (hvalue test rfl) minify name
  have hs : textOf ((attr name test).shapes false false) =
      "[".toList ++ (textOf ((.ident,identifier name) :: AttributeTest.shapes test) ++ "]".toList) := by
    rw [shapes,textOf_cons,← cons_append,textOf_append,textOf_singleton]
  have hb (minify : Bool) :
      (renderList minify none [.block .square (.ident name :: AttributeTest.components test)]).toList =
        textOf ((attr name test).shapes false false) := by
    rw [toList_renderList minify none rfl,flatMap_singleton,Component.render,
      String.toList_append,String.toList_append,htx,hs,append_assoc]
    rfl
  refine ⟨?_,rfl,rfl,rfl,hb false,hb true⟩
  refine (hr.group ?_ (.inr (.inl rfl)) rfl rfl ?_).mono
  · exact AttributeTest.isTrimmed_components name test
  · intro file dashed t pre ht
    rw [Frame.close,kind_of_shape ht]

end Part

namespace Selector
open Part.components

open Component Component.render Value

def components (s : Selector) : Value :=
  if s.opens then Part.components.ofParts s else (Part.components.ofParts s).tail

def componentsAll (sels : List Selector) : Value := Part.components.ofAll sels

lemma componentsAll_cons (s : Selector) {sels : List Selector} (hne : sels ≠ []) : componentsAll (s :: sels) =
      s.components ++ .comma :: .whitespace :: componentsAll sels := by
  cases sels with
  | nil => exact absurd rfl hne
  | cons s' sels => rfl

lemma ofParts_append (ps parts' : List Part) : ofParts (ps ++ parts') = ofParts ps ++ ofParts parts' := by
  induction ps with
  | nil => rfl
  | cons p ps ih => rw [cons_append,Part.components.ofParts,ih,← append_assoc]; rfl

/-! ## Chains -/

structure ChainContent (s : Selector) : Prop where
  read : IsRead endsRange (ofParts s) (Part.shapes.ofParts false s)
  start : (Part.shapes.ofParts false s).head?.any whatever = true
  first : (ofParts s).head?.any (leads (s.head?.any Part.isPseudo)) = true
  last : (ofParts s).getLast?.any Component.isSolid = true
  pretty : (renderList false none (ofParts s)).toList =
    textOf (Part.shapes.ofParts false s)
  minified : (renderList true none (ofParts s)).toList =
    textOf (Part.shapes.ofParts true s.closedUp)

section
variable {p : Part}

lemma isCombinator_closedUp (h : p.isCombinator = false) : p.closedUp.isCombinator = false := by
  cases p with
  | combinator c => cases h
  | _ => rfl

lemma chainContent_singleton (hs : p.isCombinator = false) (h : p.IsContent) : ChainContent [p] := by
  have hc : ofParts [p] = p.components := append_nil _
  have hsh : shapes.ofParts false [p] = p.shapes false false := by
    rw [ofParts_cons hs]
    exact append_nil _
  have hcl : shapes.ofParts true (closedUp [p]) = p.closedUp.shapes true false := by
    rw [closedUp_cons hs,ofParts_cons (isCombinator_closedUp hs)]
    exact append_nil _
  constructor
  · rw [hc,hsh]
    exact h.read
  · rw [hsh]
    exact h.exists_start
  · rw [hc]
    exact h.first
  · rw [hc]
    exact h.last
  · rw [hc,hsh]
    exact h.pretty
  · rw [hc,hcl]
    exact h.minified

variable {ps : List Part}

lemma chainContent_cons (hs : p.isCombinator = false) (h : p.IsContent)
    (h' : ChainContent ps) (hr : (shapes.ofParts false ps).head?.any endsRange) :
    ChainContent (p :: ps) := by
  have hc : ofParts (p :: ps) = p.components ++ ofParts ps := rfl
  constructor
  · rw [hc,ofParts_cons hs]
    exact h.read.append h'.read hr
  · rw [ofParts_cons hs]
    exact any_head?_append h.exists_start _
  · rw [hc]
    exact any_head?_append h.first _
  · rw [hc]
    exact any_getLast?_append _ h'.last
  · rw [hc,toList_joined h.last h'.first,h.pretty,h'.pretty,ofParts_cons hs,textOf_append]
  · rw [hc,toList_joined h.last h'.first,h.minified,h'.minified,closedUp_cons hs,
      ofParts_cons (isCombinator_closedUp hs),textOf_append]

lemma chainContent_of_parts (hne : ps ≠ []) (hs : ∀ p ∈ ps, p.isCombinator = false)
    (h : ∀ p ∈ ps, p.IsContent) (ht : ∀ p ∈ ps.tail, p.isType = false) : ChainContent ps := by
  induction ps, hne using recNeNil with
  | singleton p => exact chainContent_singleton (hs p mem_cons_self) (h p mem_cons_self)
  | cons p ps hn ih =>
    obtain ⟨hp,hps⟩ := forall_mem_cons.mp h
    obtain ⟨hsp,hss⟩ := forall_mem_cons.mp hs
    refine chainContent_cons hsp hp (ih hss hps fun r hr => ht r (mem_of_mem_tail hr)) ?_
    obtain ⟨q,ps,rfl⟩ := exists_cons_of_ne_nil hn
    have hst := (hps q mem_cons_self).start
    rw [ht q mem_cons_self] at hst
    rw [ofParts_cons (hss q mem_cons_self)]
    exact any_head?_append hst _

lemma isRead_lead {ys : List Component} {l : List Shape} (h : IsRead endsRange ys l)
    (hst : l.head?.any whatever) (c : Combinator) :
    IsRead endsRange (c.leadComponents ++ ys) (c.leadShapes false ++ l) := by
  have hsy : String.ofList [c.sign] = c.symbol := by cases c <;> rfl
  have hs := isRead_delim c.sign
  rw [hsy] at hs
  exact (hs.blank rfl rfl).append h hst

lemma any_not_isWhitespace {x : Option Component} (h : x.any Component.isSolid) : x.any fun c => !c.isWhitespace := by
  obtain ⟨c,hc,hs⟩ := (Option.any_eq_true _ _).mp h
  refine (Option.any_eq_true _ _).mpr ⟨c,hc,?_⟩
  cases c with
  | whitespace => cases hs
  | _ => rfl

lemma isRead_combined {xs ys : List Component} {l l' : List Shape}
    (h : IsRead endsRange xs l) (hlast : xs.getLast?.any Component.isSolid) (h' : IsRead endsRange ys l')
    (hs : l'.head?.any whatever) (c : Combinator) :
    IsRead endsRange (xs ++ (c.components ++ ys)) (l ++ (c.shapes false ++ l')) := by
  have hb := h.blank rfl (any_not_isWhitespace hlast)
  by_cases hc : c = .descendant
  · subst hc
    have hr := hb.append h' hs
    rwa [append_assoc,append_assoc] at hr
  · have hr := hb.append (isRead_lead h' hs c) rfl
    rw [append_assoc,append_assoc] at hr
    cases c with
    | descendant => exact absurd rfl hc
    | _ => exact hr

lemma chainContent_combined {rest : Selector} (hs : ∀ p ∈ ps, p.isCombinator = false)
    (h : ChainContent ps) (h' : ChainContent rest) (ho : rest.opens) (c : Combinator) :
    ChainContent (ps ++ .combinator c :: rest) := by
  have hcm : ofParts (ps ++ .combinator c :: rest) = ofParts ps ++ (c.components ++ ofParts rest) := ofParts_append _ _
  have hne : ps ≠ [] := by
    rintro rfl
    cases h.start
  have hps : (ps ++ .combinator c :: rest).head?.any Part.isPseudo = ps.head?.any Part.isPseudo := by
    cases ps with
    | nil => exact absurd rfl hne
    | cons p ps => rfl
  have hs' : ∀ p ∈ ps.map Part.closedUp, p.isCombinator = false :=
    forall_mem_map.mpr fun p hp => isCombinator_closedUp (hs p hp)
  constructor
  · rw [hcm,ofParts_combined hs]
    exact isRead_combined h.read h.last h'.read h'.start c
  · rw [ofParts_combined hs]
    exact any_head?_append h.start _
  · rw [hcm,hps]
    exact any_head?_append h.first _
  · rw [hcm]
    exact any_getLast?_append _ (any_getLast?_append _ h'.last)
  · rw [hcm,ofParts_combined hs,textOf_append,textOf_append,← h.pretty,← h'.pretty]
    exact toList_combinator h.last h'.first c false fun _ => rfl
  · rw [hcm,closedUp_compound hs,closedUp_combinator]
    split
    · rename_i hl
      rw [isLost,Bool.and_eq_true,beq_iff_eq] at hl
      obtain ⟨rfl,hr⟩ := hl
      have hfirst := h'.first
      rw [hr] at hfirst
      rw [ofParts_compound hs',textOf_append,← closedUp_of_simple hs,← h.minified,← h'.minified]
      exact toList_descendant h.last hfirst true
    · rename_i hk
      rw [ofParts_combined hs',textOf_append,textOf_append,← closedUp_of_simple hs,
        ← h.minified,← h'.minified,head?_closedUp ho]
      refine toList_combinator h.last h'.first c true ?_
      rintro rfl
      exact (Bool.not_eq_true _).mp hk

lemma chainContent_of_isChain {inner : Context → Selector → Prop} {ctx : Context}
    {s : Selector} (hs : IsChain inner ctx s) (h : ∀ p ∈ s, p.Fits inner ctx → p.IsContent) :
    ChainContent s := by
  have hc {ps : List Part} (hpr : IsCompound inner ctx ps)
      (h : ∀ p ∈ ps, p.Fits inner ctx → p.IsContent) : ChainContent ps :=
    chainContent_of_parts hpr.nonempty (fun p hp => (hpr.fits p hp).isCombinator)
      (fun p hp => h p hp (hpr.fits p hp)) hpr.isType
  induction hs with
  | compound hpr => exact hc hpr h
  | @combined ps c rest hpr hr ih =>
    have hl := hc hpr fun p hp => h p (mem_append_left _ hp)
    have hl' := ih fun p hp => h p (mem_append_right _ (mem_cons_of_mem _ hp))
    exact chainContent_combined (fun p hp => (hpr.fits p hp).isCombinator) hl hl' hr.opens c

end

/-! ## Lists -/

structure IsContent (s : Selector) : Prop where
  read : IsRead endsRange s.components (s.shapes false)
  start : (s.shapes false).head?.any whatever = true
  first : s.components.head?.any (fun c => !c.isWhitespace) = true
  last : s.components.getLast?.any Component.isSolid = true
  pretty : (renderList false none s.components).toList = textOf (s.shapes false)
  minified : (renderList true none s.components).toList = textOf (s.closedUp.shapes true)

lemma isContent_chain {s : Selector} (ho : s.opens)
    (ho' : s.closedUp.opens) (h : ChainContent s) : s.IsContent := by
  have hc : s.components = ofParts s := if_pos ho
  have hs : s.shapes false = shapes.ofParts false s := if_pos ho
  have hcl : s.closedUp.shapes true = shapes.ofParts true s.closedUp := if_pos ho'
  constructor
  · rw [hc,hs]
    exact h.read
  · rw [hs]
    exact h.start
  · rw [hc]
    exact head_of_leads h.first
  · rw [hc]
    exact h.last
  · rw [hc,hs]
    exact h.pretty
  · rw [hc,hcl]
    exact h.minified

lemma isContent_relative {s : Selector} {c : Combinator} (hc : c ≠ .descendant)
    (ho : s.opens) (h : ChainContent s) : IsContent (.combinator c :: s) := by
  have hcm : components (.combinator c :: s) = c.leadComponents ++ ofParts s := by
    cases c with
    | descendant => exact absurd rfl hc
    | _ => rfl
  have hs (tight : Bool) (s : Selector) : shapes tight (.combinator c :: s) =
      c.leadShapes (tight && s.head?.any Part.isPseudo) ++ Part.shapes.ofParts tight s := by
    cases c with
    | descendant => exact absurd rfl hc
    | _ => rfl
  have hcl : closedUp (.combinator c :: s) = .combinator c :: s.closedUp := by
    rw [closedUp_combinator,isLost,beq_false_of_ne hc]; rfl
  constructor
  · rw [hcm,hs]
    exact isRead_lead h.read h.start c
  · rw [hs]; rfl
  · rw [hcm]; rfl
  · rw [hcm]
    exact any_getLast?_append _ h.last
  · rw [hcm,hs,textOf_append,← h.pretty]
    exact toList_lead h.first c false
  · rw [hcm,hcl,hs,textOf_append,← h.minified,head?_closedUp ho]
    exact toList_lead h.first c true

section
variable {sels : List Selector} (h : ∀ s ∈ sels, s.IsContent)

include h

lemma componentsAll_ends (hne : sels ≠ []) : (componentsAll sels).head?.any (fun c => !c.isWhitespace) ∧
      (componentsAll sels).getLast?.any Component.isSolid ∧ (shapesAll false sels).head?.any whatever := by
  induction sels, hne using recNeNil with
  | singleton s =>
    have hs := h s mem_cons_self
    exact ⟨hs.first,hs.last,hs.start⟩
  | cons s sels hn ih =>
    obtain ⟨hs,hm⟩ := forall_mem_cons.mp h
    obtain ⟨-,hlast,-⟩ := ih hm
    rw [componentsAll_cons s hn,shapesAll_cons false s hn]
    refine ⟨any_head?_append hs.first _,?_,any_head?_append hs.start _⟩
    exact any_getLast?_append _ (any_getLast?_append [Component.comma,.whitespace] hlast)

lemma isTrimmed_componentsAll (hne : sels ≠ []) : isTrimmed (componentsAll sels) := by
  obtain ⟨hfirst,hlast,-⟩ := componentsAll_ends h hne
  exact isTrimmed_of_ends hfirst (any_not_isWhitespace hlast)

lemma isRead_componentsAll (hne : sels ≠ []) : IsRead endsRange (componentsAll sels) (shapesAll false sels) := by
  induction sels, hne using recNeNil with
  | singleton s => exact (h s mem_cons_self).read
  | cons s sels hn ih =>
    obtain ⟨hs,hr⟩ := forall_mem_cons.mp h
    have hc := (hs.read.append isRead_comma rfl).blank rfl (any_getLast?_append _ rfl)
    have ha := hc.append (ih hr) (componentsAll_ends hr hn).2.2
    rw [componentsAll_cons s hn,shapesAll_cons false s hn]
    rw [append_assoc,append_assoc,append_assoc,append_assoc] at ha
    exact ha

lemma toList_componentsAll {minify : Bool} {f : Selector → Selector}
    (htx : ∀ s ∈ sels, (renderList minify none s.components).toList = textOf ((f s).shapes minify)) :
    (renderList minify none (componentsAll sels)).toList = textOf (shapesAll minify (sels.map f)) := by
  induction sels with
  | nil => rfl
  | cons s sels ih =>
    have hs := h s mem_cons_self
    by_cases hn : sels = []
    · subst hn
      exact htx s mem_cons_self
    · have hr : ∀ t ∈ sels, t.IsContent := fun t ht => h t (mem_cons_of_mem s ht)
      have hmr := ih hr fun t ht => htx t (mem_cons_of_mem s ht)
      have hm : sels.map f ≠ [] := fun hm => hn (map_eq_nil_iff.mp hm)
      rw [componentsAll_cons s hn,map_cons,shapesAll_cons minify (f s) hm,
        renderList_append minify none hs.last,renderList_comma minify _ (componentsAll_ends hr hn).1,
        String.toList_append,String.toList_append,htx s mem_cons_self,hmr,textOf_append,
        textOf_cons,textOf_append]
      cases minify <;> rfl

end

/-! ## Pseudo-classes of selectors -/

lemma ne_of_mem_selectorFunctions : ∀ name ∈ selectorFunctions, (name == "url") = false ∧ (name == "var") = false ∧
      (name == "rgb" || name == "rgba") = false ∧ (name == "hsl" || name == "hsla") = false ∧
        (name == "hwb") = false ∧ (name == "lab") = false ∧ (name == "lch") = false ∧
          (name == "oklab") = false ∧ (name == "oklch") = false := by
  decide

lemma call_of_mem_selectorFunctions {name : String} (h : name ∈ selectorFunctions)
    (file : SourceFile) (dashed : Bool) (opening : Span) (args : Value) :
    call file dashed name opening args = .ok (.function name args) := by
  obtain ⟨hu,hv,hr,hh,hhw,hl,hlc,ho,hok⟩ := ne_of_mem_selectorFunctions name h
  have hc : Color.ofFunction? name args = none := by
    rw [Color.ofFunction?]
    cases Color.Arguments.ofValue? args with
    | none => rfl
    | some a =>
      simp only [bind,Option.bind,hr,hh,hhw,hl,hlc,ho,hok,Bool.false_eq_true,if_false,ite_self]
  unfold call
  rw [hu,hv,hc]; rfl

lemma isContent_pseudoClassOf {name : String} (hname : name ∈ selectorFunctions)
    {sels : List Selector} (hne : sels ≠ []) (h : ∀ s ∈ sels, s.IsContent) :
    Part.IsContent (.pseudoClassOf name sels) := by
  obtain ⟨hn,-,hl,-⟩ := isNameable_of_mem_selectorFunctions name hname
  obtain ⟨hfirst,hlast,-⟩ := componentsAll_ends h hne
  have hg : IsRead whatever [.function name (componentsAll sels)]
      ((.function,identifier name ++ "(") :: (shapesAll false sels ++ [(.rightParen,")")])) := by
    refine (isRead_componentsAll h hne).group (isTrimmed_componentsAll h hne) (.inl rfl) rfl rfl ?_
    intro file dashed t pre ht
    have hk := kind_of_shape ht
    rw [Frame.close,hk]
    dsimp only
    rw [keyword,name_of_function hn hk (text_of_shape ht),hl]
    exact call_of_mem_selectorFunctions hname file dashed _ _
  have htx {minify : Bool} {selectors' : List Selector}
      (htx : (renderList minify none (componentsAll sels)).toList = textOf (shapesAll minify selectors')) :
      (renderList minify none [.colon,.function name (componentsAll sels)]).toList =
        textOf ((Part.pseudoClassOf name selectors').shapes minify false) := by
    have hsh : (Part.pseudoClassOf name selectors').shapes minify false =
        (.colon,":") :: (.function,identifier name ++ "(") ::
          (shapesAll minify selectors' ++ [(.rightParen,")")]) := rfl
    rw [toList_renderList minify none rfl,flatMap_cons,flatMap_singleton,
      Component.render,Component.render,String.toList_append,String.toList_append,htx,hsh,
      textOf_cons,textOf_cons,textOf_append,textOf_singleton,append_assoc]
  refine ⟨(isRead_colon.append hg rfl).mono,rfl,rfl,rfl,?_,?_⟩
  · have hp := toList_componentsAll h (f := id) fun s hs => (h s hs).pretty
    rw [map_id] at hp
    exact htx hp
  · have hm := toList_componentsAll h fun s hs => (h s hs).minified
    rw [Part.closedUp,closedUpAll_eq_map]
    exact htx hm

/-! ## Parsed selectors -/

section
variable {ctx : Context}

lemma opens_closedUp {s : Selector} (h : s.opens) : s.closedUp.opens := by
  cases s with
  | nil => cases h
  | cons p s =>
    have hp := (not_eq_true' _).mp h
    rw [closedUp_cons hp,opens,head?_cons,Option.any_some,isCombinator_closedUp hp]; rfl

/-- What is kept as a value if no arguments in it are kept as text and no id is written otherwise. -/
def IsKept (_ : Context) (s : Selector) : Prop :=
  s.anywhere Part.isText = false → s.anywhere Part.isRewritten = false → s.IsContent

lemma isContent_part {p : Part} (h : p.Fits IsKept ctx)
    (ht : p.anywhere isText = false) (hid : p.anywhere isRewritten = false) :
    p.IsContent := by
  cases h with
  | universal => exact isContent_universal
  | element hname => exact isContent_element hname
  | className hname => exact isContent_className hname
  | idName hname => exact isContent_idName hname (or_eq_false_iff.mp hid).1
  | attr hname hvalue => exact isContent_attr hname hvalue
  | pseudoClass hname _ => exact isContent_pseudoClass hname
  | pseudoElement hname _ => exact isContent_pseudoElement hname
  | pseudoClassOf hname hne hi =>
    have htx := anywhere_of_anywhereInAny (or_eq_false_iff.mp ht).2
    have his := anywhere_of_anywhereInAny (or_eq_false_iff.mp hid).2
    exact isContent_pseudoClassOf hname hne fun s hs => hi s hs (htx s hs) (his s hs)
  | nesting => exact isContent_nesting
  | text hp =>
    cases p with
    | pseudoClassText => cases ht
    | pseudoElementText => cases ht
    | _ => cases hp

lemma isKept_of_isParsed (s : Selector) (h : IsParsed IsKept ctx s) : IsKept ctx s := by
  intro ht hid
  have hpr {s : Selector} (ht : s.anywhere Part.isText = false)
      (hid : s.anywhere Part.isRewritten = false) : ∀ p ∈ s, p.Fits IsKept ctx → p.IsContent := by
    intro p hp hf
    rw [anywhere,any_eq_false] at ht hid
    exact isContent_part hf ((Bool.not_eq_true _).mp (ht p hp)) ((Bool.not_eq_true _).mp (hid p hp))
  cases h.complex with
  | chain hs =>
    have hch := chainContent_of_isChain hs (hpr ht hid)
    exact isContent_chain hs.opens (opens_closedUp hs.opens) hch
  | relative hct hc hs =>
    rw [anywhere,any_cons,Bool.or_eq_false_iff] at ht hid
    exact isContent_relative hc hs.opens (chainContent_of_isChain hs (hpr ht.2 hid.2))

end
end Selector
end Css
