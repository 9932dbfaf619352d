import Css.Proofs.Rule.Contents
import Css.Sheet.Transform
import Mathlib.Logic.Basic

/-!
# Rules with custom media queries resolved

To resolve custom media queries is to drop the definitions and to visit the queries of what is left.
-/
namespace Css
open MediaCondition.lowerRanges MediaCondition.hasFeature Bool Rule Option List
namespace MediaFeature

lemma lowerComparison?_eq_some {name : String} {cmp : Comparison} {value : Value}
    {f : MediaFeature} (h : lowerComparison? name cmp value = some f) :
    ∃ name value, f = plain name value := by
  unfold lowerComparison? at h
  simp only at h
  split at h
  · cases cmp with
    | equal | greaterEqual | lessEqual =>
      cases h
      exact ⟨_,_,rfl⟩
    | greater | less =>
      obtain ⟨value,_,rfl⟩ := map_eq_some_iff.mp h
      exact ⟨_,_,rfl⟩
  · cases h

lemma lower_cases (f : MediaFeature) :
    f.lower = .feature f ∨ (∃ name value, f.lower = .feature (plain name value)) ∨ ∃ name value name' value',
        f.lower = .operation .and [.feature (plain name value),.feature (plain name' value')] := by
  cases f with
  | plain name value => exact .inl rfl
  | boolean name => exact .inl rfl
  | range name cmp value =>
    cases h : lowerComparison? name cmp value with
    | none =>
      left
      simp [lower,h]
    | some f =>
      obtain ⟨name,value,rfl⟩ := lowerComparison?_eq_some h
      exact .inr (.inl ⟨name,value,by simp [lower,h]⟩)
  | interval start first name second stop =>
    cases h : lowerComparison? name first.flip start with
    | none =>
      left
      simp [lower,h]
    | some f =>
      cases h' : lowerComparison? name second stop with
      | none =>
        left
        simp [lower,h,h']
      | some g =>
        obtain ⟨name,value,rfl⟩ := lowerComparison?_eq_some h
        obtain ⟨name',value',rfl⟩ := lowerComparison?_eq_some h'
        exact .inr (.inr ⟨name,value,name',value',by simp [lower,h,h']⟩)

end MediaFeature

namespace MediaCondition

lemma lowerOperands_append (con : Connective) (cs ds : List MediaCondition) : lowerOperands con (cs ++ ds) =
      lowerOperands con cs ++ lowerOperands con ds := by
  induction cs with
  | nil => rfl
  | cons c cs ih =>
    rw [cons_append,lowerOperands,lowerOperands,ih,append_assoc]

lemma lowerOperands_operands {c : MediaCondition} (h : c.lowerRanges = c) (connective : Connective) :
    lowerOperands connective (c.operands connective) = c.operands connective := by
  have ho : c.operands connective = [c] → lowerOperands connective (c.operands connective) = c.operands connective := by
    intro hc
    rw [hc,lowerOperands,lowerOperands,h,hc]; rfl
  cases c with
  | operation inner cs =>
    by_cases hi : inner = connective
    · subst hi
      have hcs : lowerOperands inner cs = cs := by injection h
      simp only [operands,if_pos]
      exact hcs
    · exact ho (if_neg hi)
  | feature f => exact ho rfl
  | negation c => exact ho rfl
  | unknown text => exact ho rfl

lemma lowerRanges_idem (c : MediaCondition) : c.lowerRanges.lowerRanges = c.lowerRanges := by
  induction c using induct with
  | feature f =>
    rw [lowerRanges]
    rcases f.lower_cases with h | ⟨name,value,h⟩ | ⟨name,value,name',value',h⟩
    · rw [h,lowerRanges,h]
    · rw [h]; rfl
    · rw [h]; rfl
  | negation c ih => exact congrArg negation ih
  | nil con => rfl
  | cons con c cs hc hcs =>
    rw [lowerRanges,lowerOperands,lowerRanges,lowerOperands_append,lowerOperands_operands hc con,(operation.inj hcs).2]
  | unknown text => rfl

lemma anyHasFeature_append (p : MediaFeature → Bool) (cs ds : List MediaCondition) :
    anyHasFeature p (cs ++ ds) = (anyHasFeature p cs || anyHasFeature p ds) := by
  induction cs with
  | nil => rfl
  | cons c cs ih =>
    rw [List.cons_append,anyHasFeature,anyHasFeature,ih,Bool.or_assoc]

lemma anyHasFeature_operands (p : MediaFeature → Bool) (con : Connective)
    (c : MediaCondition) : anyHasFeature p (c.operands con) = c.hasFeature p := by
  have ho : anyHasFeature p [c] = c.hasFeature p := or_false _
  cases c with
  | operation inner cs =>
    by_cases hi : inner = con
    · rw [operands,if_pos hi]; rfl
    · rw [operands,if_neg hi]
      exact ho
  | feature f => exact ho
  | negation c => exact ho
  | unknown text => exact ho

lemma hasFeature_lowerRanges {p : MediaFeature → Bool}
    (hp : ∀ name value, p (.plain name value) = false) (c : MediaCondition)
    (h : c.hasFeature p = false) : c.lowerRanges.hasFeature p = false := by
  induction c using induct with
  | feature f =>
    rw [lowerRanges]
    rcases f.lower_cases with heq | ⟨name,value,heq⟩ | ⟨name,value,name',value',heq⟩
    · rw [heq]
      exact h
    · rw [heq]
      exact hp name value
    · rw [heq]
      simp [hasFeature,anyHasFeature,hp]
  | negation c ih => exact ih h
  | nil con => rfl
  | cons con c cs hc hcs =>
    obtain ⟨h,hs⟩ := or_eq_false_iff.mp h
    rw [lowerRanges,lowerOperands,hasFeature,anyHasFeature_append,anyHasFeature_operands,hc h]
    exact hcs hs
  | unknown text => rfl

end MediaCondition

namespace MediaList

def hasFeature (p : MediaFeature → Bool) (media : MediaList) : Bool :=
  media.any fun query => query.condition.any (MediaCondition.hasFeature p)

lemma lowerRanges_idem (media : MediaList) : media.lowerRanges.lowerRanges = media.lowerRanges := by
  unfold lowerRanges
  rw [List.map_map]
  apply List.map_congr_left
  rintro ⟨qualifier,mediaType,cond⟩ _
  cases cond with
  | none => rfl
  | some c =>
    exact congrArg (fun c => (⟨qualifier,mediaType,some c⟩ : MediaQuery)) c.lowerRanges_idem

lemma lowerMedia_idem (media : MediaList) : lowerMedia (lowerMedia media) = lowerMedia media := by
  unfold lowerMedia
  by_cases h : media.hasRange
  · rw [if_pos h,lowerRanges_idem,ite_self]
  · rw [if_neg h,if_neg h]

lemma hasFeature_lowerMedia {p : MediaFeature → Bool}
    (hp : ∀ name value, p (.plain name value) = false) {media : MediaList} (h : media.hasFeature p = false) :
    (lowerMedia media).hasFeature p = false := by
  unfold lowerMedia
  split
  · rw [hasFeature,List.any_eq_false] at h ⊢
    intro q hq
    obtain ⟨pre,hb,rfl⟩ := List.mem_map.mp hq
    have hn := h pre hb
    cases hc : pre.condition with
    | none => simp
    | some c =>
      rw [hc] at hn
      simp only [map_some,any_some,not_eq_true] at hn ⊢
      exact MediaCondition.hasFeature_lowerRanges hp c hn
  · exact h

end MediaList
end Css

namespace Css.CustomMedia
open Bool Rule Option Checks List

lemma exists_of_isDefinition {r : Rule} (h : isDefinition r) :
    ∃ name ms location, r = .statement (.customMedia name ms) location := by
  unfold isDefinition at h
  split at h
  · exact ⟨_,_,_,rfl⟩
  · cases h

def isReference (f : MediaFeature) : Bool := (featureName? f).isSome

lemma featureName?_of_not_isReference {f : MediaFeature} (h : isReference f = false) : featureName? f = none := by
  rw [← isNone_iff_eq_none,← isSome_eq_false_iff]
  exact h

section
variable {lookup : String → Except TransformCause MediaList}

/-- What a condition can become when the names in it are replaced. -/
inductive ExpandsTo (lookup : String → Except TransformCause MediaList) :
    MediaCondition → MediaCondition → Prop
  | kept {f : MediaFeature} (h : featureName? f = none) : ExpandsTo lookup (.feature f) (.feature f)
  | replaced {f : MediaFeature} {name : String} {ms : MediaList} {c : MediaCondition}
    (h : featureName? f = some name) (hm : lookup name = .ok ms)
    (hs : soleCondition? ms = some c) : ExpandsTo lookup (.feature f) c
  | negation {c d : MediaCondition} (h : ExpandsTo lookup c d) :
    ExpandsTo lookup (.negation c) (.negation d)
  | nil {con : Connective} : ExpandsTo lookup (.operation con []) (.operation con [])
  | cons {con : Connective} {c d : MediaCondition} {cs ds : List MediaCondition}
    (h : ExpandsTo lookup c d) (hs : ExpandsTo lookup (.operation con cs) (.operation con ds)) :
    ExpandsTo lookup (.operation con (c :: cs)) (.operation con (d :: ds))
  | unknown {text : String} : ExpandsTo lookup (.unknown text) (.unknown text)

lemma expandsTo_of_ok {c c' : MediaCondition} (h : expandCondition lookup c = .ok c') : ExpandsTo lookup c c' := by
  induction c using MediaCondition.induct generalizing c' with
  | feature f =>
    rw [expandCondition] at h
    split at h
    · rename_i hn
      cases h
      exact .kept hn
    · rename_i name hn
      obtain ⟨ms,hm,h⟩ := ok_of_bind_ok h
      split at h
      · rename_i c hs
        cases h
        exact .replaced hn hm hs
      · cases h
  | negation c ih =>
    obtain ⟨d,hd,h⟩ := ok_of_bind_ok h
    cases h
    exact .negation (ih hd)
  | nil | unknown =>
    cases h
    constructor
  | cons con c cs hc hcs =>
    obtain ⟨all,ha,h⟩ := ok_of_bind_ok h
    cases h
    obtain ⟨d,ds,hd,hds,rfl⟩ := ok_of_bind₂_ok ha
    exact .cons (hc hd) (hcs (by rw [expandCondition,hds]; rfl))

lemma expandCondition_of_no_reference (c : MediaCondition)
    (h : c.hasFeature isReference = false) : expandCondition lookup c = .ok c := by
  induction c using MediaCondition.induct with
  | feature f => rw [expandCondition,featureName?_of_not_isReference h]
  | negation c ih =>
    rw [expandCondition,ih h]; rfl
  | nil con => rfl
  | cons con c cs hc hcs =>
    obtain ⟨h,hs⟩ := or_eq_false_iff.mp h
    obtain ⟨ds,hds,heq⟩ := ok_of_bind_ok (hcs hs)
    cases heq
    rw [expandCondition,expandCondition.expandAll,hc h,hds]; rfl
  | unknown text => rfl

lemma expandQuery_of_no_reference {q : MediaQuery}
    (h : q.condition.any (MediaCondition.hasFeature isReference) = false) :
    expandQuery lookup q = .ok [q] := by
  have hn : reference? q = none := by
    unfold reference?
    split
    · exact featureName?_of_not_isReference h
    · rfl
  rw [expandQuery,hn]
  obtain ⟨qualifier,mediaType,cond⟩ := q
  cases cond with
  | none => rfl
  | some c =>
    simp only
    rw [expandCondition_of_no_reference c h]; rfl

variable {ms : MediaList}

lemma expandList_of_no_reference (h : ms.hasFeature isReference = false) : expandList lookup ms = .ok ms := by
  induction ms with
  | nil => rfl
  | cons q qs ih =>
    obtain ⟨hq,hqr⟩ := or_eq_false_iff.mp h
    rw [expandList,expandQuery_of_no_reference hq,ih hqr]; rfl

def Expands (lookup : String → Except TransformCause MediaList) : Prop :=
  ∀ name ms, lookup name = .ok ms → ms.hasFeature isReference = false

lemma no_reference_of_expandsTo (hl : Expands lookup) {c c' : MediaCondition}
    (h : ExpandsTo lookup c c') : c'.hasFeature isReference = false := by
  induction h with
  | kept hn => exact congrArg isSome hn
  | replaced _ hm hs =>
    have hn := hl _ _ hm
    unfold soleCondition? at hs
    split at hs
    · cases hs
      exact (or_eq_false_iff.mp hn).1
    · cases hs
  | negation _ ih => exact ih
  | nil | unknown => rfl
  | cons _ _ ih ihs => exact or_eq_false_iff.mpr ⟨ih,ihs⟩

lemma no_reference_of_expandQuery (hl : Expands lookup) {q : MediaQuery}
    (h : expandQuery lookup q = .ok ms) : ms.hasFeature isReference = false := by
  unfold expandQuery at h
  split at h
  · exact hl _ ms h
  · split at h
    · rename_i hc
      cases h
      simp [MediaList.hasFeature,hc]
    · rename_i c hc
      obtain ⟨d,hd,h⟩ := ok_of_bind_ok h
      cases h
      simpa [MediaList.hasFeature] using no_reference_of_expandsTo hl (expandsTo_of_ok hd)

lemma no_reference_of_expandList (hl : Expands lookup) {media' : MediaList}
    (h : expandList lookup ms = .ok media') : media'.hasFeature isReference = false := by
  induction ms generalizing media' with
  | nil =>
    cases h
    rfl
  | cons q qs ih =>
    obtain ⟨first,rest,hf,hr,rfl⟩ := ok_of_bind₂_ok h
    rw [MediaList.hasFeature,List.any_append,Bool.or_eq_false_iff]
    exact ⟨no_reference_of_expandQuery hl hf,ih hr⟩

end

lemma no_reference_of_lookup (defs : MediaDefinitions) (entered : List String)
    (name : String) {ms : MediaList} (h : lookup defs entered name = .ok ms) :
    ms.hasFeature isReference = false := by
  rw [lookup] at h
  split at h
  · rename_i defined hd
    have := length_setAside_lt hd
    exact no_reference_of_expandList (fun next _ => no_reference_of_lookup _ _ next) h
  · split at h <;> cases h
termination_by defs.length

abbrev change (rules : List Rule) : Rule.Visitor Id := (visitor (definitions rules)).orSame

lemma resolve_eq {rs rules' : List Rule} (h : resolve rs = .ok rules') :
    rules' = visit.visitAll (change rs) (rs.filter fun r => !isDefinition r) :=
  (visitAll_of_traverseList _ h).symm

variable (rules : List Rule)

lemma change_statement (s : Statement) (loc : Location) : ((change rules).statement s loc).run = s ∨
      ∃ url layer supports ms media', s = .importSheet url layer supports ms ∧
        ((change rules).statement s loc).run = .importSheet url layer supports media' := by
  cases s with
  | importSheet url layer supports ms =>
    right
    cases he : visitor.expand (definitions rules) loc ms with
    | error e =>
      refine ⟨url,layer,supports,ms,ms,rfl,?_⟩
      simp only [change,Rule.Visitor.orSame,visitor,he]
      rfl
    | ok media' =>
      refine ⟨url,layer,supports,ms,media',rfl,?_⟩
      simp only [change,Rule.Visitor.orSame,visitor,he]
      rfl
  | _ => exact .inl rfl

lemma keeps_change : (change rules).Keeps id where
  block _ := rfl
  isEmpty _ := rfl
  keyframesName s location := by
    rcases change_statement rules s location with h | ⟨_,_,_,_,_,rfl,h⟩
    · rw [h]
    · rw [h]; rfl

lemma changesBlocks_change : (change rules).ChangesBlocks id where
  block _ := rfl
  statement s location := by
    rw [List.map_id]
    rcases change_statement rules s location with h | ⟨_,_,_,_,_,rfl,h⟩
    · rw [h]
    · rw [h]; rfl

def withoutDefinitions : Checks where
  statement _ s := ∀ name ms, s ≠ .customMedia name ms

def expanded : Checks := (Checks.ofMedia fun ms => ms.hasFeature isReference = false).both withoutDefinitions

lemma uniform_expanded : expanded.Uniform :=
  (uniform_ofMedia _).both ⟨fun _ _ _ _ h => h,fun _ _ _ h => h,fun _ _ _ h => h⟩

lemma turns_expanded {v : Rule.Visitor Id} {f : MediaList → MediaList} (hv : v.ChangesMedia f)
    (h : ∀ ms : MediaList, ms.hasFeature isReference = false →
      (f ms).hasFeature isReference = false) : v.Turns expanded expanded := by
  refine (hv.turns h).both ⟨fun _ _ h => h,fun _ _ _ h => h,fun scope s loc hs => ?_⟩
  intro name ms heq
  exact hs name ms (hv.definition s loc name ms heq)

lemma no_reference_of_expand {defs : MediaDefinitions} {loc : Location}
    {ms media' : MediaList} (h : visitor.expand defs loc ms = .ok media') :
    media'.hasFeature isReference = false := by
  unfold visitor.expand at h
  cases he : expandList (lookup defs []) ms with
  | error e =>
    rw [he] at h; cases h
  | ok result =>
    rw [he] at h; cases h
    exact no_reference_of_expandList (fun name _ => no_reference_of_lookup _ _ name) he

lemma brings_visitor (defs : MediaDefinitions) : (visitor defs).Brings (parsed.both withoutDefinitions)
      (parsed.both expanded) where
  block _ b b' h hb := by
    cases h
    exact ⟨hb.1,trivial,trivial⟩
  group scope g g' location h hg := by
    refine ⟨trivial,fun ms hm => ?_,trivial⟩
    cases g with
    | media q =>
      obtain ⟨q',hq,h⟩ := ok_of_bind_ok h
      cases h
      cases hm
      exact no_reference_of_expand hq
    | supports cond =>
      cases h
      cases hm
    | layer name =>
      cases h
      cases hm
  statement scope s s' location h hs := by
    cases s with
    | importSheet url layer supports ms =>
      obtain ⟨media',hm,h⟩ := ok_of_bind_ok h
      cases h
      refine ⟨hs.1,fun ms hmm => ?_,nofun⟩
      cases hmm
      exact no_reference_of_expand hm
    | keyframes | property | fontFace | page | namespaceOf | layers | customMedia | unknown =>
      cases h
      exact ⟨hs.1,nofun,hs.2⟩

lemma implies_withoutDefinitions : Rule.Implies (· ≠ .top) parsed withoutDefinitions where
  style := nofun
  inside scope h := by
    cases scope with
    | top => exact absurd rfl h
    | group => exact nofun
    | style => exact nofun
  block _ _ _ _ := trivial
  group _ _ _ _ := trivial
  statement scope s h hs name ms heq := by
    rw [heq] at hs
    exact h (beq_iff_eq.mp hs.1)

lemma holds_withoutDefinitions {r : Rule} (hr : isDefinition r = false)
    (h : r.Holds parsed .top) : r.Holds withoutDefinitions .top := by
  have hi := implies_withoutDefinitions
  cases r with
  | style | group => exact ⟨trivial,allHold_mono hi nofun h.2⟩
  | nest => exact nomatch h.1
  | statement s loc =>
    rintro name ms rfl
    cases hr

lemma allHold_resolve {rs rules' : List Rule} (h : resolve rs = .ok rules') (hrl : Rule.Holds.AllHold parsed .top rs) :
    Rule.Holds.AllHold (parsed.both expanded) .top rules' := by
  refine allHold_of_traverseAll (brings_visitor _) _ .top h (allHold_both.mpr ⟨?_,?_⟩)
  · rw [allHold_iff] at hrl ⊢
    exact fun r hr => hrl r (mem_filter.mp hr).1
  · rw [allHold_iff] at hrl ⊢
    intro r hr
    obtain ⟨hm,hd⟩ := mem_filter.mp hr
    exact holds_withoutDefinitions (not_eq_true' _ ▸ hd) (hrl r hm)

lemma fixes_visitor (defs : MediaDefinitions) : (visitor defs).Fixes expanded where
  block _ _ _ := rfl
  group scope g location h := by
    cases g with
    | media query =>
      simp only [visitor,visitor.expand,expandList_of_no_reference (h.1 query rfl)]
      rfl
    | supports cond => rfl
    | layer name => rfl
  statement scope s location h := by
    cases s with
    | importSheet url layer supports ms =>
      simp only [visitor,visitor.expand,expandList_of_no_reference (h.1 ms rfl)]
      rfl
    | keyframes | property | fontFace | page | namespaceOf | layers | customMedia | unknown => rfl

lemma resolve_of_expanded {rules : List Rule} (h : Rule.Holds.AllHold expanded .top rules) :
    resolve rules = .ok rules := by
  have hf : (rules.filter fun r => !isDefinition r) = rules := by
    rw [filter_eq_self]
    intro r hr
    have hh := allHold_iff.mp h r hr
    unfold isDefinition
    split
    · exact absurd rfl (hh.2 _ _)
    · rfl
  rw [resolve,hf]
  exact traverseList_of_allHold (fixes_visitor _) h

end Css.CustomMedia

namespace Css.StyleSheet
variable {sheet : StyleSheet} {rules rules' : List Rule}

lemma resolveMedia_ok (h : sheet.resolveMedia rules = .ok rules') :
    sheet.customMedia = false ∧ rules = rules' ∨ CustomMedia.resolve rules = .ok rules' := by
  unfold resolveMedia at h
  split at h
  · right
    cases hr : CustomMedia.resolve rules with
    | error e =>
      rw [hr] at h; cases h
    | ok rules =>
      rw [hr] at h; cases h
      rfl
  · rename_i hm
    exact .inl ⟨Bool.eq_false_iff.mpr hm,Except.ok.inj h⟩

lemma allHold_resolveMedia (h : sheet.resolveMedia rules = .ok rules')
    (hr : Rule.Holds.AllHold Checks.parsed .top rules) :
    Rule.Holds.AllHold Checks.parsed .top rules' := by
  rcases resolveMedia_ok h with ⟨-,rfl⟩ | h
  · exact hr
  · exact (Rule.allHold_both.mp (CustomMedia.allHold_resolve h hr)).1

end Css.StyleSheet
