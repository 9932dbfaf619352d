import Css.Proofs.Selector.Grammar
import Css.Proofs.Token.Units

/-!
# What the parser of media queries gives

The names of a media query come from tokens, so that they can be written again, and but for those of
custom media queries they are in lower case.
-/
namespace Css
open List Token Bool Value Cursor Media

structure Token.Readable (t : Token) : Prop where
  legible : t.Legible
  unit : t.kind = .dimension → Written.IsNameable t.unit
  solid : t.isBlank = false → Value.isSolid t = true

namespace Media

def AllReadable (tokens : List Token) : Prop := ∀ t ∈ tokens, t.Readable

lemma AllReadable.sublist {ts tokens' : List Token} (h : AllReadable ts)
    (hs : tokens'.Sublist ts) : AllReadable tokens' :=
  fun t ht => h t (hs.subset ht)

lemma allReadable_scanRules {src : String} (h : Written.HasNoNull src.toList) : AllReadable (scanRules src) := by
  intro t ht
  obtain ⟨ht,hc⟩ := mem_filter.mp ht
  refine ⟨legible_of_mem_scan h ht,fun hk => ?_,fun hb => ?_⟩
  · obtain ⟨hn,hne⟩ := unit_of_mem_scan h ht hk
    exact ⟨hn,hne⟩
  · have hd : (t.kind != .delim || t.delim?.isSome) := by
      by_cases hk : t.kind = .delim
      · obtain ⟨c,more,hm⟩ := exists_cons_of_ne_nil
          (fun hnl => text_ne_empty_of_mem_scan ht (String.toList_eq_nil_iff.mp hnl))
        simp [delim?,hk,hm]
      · simp [hk]
    rw [isSolid,hd,hc,bne,← isBlank,hb]; rfl

end Media

structure Written.IsLowerName (s : String) : Prop extends Written.IsNameable s where
  lower : Text.lower s = s

lemma Token.Readable.isLowerName_keyword {t : Token} (h : t.Readable) (hk : t.kind = .ident) :
    Written.IsLowerName t.keyword := by
  obtain ⟨hn,hl⟩ := h.legible.isNameable_keyword (by rw [hk]; rfl)
  exact ⟨hn,hl⟩

def Component.IsLegible : Component → Prop
  | ident name => Written.IsNameable name
  | dimension _ unit => Written.IsNameable unit
  | _ => True

def Value.IsLegible (value : Value) : Prop := ∀ c ∈ value, c.IsLegible

lemma Component.isLegible_of_holdsName {c : Component} (h : c.holdsName = false) : c.IsLegible := by
  cases c with
  | ident _ => cases h
  | dimension _ _ => cases h
  | _ => exact trivial

lemma Value.isLegible_of_parse {file : SourceFile} {dashed : Bool} {ts : List Token}
    {value : Value} (hr : Media.AllReadable ts) (h : parse file dashed ts = .ok value) :
    value.IsLegible := by
  refine all_of_parse (fun c hc => Component.isLegible_of_holdsName hc) (fun t ht c hc => ?_) h
  cases hc with
  | ident hk => exact (hr t ht).legible.isNameable (by rw [hk]; rfl)
  | dimension hk => exact (hr t ht).unit hk
  | other hn => exact Component.isLegible_of_holdsName hn

def Value.startsWithNot (value : Value) : Bool := value.head?.any fun c => c.isKeyword "not"

inductive MediaFeature.IsSound : MediaFeature → Prop
  | plain {name : String} {value : Value} (hname : Written.IsLowerName name)
      (hvalue : value.IsLegible) : IsSound (plain name value)
  | boolean {name : String} (hname : Written.IsNameable name)
      (hlower : Text.startsWith name "--" = false → Text.lower name = name) : IsSound (boolean name)
  | range {name : String} {comparison : Comparison} {value : Value}
      (hname : Written.IsLowerName name) (hvalue : value.IsLegible) :
      IsSound (range name comparison value)
  | interval {name : String} {first second : Comparison} {start stop : Value}
      (hname : Written.IsLowerName name) (hstart : start.IsLegible) (hstop : stop.IsLegible)
      (hsame : first.isAscending = second.isAscending) (hfirst : first ≠ .equal)
      (hsecond : second ≠ .equal) (hnot : start.startsWithNot = false) :
      IsSound (interval start first name second stop)

namespace Media
variable {file : SourceFile} {tokens : List Token}

lemma isLowerName_of_featureName? {name : String} (hr : AllReadable tokens)
    (h : featureName? tokens = some name) : Written.IsLowerName name := by
  unfold featureName? at h
  split at h
  · rename_i t
    split at h
    · rename_i hk
      cases h
      exact (hr t mem_cons_self).isLowerName_keyword (eq_of_beq hk)
    · cases h
  · cases h

variable {t : Token} {rest : List Token}

lemma startsWithNot_of_parse {value : Value} (hs : isSolid t)
    (hn : t.isIdent "not" = false) (h : parse file false (t :: rest) = .ok value) :
    value.startsWithNot = false := by
  cases value with
  | nil => rfl
  | cons c value =>
    cases c with
    | ident name =>
      obtain ⟨hk,hnm⟩ := ident_of_parse hs h
      rw [isIdent,hk,hnm] at hn
      exact hn
    | _ => rfl

lemma head?_of_trimBlank (h : trimBlank tokens = t :: rest) : (dropBlank tokens).head? = some t := by
  obtain ⟨more,hm⟩ := isPrefix_trimBlank tokens
  rw [← hm,h]; rfl

lemma eq_of_trimBlank_of_isPrefix {u : Token} {part more : List Token} (ht : t.isBlank = false)
    (hp : part <+: t :: rest) (h : trimBlank part = u :: more) : u = t := by
  cases part with
  | nil => cases h
  | cons v part =>
    obtain ⟨rfl,-⟩ := cons_prefix_cons.mp hp
    have hh := head?_of_trimBlank h
    rw [dropBlank_cons (by simpa [isBlank] using ht)] at hh
    exact (Option.some.inj hh).symm

lemma isSound_of_rangeFeature? {fault : Fault} {f : MediaFeature} (hr : AllReadable (t :: rest))
    (hbl : t.isBlank = false) (hnt : t.isIdent "not" = false)
    (h : rangeFeature? file fault (t :: rest) = .ok (some f)) : f.IsSound := by
  obtain ⟨hb,hp⟩ := sublist_splitComparisons (t :: rest)
  rw [rangeFeature?] at h
  generalize splitComparisons (t :: rest) = split at h hb hp
  obtain ⟨first,more⟩ := split
  have hf : AllReadable (trimBlank first) := hr.sublist ((trimBlank_sublist first).trans hb.sublist)
  have hm : ∀ part ∈ more, AllReadable (trimBlank part.2) := fun part hpr =>
    hr.sublist ((trimBlank_sublist part.2).trans (hp part hpr))
  dsimp only at h
  by_cases he : ((trimBlank first).isEmpty ||
      (more.map fun part => (part.1,trimBlank part.2)).any fun part => part.2.isEmpty) = true
  · rw [if_pos he] at h; cases h
  · rw [if_neg he] at h
    have hh : ∀ value, parse file false (trimBlank first) = .ok value → value.startsWithNot = false := by
      intro value hv
      cases ht : trimBlank first with
      | nil =>
        rw [ht] at he
        exact absurd rfl he
      | cons u part =>
        rw [ht] at hv
        obtain rfl := eq_of_trimBlank_of_isPrefix hbl hb ht
        exact startsWithNot_of_parse ((hr u mem_cons_self).solid hbl) hnt hv
    cases more with
    | nil => cases h
    | cons p more =>
      cases more with
      | nil =>
        have hs := hm p mem_cons_self
        simp only [map_cons,map_nil] at h
        cases hn : featureName? (trimBlank first) with
        | some name =>
          rw [hn] at h
          obtain ⟨value,hv,h⟩ := ok_of_bind_ok h
          cases h
          exact .range (isLowerName_of_featureName? hf hn) (isLegible_of_parse hs hv)
        | none =>
          cases hn' : featureName? (trimBlank p.2) with
          | none =>
            rw [hn,hn'] at h; cases h
          | some name =>
            rw [hn,hn'] at h
            obtain ⟨value,hv,h⟩ := ok_of_bind_ok h
            cases h
            exact .range (isLowerName_of_featureName? hs hn') (isLegible_of_parse hf hv)
      | cons q more =>
        cases more with
        | cons _ _ => cases h
        | nil =>
          have hs := hm p mem_cons_self
          have hth := hm q (mem_cons_of_mem p mem_cons_self)
          simp only [map_cons,map_nil] at h
          cases hn : featureName? (trimBlank p.2) with
          | none =>
            rw [hn] at h; cases h
          | some name =>
            rw [hn] at h
            dsimp only at h
            split at h
            · cases h
            · rename_i hsg
              simp only [not_eq_true,or_eq_false_iff,bne_eq_false_iff_eq,beq_eq_false_iff_ne] at hsg
              obtain ⟨start,stop,hst,hsp,h⟩ := ok_of_bind₂_ok h
              cases h
              exact .interval (isLowerName_of_featureName? hs hn) (isLegible_of_parse hf hst)
                (isLegible_of_parse hth hsp) hsg.1.1 hsg.1.2 hsg.2
                (hh start hst)

lemma isSound_boolean (hr : t.Readable) (hk : t.kind = .ident) :
    (MediaFeature.boolean (if Text.startsWith t.name "--" then t.name else t.keyword)).IsSound := by
  have hky := hr.isLowerName_keyword hk
  split
  · rename_i hc
    refine .boolean (hr.legible.isNameable (by rw [hk]; rfl)) fun hd => ?_
    rw [hc] at hd; cases hd
  · exact .boolean hky.toIsNameable fun _ => hky.lower

lemma isSound_of_feature? {fault : Fault} {f : MediaFeature} {inner : List Token}
    (hr : AllReadable inner) (hn : startsCondition inner = false)
    (h : feature? file fault inner = .ok (some f)) : f.IsSound := by
  have htr : AllReadable (trimBlank inner) := hr.sublist (trimBlank_sublist inner)
  rw [feature?] at h
  split at h
  · cases h
  · rename_i t rest heq
    rw [heq] at htr h
    have hb := not_isBlank_of_trimBlank heq
    have ht : t.isIdent "not" = false := by
      rw [startsCondition,head?_of_trimBlank heq] at hn
      exact (or_eq_false_iff.mp hn).2
    by_cases hk : (t.kind == .ident)
    · rw [if_pos hk] at h
      have hi := htr t mem_cons_self
      split at h
      · cases h
        exact isSound_boolean hi (eq_of_beq hk)
      · rename_i u post hrs
        by_cases hc : (u.kind == .colon)
        · rw [if_pos hc] at h
          have hs : post.Sublist (t :: rest) := (((sublist_cons_self u post).trans
              (hrs ▸ (dropWhile_suffix _).sublist))).trans (sublist_cons_self t rest)
          have ha := htr.sublist ((trimBlank_sublist post).trans hs)
          dsimp only at h
          split at h
          · cases h
          · obtain ⟨value,hv,h⟩ := ok_of_bind_ok h
            cases h
            exact .plain (hi.isLowerName_keyword (eq_of_beq hk)) (isLegible_of_parse ha hv)
        · rw [if_neg hc] at h
          exact isSound_of_rangeFeature? htr hb ht h
    · rw [if_neg hk] at h
      exact isSound_of_rangeFeature? htr hb ht h

end Media

inductive MediaCondition.IsSound : MediaCondition → Prop
  | feature {f : MediaFeature} (hf : f.IsSound) : IsSound (feature f)
  | negation {c : MediaCondition} (hc : c.IsSound) : IsSound (negation c)
  | operation {connective : Connective} {cs : List MediaCondition} (hlength : 2 ≤ cs.length)
      (hcs : ∀ c ∈ cs, c.IsSound) : IsSound (operation connective cs)
  | unknown {text : String} : IsSound (unknown text)

namespace Media
variable {rest : List Token}

section
variable {file : SourceFile} {nested : Nested} {last : Span}
  (hnested : ∀ tokens c, AllReadable tokens → nested tokens = .ok c → c.IsSound)

include hnested

variable {rest : List Token}

lemma isSound_of_inParens {tokens : List Token} {c : MediaCondition} (hr : AllReadable tokens)
    (h : inParens file nested last tokens = .ok (c,rest)) : c.IsSound ∧ rest.Sublist tokens := by
  have hs : (dropBlank tokens).Sublist tokens := (dropWhile_suffix _).sublist
  unfold inParens at h
  split at h
  · cases h
  · rename_i t post heq
    rw [heq] at hs
    split at h
    · split at h
      · cases h
      · rename_i inner more hsp
        obtain ⟨u,-,rfl⟩ := eq_of_splitParens hsp
        have hi : inner.Sublist tokens := ((sublist_append_left inner (u :: more)).cons t).trans hs
        have hm : more.Sublist tokens :=
          (((sublist_cons_self u more).trans (sublist_append_right inner _)).cons t).trans hs
        split at h
        · cases h
          exact ⟨.unknown,hm⟩
        · split at h
          · split at h
            · cases h
            · rename_i hc
              cases h
              exact ⟨hnested inner c (hr.sublist hi) hc,hm⟩
          · rename_i hst
            split at h
            · cases h
            · rename_i f hf
              cases h
              exact ⟨.feature (isSound_of_feature? (hr.sublist hi) (not_eq_true _ ▸ hst) hf),hm⟩
            · cases h
              exact ⟨.unknown,hm⟩
    · cases h

lemma isSound_of_operands {allowOr : Bool} {con result : Option Connective}
    {ts : List Token} {cs : List MediaCondition} (hr : AllReadable ts)
    (h : operands file nested last allowOr con ts = .ok (result,cs,rest)) :
    (∀ c ∈ cs, c.IsSound) ∧ rest.Sublist ts ∧ (cs = [] → result = con) := by
  induction hn : ts.length using Nat.strongRecOn generalizing ts con cs with
  | ind n ih =>
    rw [operands_eq] at h
    split at h
    · cases h
      exact ⟨forall_mem_nil _,List.Sublist.refl _,fun _ => rfl⟩
    · rename_i word post hw
      have ha := sublist_of_keyword? hw
      split at h
      · cases h
      · split at h
        · cases h
        · obtain ⟨⟨c,more⟩,hc,h⟩ := ok_of_bind_ok h
          obtain ⟨⟨con',cs',rest'⟩,hcs,h⟩ := ok_of_bind_ok h
          cases h
          obtain ⟨hsn,hm⟩ := isSound_of_inParens hnested (hr.sublist ha) hc
          have hl := Nat.lt_trans (length_inParens hc) (length_keyword? hw)
          have hs := hm.trans ha
          obtain ⟨hal,hrs,-⟩ := ih more.length (by omega) (hr.sublist hs) hcs rfl
          exact ⟨forall_mem_cons.mpr ⟨hsn,hal⟩,hrs.trans hs,fun hnl => absurd hnl (cons_ne_nil _ _)⟩

lemma isSound_of_condition {allowOr : Bool} {tokens : List Token} {c : MediaCondition}
    (hr : AllReadable tokens) (h : condition file nested last allowOr tokens = .ok (c,rest)) :
    c.IsSound ∧ rest.Sublist tokens := by
  unfold condition at h
  split at h
  · rename_i post hw
    have ha := sublist_of_keyword? hw
    obtain ⟨⟨c',more⟩,hc,h⟩ := ok_of_bind_ok h
    cases h
    obtain ⟨hs,hsb⟩ := isSound_of_inParens hnested (hr.sublist ha) hc
    exact ⟨.negation hs,hsb.trans ha⟩
  · obtain ⟨⟨c',more⟩,hc,h⟩ := ok_of_bind_ok h
    obtain ⟨⟨con,cs,rest'⟩,hcs,h⟩ := ok_of_bind_ok h
    obtain ⟨hs,hm⟩ := isSound_of_inParens hnested hr hc
    obtain ⟨hal,hrs,hn⟩ := isSound_of_operands hnested (hr.sublist hm) hcs
    cases con with
    | none =>
      cases h
      exact ⟨hs,hrs.trans hm⟩
    | some con =>
      cases h
      have hl : cs.length ≠ 0 := fun hz => by
        cases hn (length_eq_zero_iff.mp hz)
      refine ⟨.operation ?_ (forall_mem_cons.mpr ⟨hs,hal⟩),hrs.trans hm⟩
      rw [length_cons]; omega

end

lemma isSound_of_conditionDeep {file : SourceFile} {depth : Nat} {tokens : List Token}
    {c : MediaCondition} (hr : AllReadable tokens) (h : conditionDeep file depth tokens = .ok c) :
    c.IsSound := by
  induction depth generalizing tokens c with
  | zero => cases h
  | succ depth ih =>
    obtain ⟨⟨c',rest⟩,hc,h⟩ := ok_of_bind_ok h
    dsimp only at h
    split at h
    · cases h
      exact (isSound_of_condition (fun ts c hts => ih hts) hr hc).1
    · cases h

lemma exists_negation_of_condition {file : SourceFile} {nested : Nested} {last : Span}
    {allowOr : Bool} {ts post : List Token} {c : MediaCondition}
    (hw : keyword? ts = some ("not",post))
    (h : condition file nested last allowOr ts = .ok (c,rest)) : ∃ c', c = .negation c' := by
  rw [condition,hw] at h
  obtain ⟨⟨c',more⟩,hc,h⟩ := ok_of_bind_ok h
  cases h
  exact ⟨c',rfl⟩

end Media

inductive MediaQuery.IsSound : MediaQuery → Prop
  | typed {qualifier : Option Qualifier} {word : String} {condition : Option MediaCondition}
      (hname : Written.IsLowerName word) (hword : word ≠ "not")
      (hreserved : Media.reserved.contains word = false)
      (hcondition : ∀ c, condition = some c → c.IsSound) : IsSound ⟨qualifier,some word,condition⟩
  | untyped {c : MediaCondition} (hc : c.IsSound) : IsSound ⟨none,none,some c⟩
  | negated {qualifier : Qualifier} {c : MediaCondition} (hc : c.IsSound) :
      IsSound ⟨some qualifier,none,some (.negation c)⟩

def MediaList.IsSound (media : MediaList) : Prop := ∀ query ∈ media, query.IsSound

namespace Media

lemma eq_of_accepted {q q' : MediaQuery} {atEnd : Bool} {fault : Fault}
    (h : (if atEnd then pure q' else .error fault : Except Fault MediaQuery) = .ok q) : q' = q := by
  cases atEnd with
  | false => cases h
  | true => exact Except.ok.inj h

lemma isSound_of_query {file : SourceFile} {tokens : List Token} {q : MediaQuery}
    (hr : AllReadable tokens) (h : query file tokens = .ok q) : q.IsSound := by
  have hcn : ∀ {allowOr : Bool} {rest post : List Token} {c : MediaCondition}, rest.Sublist tokens →
      condition file (conditionDeep file tokens.length) (lastSpan tokens) allowOr rest = .ok (c,post) →
      c.IsSound := fun hs hc =>
    (isSound_of_condition (fun ts c hts => isSound_of_conditionDeep hts) (hr.sublist hs) hc).1
  have hrs := sublist_qualifier tokens
  rw [query] at h
  generalize qualifier tokens = found at h hrs
  obtain ⟨qualifier,rest⟩ := found
  dsimp only at h hrs
  cases hw : keyword? rest with
  | none =>
    rw [hw] at h
    dsimp only at h
    split at h
    · cases h
    · rename_i hq
      obtain rfl : qualifier = none := by simpa using hq
      obtain ⟨⟨c,more⟩,hc,h⟩ := ok_of_bind_ok h
      obtain rfl := eq_of_accepted h
      exact .untyped (hcn hrs hc)
  | some found =>
    obtain ⟨word,post⟩ := found
    obtain ⟨t,ht,hk,rfl,ha⟩ := exists_of_keyword? hw
    have hnm := (hr t (hrs.subset ht)).isLowerName_keyword hk
    rw [hw] at h
    dsimp only at h
    split at h
    · rename_i hn
      rw [beq_iff_eq] at hn
      rw [hn] at hw
      obtain ⟨⟨c,more⟩,hc,h⟩ := ok_of_bind_ok h
      obtain rfl := eq_of_accepted h
      have hsn := hcn hrs hc
      cases qualifier with
      | none => exact .untyped hsn
      | some qualifier =>
        obtain ⟨c',rfl⟩ := exists_negation_of_condition hw hc
        cases hsn with
        | negation hc => exact .negated hc
    · rename_i hn
      rw [beq_iff_eq] at hn
      split at h
      · cases h
      · rename_i hre
        rw [not_eq_true] at hre
        split at h
        · obtain rfl := eq_of_accepted h
          refine .typed hnm hn hre fun c hc => ?_
          cases hc
        · split at h
          · rename_i more han
            obtain ⟨⟨c,more'⟩,hc,h⟩ := ok_of_bind_ok h
            obtain rfl := eq_of_accepted h
            have hs := ((sublist_of_keyword? han).trans ha).trans hrs
            refine .typed hnm hn hre fun c' hc' => ?_
            cases hc'
            exact hcn hs hc
          · cases h

lemma isSound_of_mapM {file : SourceFile} {ps : List (List Token)} {media : MediaList}
    (hr : ∀ part ∈ ps, AllReadable part) (h : ps.mapM (query file) = .ok media) :
    media.IsSound := by
  induction ps generalizing media with
  | nil =>
    cases h
    exact forall_mem_nil _
  | cons part ps ih =>
    rw [mapM_cons] at h
    obtain ⟨q,qs,hq,hqs,rfl⟩ := ok_of_bind₂_ok h
    exact forall_mem_cons.mpr ⟨isSound_of_query (hr part mem_cons_self) hq,
      ih (fun p hp => hr p (mem_cons_of_mem part hp)) hqs⟩

end Media

lemma MediaList.isSound_of_parse {file : SourceFile} {ts : List Token} {media : MediaList}
    (hr : Media.AllReadable ts) (h : parse file ts = .ok media) : media.IsSound :=
  isSound_of_mapM (fun _ hp => hr.sublist ((sublist_of_mem_commaParts hp).trans (trimBlank_sublist ts))) h

end Css
