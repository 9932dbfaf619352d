import Css.Proofs.Selector.Leading
import Css.Proofs.Token.Legible

/-!
# What the parser of selectors gives

Without switches of scope a parsed selector is made of compounds with one combinator between each two.
-/
namespace Css
open List Token Bool Text
namespace Text

lemma toLower_ascii : ∀ n < 128, (Char.ofNat n).toLower.toLower = (Char.ofNat n).toLower ∧
    (n ≠ 0 → (Char.ofNat n).toLower.toNat ≠ 0) := by
  decide

lemma toLower_cases (c : Char) : c.toLower = c ∨ c.toNat < 128 := by
  unfold Char.toLower
  split
  · rename_i h
    refine .inr ?_
    have hz : c.toNat ≤ 90 := h.2
    omega
  · exact .inl rfl

lemma toLower_toLower (c : Char) : c.toLower.toLower = c.toLower := by
  rcases toLower_cases c with h | h
  · rw [h,h]
  · have ha := (toLower_ascii c.toNat h).1
    rwa [Char.ofNat_toNat] at ha

lemma lower_lower (s : String) : lower (lower s) = lower s := by
  rw [lower,lower,String.toList_ofList,map_map]
  exact congrArg String.ofList (map_congr_left fun c _ => toLower_toLower c)

lemma hasNoNull_lower {s : String} (h : Written.HasNoNull s.toList) : Written.HasNoNull (lower s).toList := by
  rw [lower,String.toList_ofList]
  intro c hc
  obtain ⟨d,hd,rfl⟩ := mem_map.mp hc
  rcases toLower_cases d with hs | ha
  · rw [hs]
    exact h d hd
  · have hl := (toLower_ascii d.toNat ha).2 (h d hd)
    rwa [Char.ofNat_toNat] at hl

lemma lower_ne_empty {s : String} (h : s ≠ "") : lower s ≠ "" := by
  rw [lower,ne_eq,String.ofList_eq_empty_iff,map_eq_nil_iff,String.toList_eq_nil_iff]
  exact h

end Text

structure Written.IsNameable (s : String) : Prop where
  hasNoNull : HasNoNull s.toList
  nonempty : s ≠ ""

lemma Token.Legible.isNameable {t : Token} (h : t.Legible) (hk : Lexer.isNamed t.kind) :
    Written.IsNameable t.name :=
  ⟨h.name,h.nonempty hk⟩

lemma Token.Legible.isNameable_keyword {t : Token} (h : t.Legible) (hk : Lexer.isNamed t.kind) :
    Written.IsNameable t.keyword ∧ lower t.keyword = t.keyword :=
  ⟨⟨hasNoNull_lower h.name,lower_ne_empty (h.nonempty hk)⟩,lower_lower t.name⟩

namespace Part

def isType : Part → Bool
  | universal | element _ => true
  | _ => false

def isText : Part → Bool
  | pseudoClassText .. | pseudoElementText .. => true
  | _ => false

/-- What the parser makes parts of where no scope is switched, if `inner` holds of what it makes of
arguments. -/
inductive Fits (inner : Selector.Context → Selector → Prop) (ctx : Selector.Context) : Part → Prop
  | universal : Fits inner ctx universal
  | element {name : String} (hname : Written.IsNameable name) : Fits inner ctx (element name)
  | className {name : String} (hname : Written.IsNameable name) : Fits inner ctx (className name)
  | idName {name : String} (hname : Written.IsNameable name) : Fits inner ctx (idName name)
  | attr {name : String} {test : Option AttributeTest} (hname : Written.IsNameable name)
      (hvalue : ∀ t ∈ test, Written.HasNoNull t.value.toList) : Fits inner ctx (attr name test)
  | pseudoClass {name : String} (hname : Written.IsNameable name)
      (hlower : Text.lower name = name) : Fits inner ctx (pseudoClass name)
  | pseudoElement {name : String} (hname : Written.IsNameable name)
      (hlower : Text.lower name = name) : Fits inner ctx (pseudoElement name)
  | pseudoClassOf {name : String} {selectors : List Selector}
      (hname : name ∈ Selector.selectorFunctions) (hne : selectors ≠ [])
      (hinner : ∀ s ∈ selectors, inner (ctx.arguments (name == "has")) s) :
      Fits inner ctx (pseudoClassOf name selectors)
  | nesting : Fits inner ctx nesting
  | text {p : Part} (htext : p.isText = true) : Fits inner ctx p

lemma Fits.isCombinator {inner : Selector.Context → Selector → Prop} {ctx : Selector.Context}
    {p : Part} (h : Fits inner ctx p) : p.isCombinator = false := by
  cases p with
  | combinator c =>
    cases h with
    | text ht => cases ht
  | _ => rfl

end Part

namespace Selector

section
variable {inner : Context → Selector → Prop} {nested : Nested} {ctx : Context} {last : Span}

def AllLegible (ts : List Token) : Prop := ∀ t ∈ ts, t.Legible

variable {ts : List Token}

lemma AllLegible.sublist {tokens' : List Token} (h : AllLegible ts) (hs : tokens'.Sublist ts) : AllLegible tokens' :=
  fun t ht => h t (hs.subset ht)

variable {rest : List Token}

lemma hasNoNull_of_attributeValue {value : String} (hl : AllLegible ts)
    (h : attributeValue last ts = .ok (value,rest)) : Written.HasNoNull value.toList := by
  unfold attributeValue at h
  split at h
  · cases h
  · rename_i t post
    have ht := hl t mem_cons_self
    split at h
    · cases h
      exact ht.name
    · split at h
      · cases h
        exact ht.value
      · cases h

lemma fits_of_attributeTest {p : Part} (hl : AllLegible ts)
    (h : attributeTest last ts = .ok (p,rest)) : p.Fits inner ctx ∧ p.isType = false := by
  obtain ⟨t,post,u,ha,hk,-,-,hp⟩ := attributeTest_cases h
  have hnm := (hl t (ha.subset mem_cons_self)).isNameable (by rw [hk]; rfl)
  rcases hp with rfl | ⟨operator,value,flag,middle,more,hm,hv,rfl⟩
  · exact ⟨.attr hnm (by rintro t ⟨⟩),rfl⟩
  · have hr := hm.trans ((suffix_cons t post).trans ha)
    refine ⟨.attr hnm fun t ht => ?_,rfl⟩
    rw [← Option.some.inj ht]
    exact hasNoNull_of_attributeValue (hl.sublist hr.sublist) hv

/-- What is relative to the enclosing rule may refer to it. This is so in all contexts of rules and of
arguments. -/
def Context.IsConsistent (ctx : Context) : Prop := ctx.implicit = true → ctx.nesting = true

lemma Context.isConsistent_arguments (ctx : Context) (relative : Bool) : (ctx.arguments relative).IsConsistent :=
  fun h => absurd h false_ne_true

/-- A parser for the selectors inside of a selector, if `inner` holds of what it gives where no scope is
switched. -/
def Nested.Gives (inner : Context → Selector → Prop) (nested : Nested) : Prop :=
  ∀ ctx ts s, ctx.modules = false → ctx.IsConsistent → AllLegible ts → nested ctx ts = .ok s → inner ctx s

lemma Nested.Gives.parseList (hn : nested.Gives inner) (hmodules : ctx.modules = false)
    (hc : ctx.IsConsistent) (hl : AllLegible ts) {sels : List Selector}
    (h : parseList nested ctx ts = .ok sels) :
    sels ≠ [] ∧ ∀ s ∈ sels, inner ctx s := by
  unfold Selector.parseList at h
  dsimp only at h
  split at h
  · cases h
  · rename_i hpr
    obtain ⟨hln,hm⟩ := mem_of_mapM_ok h
    refine ⟨?_,fun s hs => ?_⟩
    · rintro rfl
      rw [length_nil,eq_comm,length_eq_zero_iff] at hln
      rw [hln] at hpr
      exact hpr rfl
    · obtain ⟨part,hpa,hs⟩ := hm s hs
      split at hs
      · cases hs
      · obtain ⟨p,hp,rfl⟩ := mem_map.mp hpa
        have hsb := (Cursor.trimBlank_sublist p).trans (Cursor.sublist_of_mem_commaParts hp)
        exact hn ctx _ s hmodules hc (hl.sublist hsb) hs

variable (hn : nested.Gives inner) (hmodules : ctx.modules = false)

include hn hmodules

variable {ps : List Part}

lemma fits_of_pseudoFunction {name : String} {args : List Token}
    (hl : AllLegible args) (h : pseudoFunction nested ctx name args = .ok ps) :
    ∃ p, ps = [p] ∧ p.Fits inner ctx ∧ p.isType = false := by
  unfold pseudoFunction at h
  rw [hmodules] at h
  simp only [Bool.false_and,Bool.false_eq_true,if_false] at h
  split at h
  · rename_i hnm
    obtain ⟨sels,hs,h⟩ := ok_of_bind_ok h
    cases h
    have hmodules : (ctx.arguments (name == "has")).modules = false := hmodules
    obtain ⟨hne,hi⟩ := hn.parseList hmodules (ctx.isConsistent_arguments _) hl hs
    exact ⟨_,rfl,.pseudoClassOf (contains_iff_mem.mp hnm) hne hi,rfl⟩
  · cases h
    exact ⟨_,rfl,.text rfl,rfl⟩

lemma fits_of_simple? {isFirst : Bool} (hl : AllLegible ts)
    (h : simple? nested ctx last isFirst ts = .ok (some (ps,rest))) :
    (∃ p, ps = [p] ∧ p.Fits inner ctx ∧ (isFirst ∨ p.isType = false)) ∧ rest <:+ ts := by
  have hs := isSimple_of_simple? h
  obtain ⟨v,hv⟩ := suffix_of_isSimple hs
  refine ⟨?_,(suffix_cons v rest).trans hv⟩
  cases hs with
  | @element t _ hk hf =>
    exact ⟨_,rfl,.element ((hl t mem_cons_self).isNameable (by rw [hk]; rfl)),.inl hf⟩
  | @idName t _ hk =>
    exact ⟨_,rfl,.idName ((hl t mem_cons_self).isNameable (by rw [hk]; rfl)),.inr rfl⟩
  | attr ha =>
    obtain ⟨hft,hty⟩ := fits_of_attributeTest (hl.sublist (sublist_cons_self _ _)) ha
    exact ⟨_,rfl,hft,.inr hty⟩
  | universal _ hf => exact ⟨_,rfl,.universal,.inl hf⟩
  | nesting => exact ⟨_,rfl,.nesting,.inr rfl⟩
  | @className t u _ hk =>
    exact ⟨_,rfl,.className ((hl u (by simp)).isNameable (by rw [hk]; rfl)),.inr rfl⟩
  | @pseudoElement t c u _ hk =>
    obtain ⟨hnm,hlw⟩ := (hl u (by simp)).isNameable_keyword (by rw [hk]; rfl)
    exact ⟨_,rfl,.pseudoElement hnm hlw,.inr rfl⟩
  | pseudoElementText => exact ⟨_,rfl,.text rfl,.inr rfl⟩
  | @pseudoClass t u _ _ hk =>
    obtain ⟨hnm,hlw⟩ := (hl u (by simp)).isNameable_keyword (by rw [hk]; rfl)
    exact ⟨_,rfl,.pseudoClass hnm hlw,.inr rfl⟩
  | @pseudoFunction t u _ args _ _ _ _ hs hp =>
    obtain ⟨v,-,rfl⟩ := eq_of_splitParens hs
    have ha : args <+ t :: u :: (args ++ v :: rest) :=
      (sublist_append_left args _).trans ((sublist_cons_self u _).trans (sublist_cons_self t _))
    obtain ⟨p,hpr,hft,hty⟩ := fits_of_pseudoFunction hn hmodules (hl.sublist ha) hp
    exact ⟨p,hpr,hft,.inr hty⟩

end

structure IsCompound (inner : Context → Selector → Prop) (ctx : Context) (ps : List Part) :
    Prop where
  nonempty : ps ≠ []
  fits : ∀ p ∈ ps, p.Fits inner ctx
  isType : ∀ p ∈ ps.tail, p.isType = false

inductive IsChain (inner : Context → Selector → Prop) (ctx : Context) : Selector → Prop
  | compound {ps : List Part} (hparts : IsCompound inner ctx ps) : IsChain inner ctx ps
  | combined {ps : List Part} {c : Combinator} {rest : Selector}
      (hparts : IsCompound inner ctx ps) (hrest : IsChain inner ctx rest) :
      IsChain inner ctx (ps ++ .combinator c :: rest)

inductive IsComplex (inner : Context → Selector → Prop) (ctx : Context) : Selector → Prop
  | chain {s : Selector} (hs : IsChain inner ctx s) : IsComplex inner ctx s
  | relative {c : Combinator} {s : Selector} (hctx : (ctx.relative || ctx.implicit) = true)
      (hc : c ≠ .descendant) (hs : IsChain inner ctx s) : IsComplex inner ctx (.combinator c :: s)

section
variable {inner : Context → Selector → Prop} {nested : Nested} {ctx : Context} {last : Span}
  (hn : nested.Gives inner) (hmodules : ctx.modules = false)

include hn hmodules

variable {ts : List Token}

lemma fits_of_compound {isFirst : Bool} {rest : List Token} {ps : List Part}
    (hl : AllLegible ts) (h : compound nested ctx last isFirst ts = .ok (ps,rest)) :
    (∀ p ∈ ps, p.Fits inner ctx) ∧ (∀ p ∈ ps.tail, p.isType = false) ∧
      (isFirst = false → ∀ p ∈ ps, p.isType = false) ∧ rest <:+ ts := by
  fun_induction compound nested ctx last isFirst ts generalizing ps rest with
  | case1 => cases h
  | case2 =>
    cases h
    simp
  | case3 => cases h
  | case4 isFirst ts first post hs hlt more rest' hr ih =>
    cases h
    obtain ⟨⟨p,rfl,hf,ht⟩,ha⟩ := fits_of_simple? hn hmodules hl hs
    obtain ⟨hm,-,hla,hrs⟩ := ih (hl.sublist ha.sublist) hr
    refine ⟨?_,hla rfl,?_,hrs.trans ha⟩
    · intro q hq
      rcases mem_cons.mp hq with rfl | hq
      · exact hf
      · exact hm q hq
    · rintro rfl q hq
      rcases mem_cons.mp hq with rfl | hq
      · exact ht.resolve_left false_ne_true
      · exact hla rfl q hq

lemma isChain_of_compounds {s : Selector} (hl : AllLegible ts)
    (h : compounds nested ctx last ts = .ok s) : IsChain inner ctx s := by
  have hcm {ts rest : List Token} {part : Part} {ps : List Part} (hl : AllLegible ts)
      (h : compound nested ctx last true ts = .ok (part :: ps,rest)) :
      IsCompound inner ctx (part :: ps) ∧ rest <:+ ts := by
    obtain ⟨hf,ht,-,hr⟩ := fits_of_compound hn hmodules hl h
    exact ⟨⟨cons_ne_nil part ps,hf,ht⟩,hr⟩
  refine compounds_induction (motive := fun ts s => AllLegible ts → IsChain inner ctx s) ?_ ?_ h hl
  · intro ts rest part ps hp hl
    exact .compound (hcm hl hp).1
  · intro ts rest us part ps c s hp hus _ ih hl
    obtain ⟨hp,hr⟩ := hcm hl hp
    exact .combined hp (ih (hl.sublist (hus.trans hr).sublist))

lemma isComplex_of_complex {s : Selector} (hl : AllLegible ts)
    (h : complex nested ctx ts = .ok s) : IsComplex inner ctx s := by
  have hb {rest : List Token} : dropBlank rest <:+ rest := dropWhile_suffix _
  unfold complex at h
  dsimp only at h
  split at h
  · exact .chain (isChain_of_compounds hn hmodules (fun t ht => by cases ht) h)
  · rename_i t rest heq
    have hr : t :: rest <:+ ts := heq ▸ hb
    split at h
    · exact .chain (isChain_of_compounds hn hmodules (hl.sublist hr.sublist) h)
    · rename_i c hc
      split at h
      · rename_i hct
        split at h
        · cases h
        · rename_i ps hp
          cases h
          have hs := hb.trans ((suffix_cons t rest).trans hr)
          refine .relative hct ?_ (isChain_of_compounds hn hmodules (hl.sublist hs.sublist) hp)
          rintro rfl
          unfold combinator? at hc
          split at hc <;> cases hc
      · cases h

end

variable {inner : Context → Selector → Prop}

lemma IsChain.opens {ctx : Context} {s : Selector} (h : IsChain inner ctx s) : s.opens := by
  have hc {ps : List Part} (hpr : IsCompound inner ctx ps) : Selector.opens ps := by
    cases ps with
    | nil => exact absurd rfl hpr.nonempty
    | cons p ps =>
      have hp := (hpr.fits p mem_cons_self).isCombinator
      rw [Selector.opens,head?_cons,Option.any_some,hp]; rfl
  cases h with
  | compound hpr => exact hc hpr
  | combined hpr _ => exact opens_append (hc hpr) _

structure IsParsed (inner : Context → Selector → Prop) (ctx : Context) (s : Selector) : Prop where
  complex : IsComplex inner ctx s
  nesting : ∀ ts, checkNesting ctx ts s = .ok s

section
variable {inner : Context → Selector → Prop} {ctx : Context} {s : Selector}

lemma relativeToParent_of_opens (h : s.opens) : relativeToParent s = [.nesting] ++ .combinator .descendant :: s := by
  unfold relativeToParent
  split
  · cases h
  · rfl

lemma isComplex_relativeToParent (h : IsComplex inner ctx s) : IsComplex inner ctx (relativeToParent s) := by
  have hpr : IsCompound inner ctx [.nesting] := by
    refine ⟨cons_ne_nil _ _,?_,?_⟩
    · intro p hp
      rw [mem_singleton.mp hp]
      exact .nesting
    · intro p hp
      cases hp
  cases h with
  | chain hs =>
    rw [relativeToParent_of_opens hs.opens]
    exact .chain (.combined hpr hs)
  | relative hct hc hs => exact .chain (.combined hpr hs)

lemma isParsed_of_checkNesting (hc : ctx.IsConsistent) {ts : List Token} {t : Selector}
    (hs : IsComplex inner ctx s) (h : checkNesting ctx ts s = .ok t) : IsParsed inner ctx t := by
  rcases checkNesting_eq_ok_iff.mp h with ⟨hns,ha,rfl⟩ | ⟨hns,hr,rfl⟩
  · exact ⟨hs,fun ts => checkNesting_eq_ok_iff.mpr (.inl ⟨hns,ha,rfl⟩)⟩
  · cases hi : ctx.implicit with
    | true =>
      have hn := hasNesting_relativeToParent s
      exact ⟨isComplex_relativeToParent hs,fun ts =>
        checkNesting_eq_ok_iff.mpr (.inl ⟨hn,hc hi,rfl⟩)⟩
    | false =>
      exact ⟨hs,fun ts => checkNesting_eq_ok_iff.mpr (.inr ⟨hns,hr,by rw [hi]; rfl⟩)⟩

end

/-- What the parser of one level gives, from what the parser of the levels inside of it gives. -/
lemma Nested.Gives.parseWith {nested : Nested} (hn : nested.Gives inner) :
    Nested.Gives (IsParsed inner) (parseWith nested) := by
  intro ctx ts t hmodules hc hl h
  obtain ⟨s,hcm,h⟩ := ok_of_bind_ok h
  rw [hmodules] at h
  exact isParsed_of_checkNesting hc (isComplex_of_complex hn hmodules hl hcm) h

lemma gives_parseDeep (hs : ∀ ctx s, IsParsed inner ctx s → inner ctx s) (depth : Nat) :
    Nested.Gives inner (parseDeep depth) := by
  induction depth with
  | zero =>
    intro ctx ts s _ _ _ h
    cases h
  | succ depth ih =>
    intro ctx ts s hmodules hc hl h
    exact hs ctx s (ih.parseWith ctx ts s hmodules hc hl h)

end Selector
end Css
