import Css.Proofs.Nesting.Substitution
import Css.Proofs.Rule.Parsed

/-!
# How selectors start

A parsed selector that is not relative to anything starts with something other than a combinator.
-/
namespace Css
open List Bool Option Checks
namespace Selector

def opens (s : Selector) : Bool := s.head?.any fun p => !p.isCombinator

lemma isRelative_of_opens {s : Selector} (h : s.opens) : s.isRelative = false := by
  cases s with
  | nil => rfl
  | cons p s => exact (not_eq_true' _).mp h

lemma opens_append {s : Selector} (h : s.opens) (t : Selector) : opens (s ++ t) := by
  cases s with
  | nil => cases h
  | cons p s => exact h

def isSwitch (p : Part) : Bool := (scopeSwitch? p).isSome

def isSpaced : Selector → Bool
  | [] => true
  | p :: rest => (!isSwitch p || isOpenBehind rest) && isSpaced rest
where
  isOpenBehind : Selector → Bool
    | .combinator _ :: rest => opens rest
    | _ => true

section
variable {ctx : Context} {span : Span} {isGlobal : Bool} {out ps : List Part} {s : Selector}

lemma isSwitch_inScope {p : Part} (h : scopeSwitch? p = none) : isSwitch (inScope isGlobal p) = false := by
  have hn : isSwitch p = false := by rw [isSwitch,h]; rfl
  cases p <;> cases isGlobal <;> first | rfl | exact hn

lemma isCombinator_inScope (p : Part) : (inScope isGlobal p).isCombinator = p.isCombinator := by
  cases p <;> cases isGlobal <;> rfl

/-- How the parts that are left become the selector `s` behind those that are done, which stand last first:
a switch goes alone, with the blank behind it or with the blank before it. -/
inductive Resolves (relative : Bool) (s : Selector) : (out parts : List Part) → Prop
  | done {out : List Part} (h : s = out.reverse) : Resolves relative s out []
  | part {p : Part} {out rest : List Part} (isGlobal : Bool) (hn : scopeSwitch? p = none)
      (h : Resolves relative s (inScope isGlobal p :: out) rest) : Resolves relative s out (p :: rest)
  | both {p : Part} {out rest : List Part} (hp : isSwitch p = true) (ho : out.head?.all Part.isCombinator = true)
      (h : Resolves relative s out rest) : Resolves relative s out (p :: .combinator .descendant :: rest)
  | blank {p : Part} {c : Combinator} {out rest : List Part} (h : Resolves relative s out (.combinator c :: rest)) :
      Resolves relative s (.combinator .descendant :: out) (p :: .combinator c :: rest)
  | switch {p q : Part} {out rest : List Part} (hp : isSwitch p = true)
      (hq : q = .combinator .descendant → out.head?.all Part.isCombinator = false)
      (hr : q.isCombinator = true → out = [] → relative = true)
      (h : Resolves relative s out (q :: rest)) : Resolves relative s out (p :: q :: rest)

lemma resolves_of_resolveScopes (h : resolveScopes ctx span isGlobal out ps = .ok s) :
    Resolves ctx.relative s out ps := by
  have hw {p : Part} {isGlobal : Bool} (h : scopeSwitch? p = some isGlobal) : isSwitch p := by rw [isSwitch,h]; rfl
  fun_induction resolveScopes ctx span isGlobal out ps with
  | case1 => exact .done (Except.ok.inj h).symm
  | case2 isGlobal out p rest hn ih => exact .part isGlobal hn (ih h)
  | case3 | case6 => cases h
  | case4 isGlobal out p isGlobal' hs standsAlone post ha ih => exact .both (hw hs) ha (ih h)
  | case5 isGlobal out p isGlobal' hs standsAlone post ha ih =>
    refine .switch (hw hs) (fun _ => eq_false_of_ne_true ha) (fun _ ho => ?_) (ih h)
    subst ho
    exact absurd rfl ha
  | case7 isGlobal out p isGlobal' hs standsAlone c post hc he hp ih =>
    have hh := beq_iff_eq.mp (and_eq_true_iff.mp hp).2
    cases out with
    | nil => cases hh
    | cons q out =>
      cases some.inj hh
      exact .blank (ih h)
  | case8 isGlobal out p isGlobal' hs standsAlone c post hc he hp ih =>
    refine .switch (hw hs) (fun heq => absurd (Part.combinator.inj heq) hc) (fun _ ho => ?_) (ih h)
    subst ho
    by_contra hr
    exact he (by rw [eq_false_of_ne_true hr]; rfl)
  | case9 isGlobal out p isGlobal' hs next post hd hc ih =>
    refine .switch (hw hs) (fun heq => absurd heq hd) (fun hn => ?_) (ih h)
    cases next with
    | combinator c => exact (hc c rfl).elim
    | _ => cases hn

lemma Resolves.not_isSwitch {relative : Bool} (h : Resolves relative s out ps) (ho : ∀ p ∈ out, isSwitch p = false) :
    ∀ p ∈ s, isSwitch p = false := by
  induction h with
  | done heq =>
    rw [heq]
    exact fun p hp => ho p (mem_reverse.mp hp)
  | part isGlobal hn _ ih => exact ih (forall_mem_cons.mpr ⟨isSwitch_inScope hn,ho⟩)
  | both _ _ _ ih | switch _ _ _ _ ih => exact ih ho
  | blank _ ih => exact ih (forall_mem_cons.mp ho).2

/-- What is done first stays at the front, unless it is a combinator that may be dropped. -/
lemma Resolves.head? {relative : Bool} (h : Resolves relative s out ps) {first : Part}
    (hf : first ≠ .combinator .descendant) (ho : out.getLast? = some first) :
    s.head? = some first := by
  induction h with
  | done heq => rw [heq,head?_reverse,ho]
  | part isGlobal hn _ ih => exact ih (by rw [getLast?_cons,ho]; rfl)
  | both _ _ _ ih | switch _ _ _ _ ih => exact ih ho
  | @blank p c out rest _ ih =>
    cases out with
    | nil => exact absurd (some.inj ho).symm hf
    | cons q out => exact ih (getLast?_cons_cons ▸ ho)

lemma Resolves.opens (h : Resolves false s [] ps) (hop : Selector.opens ps) (hsp : isSpaced ps) : s.opens := by
  -- The induction goes through the switches at the front only: `out` is empty until a part is done.
  generalize ho : ([] : List Part) = out at h
  induction h with
  | done => cases hop
  | @part p out rest isGlobal hn h =>
    subst ho
    have hp : (inScope isGlobal p).isCombinator = false := by
      rw [isCombinator_inScope]
      exact (not_eq_true' _).mp hop
    have hne : inScope isGlobal p ≠ .combinator .descendant := by
      intro heq
      rw [heq] at hp; cases hp
    rw [Selector.opens,h.head? hne rfl,any_some,hp]; rfl
  | both hp _ _ ih =>
    simp only [isSpaced,isSpaced.isOpenBehind,hp,and_eq_true] at hsp
    exact ih hsp.1 hsp.2.2 ho
  | blank => cases ho
  | @switch p q out rest _ _ hr _ ih =>
    refine ih ?_ (and_eq_true_iff.mp hsp).2 ho
    have hq := eq_false_of_ne_true fun hq => false_ne_true (hr hq ho.symm)
    rw [Selector.opens,head?_cons,any_some,hq]; rfl

end

/-- A parser for the selectors inside of a selector, if what it gives has no switches and starts with
something other than a combinator where it must. -/
def Nested.Opens (nested : Nested) : Prop :=
  ∀ ctx tokens s, nested ctx tokens = .ok s → ctx.relative = false → ctx.implicit = false →
    s.opens = true ∧ (ctx.modules = true → ∀ p ∈ s, isSwitch p = false)

def Follows (rest : Selector) : Prop :=
  rest = [] ∨ ∃ c more, rest = .combinator c :: more ∧ opens more = true ∧ isSpaced more = true

structure IsTight (ps : Selector) : Prop where
  opens : ps = [] ∨ ps.opens = true
  spaced : ∀ rest, Follows rest → isSpaced (ps ++ rest) = true

lemma isTight_nil : IsTight [] where
  opens := Or.inl rfl
  spaced rest hr := by
    rcases hr with rfl | ⟨c,more,rfl,_,hm⟩
    · rfl
    · exact hm

variable {ps : Selector}

lemma isOpenBehind_append {rest : Selector} (hp : IsTight ps) (hr : Follows rest) :
    isSpaced.isOpenBehind (ps ++ rest) := by
  rcases hp.opens with rfl | ho
  · rcases hr with rfl | ⟨c,more,rfl,hm,_⟩
    · rfl
    · exact hm
  · cases ps with
    | nil => cases ho
    | cons p ps =>
      cases p with
      | combinator c => cases ho
      | _ => rfl

lemma isTight_cons {p : Part} (hp : p.isCombinator = false) (hpr : IsTight ps) : IsTight (p :: ps) where
  opens := Or.inr (by rw [Selector.opens,head?_cons,any_some,hp]; rfl)
  spaced rest hr := by
    rw [cons_append,isSpaced,isOpenBehind_append hpr hr,hpr.spaced rest hr,Bool.or_true]; rfl

lemma isTight_append {first : Selector} (ho : first.opens) (hf : ∀ p ∈ first, isSwitch p = false) (hpr : IsTight ps) :
    IsTight (first ++ ps) where
  opens := Or.inr (opens_append ho ps)
  spaced rest hr := by
    clear ho
    induction first with
    | nil => exact hpr.spaced rest hr
    | cons p first ih =>
      have hp := hf p mem_cons_self
      have ih := ih fun q hq => hf q (mem_cons_of_mem p hq)
      rw [cons_append,cons_append,isSpaced,ih,hp]; rfl

section
variable {nested : Nested} {ctx : Context} {last : Span}

def Starts (ps : Selector) : Prop := ∀ more, IsTight more → IsTight (ps ++ more)

lemma starts_singleton {p : Part} (hp : p.isCombinator = false) : Starts [p] := fun _ hm => isTight_cons hp hm

variable {tokens rest : List Token}

lemma starts_of_attributeTest {p : Part} (h : attributeTest last tokens = .ok (p,rest)) : Starts [p] := by
  obtain ⟨t,post,u,-,-,-,-,rfl | ⟨_,_,_,_,_,-,-,rfl⟩⟩ := attributeTest_cases h
  · exact starts_singleton rfl
  · exact starts_singleton rfl

variable {ps : List Part} {s : Selector}

lemma starts_of_pseudoFunction (hn : nested.Opens) {name : String} {args : List Token}
    (h : pseudoFunction nested ctx name args = .ok ps) : Starts ps := by
  unfold pseudoFunction at h
  split at h
  · obtain ⟨s,_,h⟩ := ok_of_bind_ok h
    cases h
    exact starts_singleton rfl
  · split at h
    · rename_i hl
      obtain ⟨ho,hs⟩ := hn _ _ _ h rfl rfl
      exact fun more => isTight_append ho (hs (and_eq_true_iff.mp hl).1)
    · split at h
      · obtain ⟨sels,_,h⟩ := ok_of_bind_ok h
        cases h
        exact starts_singleton rfl
      · cases h
        exact starts_singleton rfl

lemma starts_of_simple? (hn : nested.Opens) {isFirst : Bool}
    (h : simple? nested ctx last isFirst tokens = .ok (some (ps,rest))) : Starts ps := by
  cases isSimple_of_simple? h with
  | attr ha => exact starts_of_attributeTest ha
  | pseudoFunction _ _ _ hp => exact starts_of_pseudoFunction hn hp
  | _ => exact starts_singleton rfl

lemma isTight_of_compound (hn : nested.Opens) {isFirst : Bool}
    (h : compound nested ctx last isFirst tokens = .ok (ps,rest)) : IsTight ps := by
  fun_induction compound nested ctx last isFirst tokens generalizing ps rest with
  | case1 => cases h
  | case2 =>
    cases h
    exact isTight_nil
  | case3 => cases h
  | case4 isFirst tokens first post hs hlt more rest' hr ih =>
    cases h
    exact starts_of_simple? hn hs more (ih hr)

lemma opens_of_follows {ps rest : Selector} (hp : IsTight ps) (hne : ps ≠ []) (hr : Follows rest) :
    opens (ps ++ rest) ∧ isSpaced (ps ++ rest) := by
  refine ⟨?_,hp.spaced rest hr⟩
  rcases hp.opens with hn | ho
  · exact absurd hn hne
  · exact opens_append ho rest

/-- A selector is one compound or a compound with a selector that is read behind it. -/
lemma compounds_induction {motive : List Token → Selector → Prop}
    (one : ∀ {ts rest part ps}, compound nested ctx last true ts = .ok (part :: ps,rest) → motive ts (part :: ps))
    (more : ∀ {ts rest us part ps c s}, compound nested ctx last true ts = .ok (part :: ps,rest) → us <:+ rest →
      (c = .descendant ∨ ∃ t post, Token.dropBlank rest = t :: post ∧ combinator? t = some c) → motive us s →
        motive ts (part :: ps ++ .combinator c :: s))
    (h : compounds nested ctx last tokens = .ok s) : motive tokens s := by
  have hb {rest : List Token} : Token.dropBlank rest <:+ rest := dropWhile_suffix _
  fun_induction compounds nested ctx last tokens generalizing s with
  | case3 tokens part ps rest hcm =>
    cases h
    exact one hcm
  | case5 tokens part ps rest hcm _ _ t post hd _ c hc s hs ih =>
    cases h
    have ha : t :: post <:+ rest := hd ▸ hb
    exact more hcm (hb.trans ((suffix_cons t post).trans ha)) (.inr ⟨t,post,hd,hc⟩) (ih hs)
  | case7 tokens part ps rest hcm _ _ t post hd _ _ _ s hs ih =>
    cases h
    have ha : t :: post <:+ rest := hd ▸ hb
    exact more hcm ha (.inl rfl) (ih hs)
  | _ => cases h

lemma opens_of_compounds (hn : nested.Opens) (h : compounds nested ctx last tokens = .ok s) : s.opens ∧ isSpaced s := by
  refine compounds_induction (motive := fun _ s => s.opens ∧ isSpaced s) ?_ ?_ h
  · intro ts rest part ps hcm
    rw [← append_nil (part :: ps)]
    exact opens_of_follows (isTight_of_compound hn hcm) (cons_ne_nil part ps) (.inl rfl)
  · intro ts rest us part ps c s hcm _ _ hs
    exact opens_of_follows (isTight_of_compound hn hcm) (cons_ne_nil part ps) (.inr ⟨c,s,rfl,hs⟩)

lemma opens_of_complex (hn : nested.Opens) (hr : ctx.relative = false)
    (hi : ctx.implicit = false) (h : complex nested ctx tokens = .ok s) :
    s.opens ∧ isSpaced s := by
  unfold complex at h
  simp only [hr,hi] at h
  split at h
  · exact opens_of_compounds hn h
  · split at h
    · exact opens_of_compounds hn h
    · cases h

lemma eq_of_checkNesting (hi : ctx.implicit = false) {t : Selector} (h : checkNesting ctx tokens s = .ok t) : t = s := by
  rcases checkNesting_eq_ok_iff.mp h with ⟨-,-,rfl⟩ | ⟨-,-,rfl⟩
  · rfl
  · rw [hi]; rfl

end

lemma opens_parseWith {nested : Nested} (hn : nested.Opens) : Nested.Opens (parseWith nested) := by
  intro ctx tokens s h hr hi
  obtain ⟨t,hc,h⟩ := ok_of_bind_ok h
  obtain ⟨ho,hsp⟩ := opens_of_complex hn hr hi hc
  split at h
  · obtain ⟨u,hs,h⟩ := ok_of_bind_ok h
    rw [eq_of_checkNesting hi h]
    have hrs := resolves_of_resolveScopes hs
    refine ⟨(hr ▸ hrs).opens ho hsp,fun _ => hrs.not_isSwitch (forall_mem_nil _)⟩
  · rename_i hm
    rw [eq_of_checkNesting hi h]
    exact ⟨ho,fun hy => absurd hy hm⟩

lemma opens_parseDeep (depth : Nat) : Nested.Opens (parseDeep depth) := by
  induction depth with
  | zero =>
    intro ctx tokens s h
    cases h
  | succ depth ih => exact opens_parseWith ih

/-- Selectors that are relative to nothing start with something other than a combinator. -/
lemma opens_of_parseAll {ctx : Context} {ts : List Token} {sels : List Selector}
    (hr : ctx.relative = false) (hi : ctx.implicit = false)
    (h : parseAll ctx ts = .ok sels) : ∀ s ∈ sels, s.opens := by
  simp only [parseAll,parseList] at h
  split at h
  · cases h
  · intro s hs
    obtain ⟨part,_,hp⟩ := (mem_of_mapM_ok h).2 s hs
    split at hp
    · cases hp
    · exact (opens_parseDeep _ _ _ _ hp hr hi).1

end Selector

/-- The selectors of a rule outside of style rules start with something other than a combinator. -/
def Checks.opening : Checks where
  block scope b := scope ≠ .style → ∀ s ∈ b.selectors, s.opens = true

lemma Checks.established_opening (d : Dialect) (all : List Token) : opening.Established d all where
  style scope tokens selectors h declarations composes location _ hs := by
    refine Selector.opens_of_parseAll rfl ?_ h
    exact beq_eq_false_iff_ne.mpr hs
  nest _ _ _ _ _ _ _ hs := absurd rfl hs
  enclosing _ _ _ _ hs := absurd rfl hs
  group _ _ := trivial
  statement _ _ _ := trivial

lemma StyleSheet.allHold_opening {src : String} {opts : ParseOptions} {sheet : StyleSheet}
    (h : StyleSheet.parse src opts = .ok sheet) :
    Rule.Holds.AllHold opening .top sheet.rules :=
  StyleSheet.allHold_of_established (established_opening _ _) h

end Css
