import Css.Proofs.Rule.Placement
import Css.Proofs.Rule.Traversal

/-!
# Properties of all parts of rules

A property of rules that is one of their parts, each with the place where it stands.
-/
namespace Css
open List Bool Selector
namespace Selector

lemma hasNesting_relativeToParent (s : Selector) : (relativeToParent s).hasNesting := by
  unfold relativeToParent
  split <;> rfl

variable {ctx : Context} {tokens : List Token}

lemma hasNesting_of_checkNesting {s t : Selector} (h : checkNesting ctx tokens s = .ok t) :
    (ctx.nesting = false → ctx.implicit = false → t.hasNesting = false) ∧
      (ctx.implicit ∨ ctx.required → t.hasNesting) := by
  rcases checkNesting_eq_ok_iff.mp h with ⟨hs,hn,rfl⟩ | ⟨hs,hr,rfl⟩
  · exact ⟨fun hf => absurd (hf.symm.trans hn) Bool.false_ne_true,fun _ => hs⟩
  · cases hi : ctx.implicit with
    | true => exact ⟨fun _ hf => Bool.noConfusion hf,fun _ => hasNesting_relativeToParent s⟩
    | false => exact ⟨fun _ _ => hs,fun hc => by simp [hr] at hc⟩

lemma checkNesting_of_parseDeep {depth : Nat} {t : Selector}
    (h : parseDeep depth ctx tokens = .ok t) : ∃ s, checkNesting ctx tokens s = .ok t := by
  cases depth with
  | zero => cases h
  | succ depth =>
    rw [parseDeep,parseWith] at h
    obtain ⟨s,_,h⟩ := ok_of_bind_ok h
    split at h
    · obtain ⟨s',_,h⟩ := ok_of_bind_ok h
      exact ⟨s',h⟩
    · exact ⟨s,h⟩

lemma mem_of_mapM_ok {α β : Type} {f : α → Except Fault β} {xs : List α} {ys : List β}
    (h : xs.mapM f = .ok ys) : ys.length = xs.length ∧ ∀ y ∈ ys, ∃ x ∈ xs, f x = .ok y := by
  induction xs generalizing ys with
  | nil =>
    rw [mapM_nil] at h; cases h
    simp
  | cons x xs ih =>
    rw [mapM_cons] at h
    obtain ⟨y,hx,h⟩ := ok_of_bind_ok h
    obtain ⟨zs,hxs,h⟩ := ok_of_bind_ok h
    obtain ⟨hl,hm⟩ := ih hxs
    cases h
    refine ⟨by simp [hl],?_⟩
    intro z hz
    rcases mem_cons.mp hz with rfl | hz
    · exact ⟨x,mem_cons_self,hx⟩
    · obtain ⟨w,hw,heq⟩ := hm z hz
      exact ⟨w,mem_cons_of_mem x hw,heq⟩

lemma hasNesting_of_parseAll {sels : List Selector} (h : parseAll ctx tokens = .ok sels) :
    sels ≠ [] ∧ ∀ s ∈ sels, (ctx.nesting = false → ctx.implicit = false → s.hasNesting = false) ∧
        (ctx.implicit ∨ ctx.required → s.hasNesting) := by
  simp only [parseAll,parseList] at h
  split at h
  · cases h
  · rename_i hpr
    obtain ⟨hl,hm⟩ := mem_of_mapM_ok h
    constructor
    · intro hnl
      subst hnl
      exact hpr (by simpa using hl.symm)
    · intro s hs
      obtain ⟨part,_,hp⟩ := hm s hs
      split at hp
      · cases hp
      · obtain ⟨s',hs'⟩ := checkNesting_of_parseDeep hp
        exact hasNesting_of_checkNesting hs'

end Selector

/-- Whether the selectors of a rule are as they must be inside or outside of a style rule. -/
def Selector.areScoped (inStyle : Bool) (selectors : List Selector) : Bool :=
  !selectors.isEmpty && selectors.all fun s => s.hasNesting == inStyle

/-- Whether the selectors of all rules are as they must be, the whole inside or outside of a style
rule. A rule that names the enclosing one explicitly must have one. -/
def Rule.isScoped (inStyle : Bool) : Rule → Bool
  | style block rules => Selector.areScoped inStyle block.selectors && allScoped true rules
  | nest block rules =>
    inStyle && Selector.areScoped true block.selectors && allScoped true rules
  | group _ rules _ => allScoped inStyle rules
  | statement .. => true
where
  allScoped (inStyle : Bool) : List Rule → Bool
    | [] => true
    | r :: rs => r.isScoped inStyle && allScoped inStyle rs

namespace RuleParser

lemma areScoped_selectors {d : Dialect} {scope : Scope} {ts : List Token} {sels : List Selector}
    (h : parseAll (selectorContext d scope) ts = .ok sels) :
    areScoped (scope == .style) sels := by
  obtain ⟨hne,ha⟩ := hasNesting_of_parseAll h
  simp only [areScoped,and_eq_true,not_eq_true',isEmpty_eq_false_iff,all_eq_true,beq_iff_eq]
  refine ⟨hne,?_⟩
  intro s hs
  cases hsc : scope == .style with
  | false => exact (ha s hs).1 hsc hsc
  | true => exact (ha s hs).2 (.inl hsc)

lemma areScoped_nest {d : Dialect} {ts : List Token} {sels : List Selector} (h : parseAll (nestContext d) ts = .ok sels) :
    areScoped true sels := by
  obtain ⟨hne,ha⟩ := hasNesting_of_parseAll h
  simp only [areScoped,and_eq_true,not_eq_true',isEmpty_eq_false_iff,all_eq_true,beq_iff_eq]
  exact ⟨hne,fun s hs => (ha s hs).2 (.inr rfl)⟩

end RuleParser

structure Checks where
  block : Scope → StyleBlock → Prop := fun _ _ => True
  group : Scope → Group → Prop := fun _ _ => True
  statement : Scope → Statement → Prop := fun _ _ => True

def Checks.parsed : Checks where
  block sc b := Selector.areScoped (sc == .style) b.selectors = true ∧ Declaration.areNamed b.declarations = true
  statement sc s := s.isAllowed sc = true ∧ Declaration.areNamed s.declarations = true

def Checks.scoped : Checks where
  block sc b := Selector.areScoped (sc == .style) b.selectors = true

def Checks.both (c c' : Checks) : Checks where
  block sc b := c.block sc b ∧ c'.block sc b
  group sc g := c.group sc g ∧ c'.group sc g
  statement sc s := c.statement sc s ∧ c'.statement sc s

def Checks.when (p : Prop) (c : Checks) : Checks where
  block sc b := p → c.block sc b
  group sc g := p → c.group sc g
  statement sc s := p → c.statement sc s

def Checks.Survives (c : Checks) (unused : List String) : Prop :=
  ∀ sc b, c.block sc b → (Rule.keepSelectors unused b).selectors ≠ [] → c.block sc (Rule.keepSelectors unused b)

/-- Where there is what `c` asks, there is what `c'` asks once what is unused has been removed. -/
structure Checks.Leaves (unused : List String) (c c' : Checks) : Prop where
  block : ∀ sc b, c.block sc b → (Rule.keepSelectors unused b).selectors ≠ [] →
    c'.block sc (Rule.keepSelectors unused b)
  group : ∀ sc g, c.group sc g → c'.group sc g
  statement : ∀ sc s, c.statement sc s → (∀ name ∈ s.keyframesName?, name ∉ unused) →
    c'.statement sc s

namespace Checks
variable {c c' : Checks} {unused : List String}

lemma survives_scoped (unused : List String) : scoped.Survives unused := by
  intro sc b hb hne
  have ha := (Bool.and_eq_true_iff.mp hb).2
  change Selector.areScoped _ _ = true
  rw [Selector.areScoped,isEmpty_eq_false_iff.mpr hne,Bool.not_false,Bool.true_and,all_eq_true]
  intro s hs
  exact all_eq_true.mp ha s ((mem_filter.mp hs).1)

lemma survives_parsed (unused : List String) : parsed.Survives unused :=
  fun sc b hb hne => ⟨survives_scoped unused sc b hb.1 hne,hb.2⟩

structure Uniform (c : Checks) : Prop where
  block : ∀ sc scope' b selectors, c.block sc b → c.block scope' { b with selectors }
  group : ∀ sc scope' g, c.group sc g → c.group scope' g
  statement : ∀ sc scope' s, c.statement sc s → c.statement scope' s

lemma Uniform.survives (h : c.Uniform) (unused : List String) : c.Survives unused :=
  fun sc b hb _ => h.block sc sc b _ hb

lemma Uniform.both (h : c.Uniform) (h' : c'.Uniform) : (c.both c').Uniform where
  block sc scope' b selectors hb := ⟨h.block sc scope' b selectors hb.1,h'.block sc scope' b selectors hb.2⟩
  group sc scope' g hg := ⟨h.group sc scope' g hg.1,h'.group sc scope' g hg.2⟩
  statement sc scope' s hs := ⟨h.statement sc scope' s hs.1,h'.statement sc scope' s hs.2⟩

lemma Uniform.when {p : Prop} (h : c.Uniform) : (c.when p).Uniform where
  block sc scope' b selectors hb hp := h.block sc scope' b selectors (hb hp)
  group sc scope' g hg hp := h.group sc scope' g (hg hp)
  statement sc scope' s hs hp := h.statement sc scope' s (hs hp)

lemma Survives.both (h : c.Survives unused) (h' : c'.Survives unused) : (c.both c').Survives unused :=
  fun sc b hb hne => ⟨h sc b hb.1 hne,h' sc b hb.2 hne⟩

lemma Survives.when {p : Prop} (h : c.Survives unused) : (c.when p).Survives unused :=
  fun sc b hb hne hp => h sc b (hb hp) hne

end Checks

namespace Rule

/-- All parts of the rule are as asked. A rule that names the enclosing one explicitly has one. -/
def Holds (c : Checks) (sc : Scope) : Rule → Prop
  | style b rules => c.block sc b ∧ AllHold c .style rules
  | nest b rules => sc = .style ∧ c.block sc b ∧ AllHold c .style rules
  | group g rules _ => c.group sc g ∧ AllHold c sc.inside rules
  | statement s _ => c.statement sc s
where
  AllHold (c : Checks) (sc : Scope) : List Rule → Prop
    | [] => True
    | r :: rs => r.Holds c sc ∧ AllHold c sc rs

open Holds

section
variable {c c' : Checks} {sc : Scope} {rules : List Rule}

lemma allHold_iff : AllHold c sc rules ↔ ∀ r ∈ rules, r.Holds c sc := by
  induction rules with
  | nil => simp [AllHold]
  | cons r rs ih => simp [AllHold,ih]

lemma allHold_append {rs ss : List Rule} : AllHold c sc (rs ++ ss) ↔ AllHold c sc rs ∧ AllHold c sc ss := by
  simp only [allHold_iff,mem_append,or_imp,forall_and]

lemma allHold_both_of (h : AllHold c sc rules) (h' : AllHold c' sc rules) : AllHold (c.both c') sc rules := by
  induction rules using induct generalizing sc with
  | nil => trivial
  | cons r rs hr ih =>
    obtain ⟨h,hs⟩ := h
    obtain ⟨h',hs'⟩ := h'
    refine ⟨?_,ih hs hs'⟩
    cases r with
    | style | group => exact ⟨⟨h.1,h'.1⟩,hr h.2 h'.2⟩
    | nest => exact ⟨h.1,⟨h.2.1,h'.2.1⟩,hr h.2.2 h'.2.2⟩
    | statement => exact ⟨h,h'⟩

/-- In the scopes of `I`, to which all leads that is in one of them, what `c` asks is enough for
`c'`. -/
structure Implies (I : Scope → Prop) (c c' : Checks) : Prop where
  style : I .style
  inside : ∀ sc, I sc → I sc.inside
  block : ∀ sc b, I sc → c.block sc b → c'.block sc b
  group : ∀ sc g, I sc → c.group sc g → c'.group sc g
  statement : ∀ sc s, I sc → c.statement sc s → c'.statement sc s

lemma allHold_mono {I : Scope → Prop} (hc : Implies I c c') (hi : I sc)
    (h : AllHold c sc rules) : AllHold c' sc rules := by
  induction rules using induct generalizing sc with
  | nil => trivial
  | cons r rs hr ih =>
    obtain ⟨h,hs⟩ := h
    refine ⟨?_,ih hi hs⟩
    cases r with
    | style b => exact ⟨hc.block sc b hi h.1,hr hc.style h.2⟩
    | nest b => exact ⟨h.1,hc.block sc b hi h.2.1,hr hc.style h.2.2⟩
    | group g => exact ⟨hc.group sc g hi h.1,hr (hc.inside sc hi) h.2⟩
    | statement s => exact hc.statement sc s hi h

lemma allHold_of_imp (h : AllHold c sc rules) (hb : ∀ sc b, c.block sc b → c'.block sc b)
    (hg : ∀ sc g, c.group sc g → c'.group sc g)
    (hs : ∀ sc s, c.statement sc s → c'.statement sc s) : AllHold c' sc rules :=
  allHold_mono (I := fun _ => True) ⟨trivial,fun _ _ => trivial,fun sc b _ => hb sc b,
    fun sc g _ => hg sc g,fun sc s _ => hs sc s⟩ trivial h

lemma allHold_both : AllHold (c.both c') sc rules ↔ AllHold c sc rules ∧ AllHold c' sc rules := by
  constructor
  · intro h
    exact ⟨allHold_of_imp h (fun _ _ h => h.1) (fun _ _ h => h.1) (fun _ _ h => h.1),
      allHold_of_imp h (fun _ _ h => h.2) (fun _ _ h => h.2) (fun _ _ h => h.2)⟩
  · rintro ⟨h,h'⟩
    exact allHold_both_of h h'

lemma allHold_scoped (h : AllHold Checks.parsed sc rules) : AllHold Checks.scoped sc rules :=
  allHold_of_imp h (fun _ _ h => h.1) (fun _ _ _ => trivial) (fun _ _ _ => trivial)

lemma allHold_when {p : Prop} (h : AllHold c sc rules)
    (hw : p → AllHold c' sc rules) : AllHold (c'.when p) sc rules := by
  by_cases hp : p
  · exact allHold_of_imp (hw hp) (fun _ _ h _ => h) (fun _ _ h _ => h) (fun _ _ h _ => h)
  · exact allHold_of_imp h (fun _ _ _ hy => absurd hy hp) (fun _ _ _ hy => absurd hy hp)
      (fun _ _ _ hy => absurd hy hp)

lemma allHold_of_when {p : Prop} (h : AllHold (c.when p) sc rules) (hp : p) : AllHold c sc rules :=
  allHold_of_imp h (fun _ _ h => h hp) (fun _ _ h => h hp) (fun _ _ h => h hp)

section
variable [∀ sc b,Decidable (c.block sc b)] [∀ sc g,Decidable (c.group sc g)] [∀ sc s,Decidable (c.statement sc s)]

mutual

def decideHolds : (r : Rule) → (sc : Scope) → Decidable (r.Holds c sc)
  | .style _ rules, _ =>
    have := decideAllHold rules .style
    inferInstanceAs (Decidable (_ ∧ _))
  | .nest _ rules, _ =>
    have := decideAllHold rules .style
    inferInstanceAs (Decidable (_ ∧ _ ∧ _))
  | .group _ rules _, sc =>
    have := decideAllHold rules sc.inside
    inferInstanceAs (Decidable (_ ∧ _))
  | .statement s _, sc => inferInstanceAs (Decidable (c.statement sc s))

def decideAllHold : (rules : List Rule) → (sc : Scope) → Decidable (AllHold c sc rules)
  | [], _ => isTrue trivial
  | r :: rs, sc =>
    have := decideHolds r sc
    have := decideAllHold rs sc
    inferInstanceAs (Decidable (_ ∧ _))

end

instance (rules : List Rule) : Decidable (AllHold c sc rules) := decideAllHold rules sc

end

structure Visitor.Turns (v : Visitor Id) (c c' : Checks) : Prop where
  block : ∀ sc b, c.block sc b → c'.block sc (v.block b).run
  group : ∀ sc g location, c.group sc g → c'.group sc (v.group g location).run
  statement : ∀ sc s location, c.statement sc s →
    c'.statement sc (v.statement s location).run

namespace Visitor.Turns
variable {v : Visitor Id} {d d' : Checks}

lemma both (h : v.Turns c d) (h' : v.Turns c' d') : v.Turns (c.both c') (d.both d') where
  block sc b hb := ⟨h.block sc b hb.1,h'.block sc b hb.2⟩
  group sc g location hg := ⟨h.group sc g location hg.1,h'.group sc g location hg.2⟩
  statement sc s location hs := ⟨h.statement sc s location hs.1,h'.statement sc s location hs.2⟩

lemma when {p : Prop} (h : v.Turns c d) : v.Turns (c.when p) (d.when p) where
  block sc b hb hp := h.block sc b (hb hp)
  group sc g location hg hp := h.group sc g location (hg hp)
  statement sc s location hs hp := h.statement sc s location (hs hp)

end Visitor.Turns

lemma allHold_visitAll {v : Visitor Id} (hv : v.Turns c c') (rules : List Rule) (sc : Scope)
    (h : AllHold c sc rules) : AllHold c' sc (visit.visitAll v rules) := by
  induction rules using induct generalizing sc with
  | nil => trivial
  | cons r rs hr ih =>
    obtain ⟨h,hs⟩ := h
    refine ⟨?_,ih sc hs⟩
    cases r with
    | style b => exact ⟨hv.block sc b h.1,hr .style h.2⟩
    | nest b => exact ⟨h.1,hv.block sc b h.2.1,hr .style h.2.2⟩
    | group g _ loc => exact ⟨hv.group sc g loc h.1,hr sc.inside h.2⟩
    | statement s loc => exact hv.statement sc s loc h

/-- A traversal that may fail brings what `c'` asks if it succeeds, where there is what `c` asks. -/
structure Visitor.Brings {ε : Type} (v : Visitor (Except ε)) (c c' : Checks) : Prop where
  block : ∀ sc b b', v.block b = .ok b' → c.block sc b → c'.block sc b'
  group : ∀ sc g g' location, v.group g location = .ok g' → c.group sc g → c'.group sc g'
  statement : ∀ sc s s' location, v.statement s location = .ok s' →
    c.statement sc s → c'.statement sc s'

lemma allHold_of_traverseAll {ε : Type} {v : Visitor (Except ε)} (hv : v.Brings c c')
    (rules : List Rule) (sc : Scope) {rules' : List Rule} (h : traverseList v rules = .ok rules')
    (hr : AllHold c sc rules) : AllHold c' sc rules' := by
  induction rules using induct generalizing sc rules' with
  | nil =>
    cases h
    trivial
  | cons r rs ihr ih =>
    obtain ⟨r',rs',h',hrs,rfl⟩ := ok_of_bind₂_ok h
    refine ⟨?_,ih sc hrs hr.2⟩
    obtain ⟨hr,-⟩ := hr
    cases r with
    | style b rules =>
      obtain ⟨b',rules',hb,hrl,rfl⟩ := ok_of_bind₂_ok h'
      exact ⟨hv.block sc b b' hb hr.1,ihr .style hrl hr.2⟩
    | nest b rules =>
      obtain ⟨b',rules',hb,hrl,rfl⟩ := ok_of_bind₂_ok h'
      exact ⟨hr.1,hv.block sc b b' hb hr.2.1,ihr .style hrl hr.2.2⟩
    | group g rules loc =>
      obtain ⟨g',rules',hg,hrl,rfl⟩ := ok_of_bind₂_ok h'
      exact ⟨hv.group sc g g' loc hg hr.1,ihr sc.inside hrl hr.2⟩
    | statement s loc =>
      obtain ⟨s',hs,h⟩ := ok_of_bind_ok h'
      cases h
      exact hv.statement sc s s' loc hs hr

structure Visitor.Fixes {m : Type → Type} [Monad m] (v : Visitor m) (c : Checks) : Prop where
  block : ∀ sc b, c.block sc b → v.block b = pure b
  group : ∀ sc g location, c.group sc g → v.group g location = pure g
  statement : ∀ sc s location, c.statement sc s → v.statement s location = pure s

lemma traverseList_of_allHold {m : Type → Type} [Monad m] [LawfulMonad m] {v : Visitor m}
    (hv : v.Fixes c) (h : AllHold c sc rules) :
    traverseList v rules = pure rules := by
  unfold traverseList
  induction rules using induct generalizing sc with
  | nil => rfl
  | cons r rs hr ih =>
    obtain ⟨h,hs⟩ := h
    have ht : r.traverse v = pure r := by
      cases r with
      | style b => rw [traverse,hv.block sc b h.1,hr h.2,pure_bind,pure_bind]
      | nest b => rw [traverse,hv.block sc b h.2.1,hr h.2.2,pure_bind,pure_bind]
      | group g _ loc => rw [traverse,hv.group sc g loc h.1,hr h.2,pure_bind,pure_bind]
      | statement s loc => rw [traverse,hv.statement sc s loc h,pure_bind]
    rw [traverse.traverseAll,ht,ih hs,pure_bind,pure_bind]

section
variable {unused : List String}

lemma allHold_removeFrom (hc : Checks.Leaves unused c c') (rules : List Rule) (sc : Scope) (h : AllHold c sc rules) :
    AllHold c' sc (removeUnused?.removeFrom unused rules) := by
  induction rules using induct generalizing sc with
  | nil => trivial
  | cons r rs hr ih =>
    obtain ⟨h,hs⟩ := h
    rw [removeFrom_cons,allHold_append]
    refine ⟨allHold_iff.mpr fun r' hr' => ?_,ih sc hs⟩
    replace hr' := Option.mem_toList.mp hr'
    cases r with
    | style b rules =>
      rw [removeUnused?_style] at hr'
      obtain ⟨hl,rfl⟩ := of_cond_eq_some hr'
      rw [Bool.or_eq_false_iff,isEmpty_eq_false_iff] at hl
      exact ⟨hc.block sc b h.1 hl.1,hr .style h.2⟩
    | nest b rules =>
      rw [removeUnused?_nest] at hr'
      obtain ⟨hl,rfl⟩ := of_cond_eq_some hr'
      rw [Bool.or_eq_false_iff,isEmpty_eq_false_iff] at hl
      exact ⟨h.1,hc.block sc b h.2.1 hl.1,hr .style h.2.2⟩
    | group g rules loc =>
      rw [removeUnused?_group] at hr'
      obtain ⟨_,rfl⟩ := of_cond_eq_some hr'
      exact ⟨hc.group sc g h.1,hr sc.inside h.2⟩
    | statement s loc =>
      rw [removeUnused?_statement] at hr'
      split at hr'
      · cases hr'
      · rename_i hk
        cases hr'
        refine hc.statement sc s h fun name hn hm => hk ?_
        rw [Option.any_eq_true]
        exact ⟨name,hn,contains_iff_mem.mpr hm⟩

lemma allHold_removeUnused (hc : c.Survives unused) (h : AllHold c sc rules) :
    AllHold c sc (removeUnused unused rules) := by
  unfold removeUnused
  split
  · exact h
  · exact allHold_removeFrom ⟨hc,fun _ _ h => h,fun _ _ h _ => h⟩ rules sc h

end

lemma inside_beq_style (sc : Scope) : (sc.inside == .style) = (sc == .style) := by
  cases sc <;> rfl

lemma allScoped_of_allHold (rules : List Rule) (sc : Scope) (h : AllHold Checks.scoped sc rules) :
    isScoped.allScoped (sc == .style) rules := by
  induction rules using induct generalizing sc with
  | nil => rfl
  | cons r rs hr ih =>
    obtain ⟨h,hs⟩ := h
    rw [isScoped.allScoped,and_eq_true]
    refine ⟨?_,ih sc hs⟩
    cases r with
    | style => exact and_eq_true_iff.mpr ⟨h.1,hr .style h.2⟩
    | nest =>
      obtain ⟨rfl,hb,h⟩ := h
      rw [isScoped,and_eq_true,and_eq_true]
      exact ⟨⟨rfl,hb⟩,hr .style h⟩
    | group =>
      rw [isScoped,← inside_beq_style]
      exact hr sc.inside h.2
    | statement => rfl

end
end Rule
end Css
