import Css.Proofs.Media.Custom
import Css.Proofs.Modules.Scoping
import Css.Proofs.Nesting.Flatten

/-!
# Enclosing rules

A rule of a parsed sheet refers to an enclosing style rule if and only if there is one.
-/
namespace Css

namespace Rule

/-- A rule stands among rules at some depth, inside of a style rule if `inStyle`, else in groups only
or in no rule at all. -/
inductive Occurs (rules : List Rule) : (inStyle : Bool) → Rule → Prop where
  | top {r : Rule} : r ∈ rules → Occurs rules false r
  | inStyle {outside : Bool} {block : StyleBlock} {nested : List Rule} {r : Rule} :
      Occurs rules outside (style block nested) → r ∈ nested → Occurs rules true r
  | inNest {outside : Bool} {block : StyleBlock} {nested : List Rule} {r : Rule} :
      Occurs rules outside (nest block nested) → r ∈ nested → Occurs rules true r
  | inGroup {inStyle : Bool} {g : Group} {nested : List Rule} {location : Location} {r : Rule} :
      Occurs rules inStyle (group g nested location) → r ∈ nested → Occurs rules inStyle r

def selectors : Rule → List Selector
  | style block _ | nest block _ => block.selectors
  | group .. | statement .. => []

def isNest : Rule → Bool
  | nest .. => true
  | style .. | group .. | statement .. => false

variable {inStyle : Bool} {rules : List Rule} {r : Rule}

lemma isScoped_of_mem (h : isScoped.allScoped inStyle rules) (hr : r ∈ rules) : r.isScoped inStyle := by
  induction rules with
  | nil => cases hr
  | cons r' rs ih =>
    obtain ⟨hf,hrs⟩ := Bool.and_eq_true_iff.mp h
    rcases List.mem_cons.mp hr with rfl | hr
    · exact hf
    · exact ih hrs hr

lemma isScoped_of_occurs (h : isScoped.allScoped false rules) (hr : Occurs rules inStyle r) : r.isScoped inStyle := by
  induction hr with
  | top hm => exact isScoped_of_mem h hm
  | inStyle _ hm ih | inNest _ hm ih => exact isScoped_of_mem (Bool.and_eq_true_iff.mp ih).2 hm
  | inGroup _ hm ih => exact isScoped_of_mem ih hm

lemma holds_of_occurs {c : Checks} (h : Holds.AllHold c .top rules) (hr : Occurs rules inStyle r) :
    ∃ scope : Scope, (scope == .style) = inStyle ∧ r.Holds c scope := by
  induction hr with
  | top hm => exact ⟨.top,rfl,allHold_iff.mp h _ hm⟩
  | inStyle _ hm ih =>
    obtain ⟨scope,_,hh⟩ := ih
    exact ⟨.style,rfl,allHold_iff.mp hh.2 _ hm⟩
  | inNest _ hm ih =>
    obtain ⟨scope,_,hh⟩ := ih
    exact ⟨.style,rfl,allHold_iff.mp hh.2.2 _ hm⟩
  | inGroup _ hm ih =>
    obtain ⟨scope,hs,hh⟩ := ih
    exact ⟨scope.inside,(inside_beq_style scope).trans hs,allHold_iff.mp hh.2 _ hm⟩

lemma hasNesting_of_isScoped (h : r.isScoped inStyle) : ∀ s ∈ r.selectors, s.hasNesting = inStyle := by
  cases r with
  | style block rules =>
    exact (Selector.areScoped_iff.mp (Bool.and_eq_true_iff.mp h).1).2
  | nest block rules =>
    obtain ⟨hh,-⟩ := Bool.and_eq_true_iff.mp h
    obtain ⟨rfl,hsl⟩ := Bool.and_eq_true_iff.mp hh
    exact (Selector.areScoped_iff.mp hsl).2
  | group | statement => exact fun s hs => nomatch hs

lemma isNest_of_isScoped (h : r.isScoped false) : r.isNest = false := by
  cases r with
  | nest block rules => cases h
  | style | group | statement => rfl

end Rule

def FailsOnly {ε α : Type} (P : ε → Prop) (x : Except ε α) : Prop := ∀ e, x = .error e → P e

section
variable {ε α β : Type} {P : ε → Prop}

lemma failsOnly_ok (a : α) : FailsOnly P (.ok a) := fun _ h => nomatch h

lemma failsOnly_error {e : ε} (h : P e) : FailsOnly P (.error e : Except ε α) := by
  intro e' he
  cases he
  exact h

lemma failsOnly_bind {x : Except ε α} {f : α → Except ε β} (hx : FailsOnly P x)
    (hf : ∀ a, FailsOnly P (f a)) : FailsOnly P (x >>= f) := by
  cases x with
  | error e => exact failsOnly_error (hx e rfl)
  | ok a => exact hf a

lemma failsOnly_mapError {ε' : Type} {Q : ε' → Prop} {f : ε → ε'} {x : Except ε α}
    (hx : FailsOnly P x) (hf : ∀ e, P e → Q (f e)) : FailsOnly Q (x.mapError f) := by
  cases x with
  | error e => exact failsOnly_error (hf e (hx e rfl))
  | ok a => exact failsOnly_ok a

structure Rule.Visitor.FailsOnly (v : Rule.Visitor (Except ε)) (P : ε → Prop) : Prop where
  block : ∀ b, Css.FailsOnly P (v.block b)
  group : ∀ g location, Css.FailsOnly P (v.group g location)
  statement : ∀ s location, Css.FailsOnly P (v.statement s location)

lemma Rule.failsOnly_traverseAll {v : Rule.Visitor (Except ε)} (hv : v.FailsOnly P)
    (rules : List Rule) : FailsOnly P (Rule.traverse.traverseAll v rules) := by
  induction rules using Rule.induct with
  | nil => exact failsOnly_ok _
  | cons r rs hr ih =>
    refine failsOnly_bind ?_ fun _ => failsOnly_bind ih fun _ => failsOnly_ok _
    cases r with
    | style b | nest b =>
      exact failsOnly_bind (hv.block b) fun _ => failsOnly_bind hr fun _ => failsOnly_ok _
    | group g _ loc =>
      exact failsOnly_bind (hv.group g loc) fun _ => failsOnly_bind hr fun _ => failsOnly_ok _
    | statement s loc => exact failsOnly_bind (hv.statement s loc) fun _ => failsOnly_ok _

end

namespace CustomMedia

abbrev NotNesting (cause : TransformCause) : Prop := cause ≠ .unresolvedNesting

section
variable {lookup : String → Except TransformCause MediaList}

lemma failsOnly_expandCondition (hl : ∀ name, FailsOnly NotNesting (lookup name))
    (c : MediaCondition) : FailsOnly NotNesting (expandCondition lookup c) := by
  induction c using MediaCondition.induct with
  | feature f =>
    rw [expandCondition]
    split
    · exact failsOnly_ok _
    · refine failsOnly_bind (hl _) fun media => ?_
      split
      · exact failsOnly_ok _
      · exact failsOnly_error fun h => by cases h
  | negation c ih => exact failsOnly_bind ih fun _ => failsOnly_ok _
  | nil | unknown => exact failsOnly_ok _
  | cons con c cs hc hcs =>
    refine failsOnly_bind (failsOnly_bind hc fun _ => failsOnly_bind ?_ fun _ => failsOnly_ok _) fun _ => failsOnly_ok _
    intro e he
    exact hcs e (by rw [expandCondition,he]; rfl)

lemma failsOnly_expandList (hl : ∀ name, FailsOnly NotNesting (lookup name))
    (media : MediaList) : FailsOnly NotNesting (expandList lookup media) := by
  induction media with
  | nil => exact failsOnly_ok _
  | cons q qs ih =>
    refine failsOnly_bind ?_ fun _ => failsOnly_bind ih fun _ => failsOnly_ok _
    unfold expandQuery
    split
    · exact hl _
    · split
      · exact failsOnly_ok _
      · exact failsOnly_bind (failsOnly_expandCondition hl _) fun _ => failsOnly_ok _

end

lemma failsOnly_lookup (defs : MediaDefinitions) (entered : List String)
    (name : String) : FailsOnly NotNesting (lookup defs entered name) := by
  rw [lookup]
  split
  · rename_i media hd
    have := length_setAside_lt hd
    exact failsOnly_expandList (fun next => failsOnly_lookup _ _ next) media
  · split
    · exact failsOnly_error fun h => by cases h
    · exact failsOnly_error fun h => by cases h
termination_by defs.length

lemma failsOnly_expand (defs : MediaDefinitions) (loc : Location) (media : MediaList) :
    FailsOnly (fun e => NotNesting e.1) (visitor.expand defs loc media) :=
  failsOnly_mapError (failsOnly_expandList (failsOnly_lookup defs []) media) fun _ h => h

lemma failsOnly_visitor (defs : MediaDefinitions) : (visitor defs).FailsOnly fun e => NotNesting e.1 where
  block _ := failsOnly_ok _
  group g location := by
    cases g with
    | media q => exact failsOnly_bind (failsOnly_expand _ _ _) fun _ => failsOnly_ok _
    | supports | layer => exact failsOnly_ok _
  statement s location := by
    cases s with
    | importSheet => exact failsOnly_bind (failsOnly_expand _ _ _) fun _ => failsOnly_ok _
    | keyframes | property | fontFace | page | namespaceOf | layers | customMedia | unknown =>
      exact failsOnly_ok _

lemma failsOnly_resolve (rs : List Rule) : FailsOnly (fun e => e.1 ≠ TransformCause.unresolvedNesting) (resolve rs) :=
  Rule.failsOnly_traverseAll (failsOnly_visitor _) _

end CustomMedia

lemma Modules.failsOnly_scopeRules (filename : String) (opts : ModuleOptions) (rs : List Rule) :
    FailsOnly (fun e => ∃ cause, e.cause = .modules cause) (scopeRules filename opts rs) := by
  unfold scopeRules
  split
  · exact failsOnly_error ⟨_,rfl⟩
  · rw [Scoping.run_eq]
    refine failsOnly_bind ?_ fun scope => failsOnly_bind ?_ fun _ => failsOnly_ok _
    · intro e he
      cases Scoping.refuses_of_foldlM he with
      | collision => exact ⟨_,rfl⟩
      | misplaced => exact ⟨_,rfl⟩
    · unfold Scoping.checkTargets
      split
      · exact failsOnly_error ⟨_,rfl⟩
      · exact failsOnly_ok _

namespace StyleSheet

lemma failsOnly_resolveMedia (sheet : StyleSheet) (rs : List Rule) :
    FailsOnly (fun e => e.cause ≠ .transform .unresolvedNesting) (sheet.resolveMedia rs) := by
  unfold resolveMedia
  split
  · refine failsOnly_mapError (CustomMedia.failsOnly_resolve rs) fun e he heq => ?_
    exact he (Cause.transform.inj heq)
  · exact failsOnly_ok _

lemma failsOnly_scopeNames (sheet : StyleSheet) :
    FailsOnly (fun e => e.cause ≠ .transform .unresolvedNesting) sheet.scopeNames := by
  unfold scopeNames
  split
  · refine failsOnly_bind ?_ fun _ => failsOnly_ok _
    intro e he
    obtain ⟨cause,hc⟩ := Modules.failsOnly_scopeRules _ _ _ e he
    rw [hc]
    exact nofun
  · exact failsOnly_ok _

/-- Where references are as they must be, a transformation finds all enclosing rules. -/
lemma failsOnly_transform {sheet : StyleSheet}
    (h : Rule.Holds.AllHold Checks.parsed .top sheet.rules) (opts : TransformOptions) :
    FailsOnly (fun e => e.cause ≠ .transform .unresolvedNesting) (sheet.transform opts) := by
  unfold transform
  cases hm : sheet.resolveMedia sheet.rules with
  | error e => exact failsOnly_error (failsOnly_resolveMedia sheet sheet.rules e hm)
  | ok rules =>
    have hs := Rule.allHold_scoped (allHold_resolveMedia hm h)
    change FailsOnly _ (sheet.resolveNesting opts.targets rules >>= _)
    rw [resolveNesting_eq sheet opts.targets hs]
    refine failsOnly_bind (failsOnly_ok _) fun _ => ?_
    exact failsOnly_bind (failsOnly_scopeNames _) fun _ => failsOnly_ok _

/-- In a parsed sheet, a rule outside of all style rules does not refer to an enclosing one, and each
selector of a rule inside of a style rule does. No transformation of the sheet fails for a reference
to an enclosing rule. -/
theorem parse_encloses {source : String} {options : ParseOptions} {sheet : StyleSheet}
    (h : parse source options = .ok sheet) :
    (∀ r, Rule.Occurs sheet.rules false r →
        r.isNest = false ∧ ∀ s ∈ r.selectors, s.hasNesting = false) ∧
      (∀ r, Rule.Occurs sheet.rules true r → ∀ s ∈ r.selectors, s.hasNesting = true) ∧
        ∀ (changes : TransformOptions) (e : Error), sheet.transform changes = .error e →
          e.cause ≠ .transform .unresolvedNesting := by
  have hscoped := allScoped_rules h
  refine ⟨?_, ?_, ?_⟩
  · intro r hr
    have hrule := Rule.isScoped_of_occurs hscoped hr
    exact ⟨Rule.isNest_of_isScoped hrule, Rule.hasNesting_of_isScoped hrule⟩
  · intro r hr
    exact Rule.hasNesting_of_isScoped (Rule.isScoped_of_occurs hscoped hr)
  · intro changes
    exact failsOnly_transform (allHold_rules h) changes

/-- The second rule of the group that the only rule holds, if it names the enclosing rule explicitly. -/
def nestInGroup? : List Rule → Option (StyleBlock × List Rule)
  | [.style _ [.group _ [_,.nest block rules] _]] => some (block,rules)
  | _ => none

lemma occurs_nestInGroup? {rs nested : List Rule} {block : StyleBlock} (h : nestInGroup? rs = some (block,nested)) :
    rs.length = 1 ∧ Rule.Occurs rs true (.nest block nested) := by
  unfold nestInGroup? at h
  split at h
  · rename_i outer group implicit _ _ loc
    cases h
    have hg : Rule.Occurs [.style outer [.group group [implicit,.nest block nested] loc]] true
        (.group group [implicit,.nest block nested] loc) :=
      .inStyle (.top (List.mem_singleton_self _)) (List.mem_singleton_self _)
    exact ⟨rfl,.inGroup hg (List.mem_cons_of_mem _ (List.mem_singleton_self _))⟩
  · cases h

/-- Read leniently and with scoped names, `.a{b;@media c{d:e;@nest :global(.f) &{g:h}}}&{}` keeps a rule
that refers to `.a` through the group, and loses the one that refers to nothing. -/
theorem parse_encloses_in_group : ∃ sheet block rules,
      parse ".a\x7bb;@media c\x7bd:e;@nest :global(.f) &\x7bg:h\x7d\x7d\x7d&\x7b\x7d"
          { lenient := true, modules := some ⟨"x_[local]", false⟩ } = .ok sheet ∧
        sheet.rules.length = 1 ∧ block.selectors.length = 1 ∧
          Rule.Occurs sheet.rules true (.nest block rules) ∧
            (∀ s ∈ block.selectors, s.hasNesting = true) ∧
              ∀ (changes : TransformOptions) (e : Error), sheet.transform changes = .error e →
                e.cause ≠ .transform .unresolvedNesting := by
  have hcheck :
      (match parse ".a\x7bb;@media c\x7bd:e;@nest :global(.f) &\x7bg:h\x7d\x7d\x7d&\x7b\x7d"
          { lenient := true, modules := some ⟨"x_[local]", false⟩ } with
        | .ok sheet => (nestInGroup? sheet.rules).any fun found => found.1.selectors.length == 1
        | .error _ => false) = true := by
    decide +kernel
  split at hcheck
  · rename_i sheet hparse
    obtain ⟨⟨block, rules⟩, hfound, hlength⟩ := Option.any_eq_true _ _ |>.mp hcheck
    obtain ⟨hsingle, hoccurs⟩ := occurs_nestInGroup? hfound
    obtain ⟨-, hinside, hnever⟩ := parse_encloses hparse
    exact ⟨sheet, block, rules, hparse, hsingle, by simpa using hlength, hoccurs, hinside _ hoccurs, hnever⟩
  · cases hcheck

end StyleSheet
end Css
