import Css.Proofs.Declaration.Newer
import Css.Proofs.Nesting.Flatten
import Css.Proofs.Rule.Contents

/-!
# Style sheets for newer targets

Newer targets ask for less: what they lack older ones lack, and what a declaration gets for them it gets
for older ones.
-/
namespace Css
open Declaration Rule

structure Targets.LackNothing (targets : Targets) : Prop where
  features : ∀ feature : Feature, feature.isCompatible targets = true
  prefixes : ∀ thing : Prefixable, thing.vendorsFor targets = []

namespace Declaration
variable {targets : Targets} (h : targets.LackNothing)
include h

lemma needsColor_of_lackNothing (value : Value) : needsColor targets value = false := by
  rw [needsColor,Value.anywhere_eq]
  apply Component.anywhereIn_never
  intro c
  cases c with
  | color c =>
    rw [isUnsupportedColor,Bool.and_eq_false_imp]
    intro _
    simp [h.features]
  | _ => rfl

lemma stands_of_lackNothing (block prev : List Declaration) (d : Declaration) : Stands targets block prev d where
  alpha := if_pos (h.features .hexAlphaColors)
  color hnd := by
    rw [needsColor_of_lackNothing h] at hnd; cases hnd
  unprefixed _ := by
    refine ⟨?_,?_,?_⟩
    · rw [prefixedCopies_eq_nil_iff]
      intro thing _ vendor hn
      rw [h.prefixes thing] at hn; cases hn
    · rw [List.eq_nil_iff_forall_not_mem]
      intro x hx
      obtain ⟨_,_,hn,_⟩ := mem_stickyFallback.mp hx
      rw [h.prefixes .sticky] at hn; cases hn
    · rw [insetSides?_eq_none_iff,h.features .insetShorthand]
      simp

lemma addFallbacks_of_lackNothing (block : List Declaration) : addFallbacks targets block = block := by
  apply addFallbacks_of_settled
  apply settledFrom_of_forall
  exact fun d _ _ => stands_of_lackNothing h block [] d

end Declaration

namespace StyleSheet
variable {targets : Targets}

lemma lower_of_lackNothing (h : targets.LackNothing) {scope : Scope} {rules : List Rule}
    (hr : Rule.Holds.AllHold Checks.scoped scope rules) : lower targets rules = rules := by
  have hf : addFallbacks targets rules = rules := by
    refine traverseList_of_allHold (fixes_declarationChange _) (allHold_of_imp hr ?_ ?_ ?_)
    · exact fun _ b _ => addFallbacks_of_lackNothing h b.declarations
    · exact fun _ _ _ => trivial
    · exact fun _ _ _ block _ => addFallbacks_of_lackNothing h block
  unfold lower
  simp only [hf,h.features .mediaRanges,h.prefixes .keyframes]
  rfl

lemma transform_of_lackNothing (h : targets.LackNothing) {src : String}
    {opts : ParseOptions} {sheet : StyleSheet} (hp : parse src opts = .ok sheet)
    (hm : opts.modules = none) (hmd : opts.customMedia = false) :
    sheet.transform { targets } = .ok sheet := by
  have hs := allHold_scoped (allHold_rules hp)
  have hn : sheet.resolveNesting targets sheet.rules = .ok sheet.rules := by
    rw [resolveNesting_eq sheet targets hs,forNesting,if_pos (h.features .nesting)]
  have hl := lower_of_lackNothing h hs
  obtain ⟨rs,fts,_,rfl⟩ := parse_ok hp
  simp only [transform,resolveMedia,hmd,hm] at hn hl ⊢
  simp only [Bool.false_eq_true,if_false,bind,Except.bind,hn,hl]
  rfl

end StyleSheet

/-- Newer targets support what older ones support and need no other prefixes, and a declaration gets
for them only what it gets for older ones, unless it is the shorthand of the offsets. Targets that
lack nothing leave every sheet as it is. -/
theorem StyleSheet.asks_less_of_isNewer {newer older : Targets} (h : newer.IsNewer older) :
    (∀ feature : Feature, feature.isCompatible older = true → feature.isCompatible newer = true) ∧
      (∀ thing : Prefixable, thing.vendorsFor newer ⊆ thing.vendorsFor older) ∧
      (∀ block : List Declaration,
        (∀ targets, (Declaration.groups targets block).map Prod.fst = block ∧
            (Declaration.groups targets block).flatMap Prod.snd =
              Declaration.addFallbacks targets block) ∧
          List.Forall₂ (fun g g' : Declaration × List Declaration =>
              g.1 = g'.1 ∧ (g.1.property ≠ .standard "inset" none →
                ∀ change, Declaration.Gets g.1 g.2 change → Declaration.Gets g'.1 g'.2 change))
            (Declaration.groups newer block) (Declaration.groups older block)) ∧
      ((∀ feature : Feature, feature.isCompatible older = true) →
        (∀ thing : Prefixable, thing.vendorsFor older = []) →
          ∀ (source : String) (options : ParseOptions) (sheet : StyleSheet),
            StyleSheet.parse source options = .ok sheet → options.modules = none →
              options.customMedia = false → sheet.transform { targets := older } = .ok sheet) := by
  refine ⟨?_, ?_, ?_, ?_⟩
  · exact fun feature => Feature.isCompatible_of_isNewer h
  · exact Prefixable.vendorsFor_subset_of_isNewer h
  · intro block
    exact ⟨fun targets => Declaration.map_groups targets block,
      Declaration.groupsFrom_of_isNewer h block⟩
  · intro hfeatures hprefixes source options sheet hparse hmodules hmedia
    exact StyleSheet.transform_of_lackNothing ⟨hfeatures, hprefixes⟩ hparse hmodules hmedia

/-- A late Chrome lacks nothing. It leaves a sheet as it is that has nesting, a property with a prefix
and a colour with an alpha. -/
theorem StyleSheet.asks_less_of_isNewer_chrome :
    let newer := Targets.none.set .chrome (some (.pack 131 0 0))
    let older := (Targets.none.set .chrome (some (.pack 50 0 0))).set .safari (some (.pack 9 0 0))
    newer.IsNewer older ∧ (∀ thing : Prefixable, thing.vendorsFor newer ⊆ thing.vendorsFor older) ∧
      newer.IsNewer newer ∧
      ∃ sheet,
        StyleSheet.parse ".a\x7b&>.b\x7buser-select:none;color:#ff000080\x7d\x7d" {} = .ok sheet ∧
          sheet.rules.length = 1 ∧ sheet.transform { targets := newer } = .ok sheet := by
  have hnewer : (Targets.none.set .chrome (some (.pack 131 0 0))).IsNewer
      ((Targets.none.set .chrome (some (.pack 50 0 0))).set .safari (some (.pack 9 0 0))) := by
    intro browser version hversion
    cases browser with
    | chrome =>
      cases hversion
      exact ⟨.pack 50 0 0, rfl, by decide⟩
    | _ => cases hversion
  have hsame : (Targets.none.set .chrome (some (.pack 131 0 0))).IsNewer
      (Targets.none.set .chrome (some (.pack 131 0 0))) :=
    fun _ version hversion => ⟨version, hversion, Nat.le_refl _⟩
  refine ⟨hnewer, (asks_less_of_isNewer hnewer).2.1, hsame, ?_⟩
  obtain ⟨sheet, hparse, hlength⟩ := Rule.ok_of_any
    (x := StyleSheet.parse ".a\x7b&>.b\x7buser-select:none;color:#ff000080\x7d\x7d" {})
    (p := fun sheet => sheet.rules.length == 1) (by decide +kernel)
  refine ⟨sheet, hparse, beq_iff_eq.mp hlength, ?_⟩
  refine (asks_less_of_isNewer hsame).2.2.2 ?_ ?_ _ {} sheet hparse rfl rfl
  · intro feature
    cases feature <;> decide
  · intro thing
    cases thing <;> decide

end Css
