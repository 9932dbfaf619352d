import Css.Proofs.Media.Custom
import Css.Proofs.Modules.Flattening

/-!
# Exports and targets

What a sheet exports does not depend on the targets, as long as they agree on whether nested rules are
supported, or the rules keep their names without nesting.
-/
namespace Css
open Rule.isDirect Rule.isCarried Rule.blocks Rule.visit
open Rule.removeUnused? Rule.Holds Rule.occurrences Rule StyleSheet Checks List

structure Rule.Flattens (unused : List String) (rules : List Rule) : Prop where
  direct : unused ≠ [] → isDirect.allDirect false rules = true
  carried : isCarried.allCarried (removeUnused unused rules) = true
  composing : ∀ p ∈ blocks.blocksOf [] (removeUnused unused rules), p.outer ≠ [] →
    p.block.composes ≠ [] → p.flat.block.selectors.mapM Selector.singleClass? = none

namespace Rule

instance (unused : List String) (rules : List Rule) : Decidable (Flattens unused rules) := decidable_of_iff
    ((unused ≠ [] → allDirect false rules = true) ∧ allCarried (removeUnused unused rules) = true ∧
        ∀ p ∈ blocksOf [] (removeUnused unused rules), p.outer ≠ [] →
          p.block.composes ≠ [] → p.flat.block.selectors.mapM Selector.singleClass? = none)
    ⟨fun h => ⟨h.1,h.2.1,h.2.2⟩,fun h => ⟨h.direct,h.carried,h.composing⟩⟩

section
variable {v : Visitor Id}

lemma carriesAny_visitAll (hv : v.Keeps id) (rules : List Rule) :
    carries.carriesAny (visitAll v rules) = carries.carriesAny rules := by
  induction rules using induct with
  | nil => rfl
  | cons r rs hr ih =>
    refine congrArg₂ or ?_ ih
    cases r with
    | style | nest =>
      rw [visit,carries,carries,hv.block,hr]; rfl
    | group => exact hr
    | statement => rfl

lemma allCarried_visitAll (hv : v.Keeps id) (rules : List Rule) : allCarried (visitAll v rules) = allCarried rules := by
  induction rules using induct with
  | nil => rfl
  | cons r rs hr ih =>
    refine congrArg₂ and ?_ ih
    cases r with
    | style | nest =>
      rw [visit,isCarried,isCarried,hv.block,carriesAny_visitAll hv,hr]; rfl
    | group => exact hr
    | statement => rfl

lemma allDirect_visitAll (hv : v.Keeps id) (rules : List Rule) (nested : Bool) :
    allDirect nested (visitAll v rules) = allDirect nested rules := by
  induction rules using induct generalizing nested with
  | nil => rfl
  | cons r rs hr ih =>
    refine congrArg₂ and ?_ (ih nested)
    cases r with
    | style | nest => rw [visit,isDirect,isDirect,hv.block,hr,id_eq]
    | group => exact hr nested
    | statement => rfl

lemma blocksOf_visitAll (hv : v.Keeps id) (rules : List Rule) (outer : List (List Selector)) :
    blocksOf outer (visitAll v rules) = blocksOf outer rules := by
  induction rules using induct generalizing outer with
  | nil => rfl
  | cons r rs hr ih =>
    refine congrArg₂ (· ++ ·) ?_ (ih outer)
    cases r with
    | style | nest =>
      rw [visit,blocks,blocks,hv.block,hr]; rfl
    | group => exact hr outer
    | statement => rfl

lemma flattens_visitAll (hv : v.Keeps id) {unused : List String} {rs : List Rule} (h : Flattens unused rs) :
    Flattens unused (visitAll v rs) := by
  have hr : removeUnused unused (visitAll v rs) = visitAll v (removeUnused unused rs) := by
    unfold removeUnused
    split
    · rfl
    · exact removeFrom_visitAll hv rs
  refine ⟨?_,?_,?_⟩
  · rw [allDirect_visitAll hv]
    exact h.direct
  · rw [hr,allCarried_visitAll hv]
    exact h.carried
  · rw [hr,blocksOf_visitAll hv]
    exact h.composing

end

section
open CustomMedia

lemma isDefinition_removeUnused? {unused : List String} {r r' : Rule}
    (h : r.removeUnused? unused = some r') : isDefinition r' = isDefinition r := by
  cases r with
  | style b rules =>
    rw [removeUnused?_style] at h
    rw [← (of_cond_eq_some h).2]; rfl
  | nest b rules =>
    rw [removeUnused?_nest] at h
    rw [← (of_cond_eq_some h).2]; rfl
  | group g rules loc =>
    rw [removeUnused?_group] at h
    rw [← (of_cond_eq_some h).2]; rfl
  | statement s loc =>
    rw [removeUnused?_statement] at h
    split at h
    · cases h
    · rw [Option.some.inj h]

lemma removeFrom_filter (unused : List String) (rules : List Rule) :
    removeFrom unused (rules.filter fun r => !isDefinition r) =
      (removeFrom unused rules).filter fun r => !isDefinition r := by
  induction rules with
  | nil => rfl
  | cons r rs ih =>
    rw [removeFrom_cons,filter_append,← ih]
    cases hr : isDefinition r with
    | true =>
      obtain ⟨name,media,loc,rfl⟩ := exists_of_isDefinition hr
      rfl
    | false =>
      rw [filter_cons_of_pos (by simp [hr]),removeFrom_cons]
      congr 1
      rw [eq_comm,filter_eq_self]
      intro r' hr'
      rw [isDefinition_removeUnused? (Option.mem_toList.mp hr'),hr]; rfl

lemma removeUnused_filter (unused : List String) (rs : List Rule) :
    removeUnused unused (rs.filter fun r => !isDefinition r) =
      (removeUnused unused rs).filter fun r => !isDefinition r := by
  unfold removeUnused
  split
  · rfl
  · exact removeFrom_filter unused rs

lemma eq_filter {α : Type} {f : List Rule → α} (hc : ∀ r rs rs', f rs = f rs' → f (r :: rs) = f (r :: rs'))
    (hd : ∀ name media loc rs, f (.statement (.customMedia name media) loc :: rs) = f rs)
    (rules : List Rule) : f (rules.filter fun r => !isDefinition r) = f rules := by
  induction rules with
  | nil => rfl
  | cons r rs ih =>
    cases hr : isDefinition r with
    | true =>
      obtain ⟨name,media,loc,rfl⟩ := exists_of_isDefinition hr
      rw [hd]
      exact ih
    | false =>
      rw [filter_cons_of_pos (by simp [hr])]
      exact hc r _ _ ih

lemma flattens_resolveMedia {unused : List String} {sheet : StyleSheet} {rs rules' : List Rule}
    (hm : sheet.resolveMedia rs = .ok rules') (h : Flattens unused rs) :
    Flattens unused rules' := by
  rcases resolveMedia_ok hm with ⟨-,rfl⟩ | hr
  · exact h
  rw [CustomMedia.resolve_eq hr]
  refine flattens_visitAll (keeps_change rs) ⟨?_,?_,?_⟩
  · rw [eq_filter (f := allDirect false)]
    · exact h.direct
    · exact fun r _ _ ih => congrArg (r.isDirect false && ·) ih
    · exact fun _ _ _ _ => rfl
  · rw [removeUnused_filter,eq_filter (f := allCarried)]
    · exact h.carried
    · exact fun r _ _ ih => congrArg (r.isCarried && ·) ih
    · exact fun _ _ _ _ => rfl
  · rw [removeUnused_filter,eq_filter (f := blocksOf [])]
    · exact h.composing
    · exact fun r _ _ ih => congrArg (r.blocks [] ++ ·) ih
    · exact fun _ _ _ _ => rfl

end

lemma alike_removeUnused_unnestAll {unused : List String} {rs : List Rule}
    {dashed : Bool} (hr : AllHold parsed .top rs) (h : Flattens unused rs) :
    Alike (occurrencesIn dashed (removeUnused unused (unnest.unnestAll none rs)))
      (occurrencesIn dashed (removeUnused unused rs)) := by
  have hl := allHold_removeUnused (survives_parsed unused) hr
  have ha : Alike (occurrencesIn dashed (unnest.unnestAll none (removeUnused unused rs))) _ :=
    alike_unnestAll (allScoped_of_allHold _ .top (allHold_scoped hl)) h.carried h.composing
  cases unused with
  | nil => exact ha
  | cons name ns =>
    change Alike (occurrencesIn dashed (removeFrom (name :: ns) (unnest.unnestAll none rs))) _
    rw [occurrencesIn_removeFrom_unnestAll rs .top none nofun hr (h.direct (cons_ne_nil _ _))]
    exact ha

/-- Neither nesting nor anything else that depends on the targets changes the names. -/
lemma alike_lower_forNesting {unused : List String} {rs : List Rule} {dashed : Bool}
    (tgts tgts' : Targets) (hr : AllHold parsed .top rs)
    (h : Feature.nesting.isCompatible tgts = Feature.nesting.isCompatible tgts' ∨ Flattens unused rs) :
    Alike (occurrencesIn dashed (removeUnused unused (lower tgts (forNesting tgts rs))))
      (occurrencesIn dashed (removeUnused unused (lower tgts' (forNesting tgts' rs)))) := by
  have hn : Alike (occurrencesIn dashed (removeUnused unused (forNesting tgts rs)))
      (occurrencesIn dashed (removeUnused unused (forNesting tgts' rs))) := by
    rcases h with heq | hf
    · rw [forNesting,forNesting,heq]
      exact .similar (.refl _)
    · have ha : Alike (occurrencesIn dashed _) _ := alike_removeUnused_unnestAll hr hf
      unfold forNesting
      split <;> split
      · exact .similar (.refl _)
      · exact ha.symm
      · exact ha
      · exact .similar (.refl _)
  exact ((hn.symm.trans_similar (similar_lower ..).symm).symm.trans_similar (similar_lower ..).symm)

end Rule

namespace StyleSheet

def withScope (sheet : StyleSheet) (o : TransformOptions) (result : List Rule × Modules.Scope) : StyleSheet :=
  let named := { sheet with
    rules := result.1
    exports := some result.2.exports
    references := sheet.references ++ result.2.references }
  if o.dependencies then named.extractDependencies else named

lemma exports_withScope (sheet : StyleSheet) (o : TransformOptions) (result : List Rule × Modules.Scope) :
    (sheet.withScope o result).exports = some result.2.exports := by
  unfold withScope
  split <;> rfl

section
variable {sheet : StyleSheet} {options : ModuleOptions} {rules : List Rule}

lemma transform_eq (hm : sheet.modules = some options)
    (he : sheet.exports = none) (hmd : sheet.resolveMedia sheet.rules = .ok rules)
    (hr : AllHold parsed .top rules) (o : TransformOptions) :
    sheet.transform o = (Modules.scopeRules sheet.filename options (removeUnused o.unused
        (lower o.targets (forNesting o.targets rules)))).map (sheet.withScope o) := by
  obtain ⟨filename,src,rules',modules,customMedia,warnings,exports⟩ := sheet
  cases hm
  cases he
  simp only [transform,hmd,resolveNesting_eq _ o.targets (allHold_scoped hr),scopeNames,bind,Except.bind]
  cases Modules.scopeRules filename options (removeUnused o.unused (lower o.targets (forNesting o.targets rules))) <;> rfl

end

lemma of_sameExports {x y : Except Error (List Rule × Modules.Scope)}
    (h : Modules.Scoping.SameExports x y) (sheet : StyleSheet) (o o' : TransformOptions) :
    ((∃ out, x.map (sheet.withScope o) = .ok out) ↔ ∃ out', y.map (sheet.withScope o') = .ok out') ∧
      ∀ out out', x.map (sheet.withScope o) = .ok out → y.map (sheet.withScope o') = .ok out' →
        ∃ exports exports', out.exports = some exports ∧ out'.exports = some exports' ∧ exports.Perm exports' := by
  cases x with
  | error e =>
    cases y with
    | error e' => exact ⟨⟨nofun,nofun⟩,nofun⟩
    | ok b => exact h.elim
  | ok a =>
    cases y with
    | error e' => exact h.elim
    | ok b =>
      refine ⟨⟨fun _ => ⟨_,rfl⟩,fun _ => ⟨_,rfl⟩⟩,?_⟩
      intro out out' ho ho'
      cases ho
      cases ho'
      exact ⟨_,_,exports_withScope ..,exports_withScope ..,h⟩

def chrome90 : Targets := Targets.none.set .chrome (some (.pack 90 0 0))

end StyleSheet
end Css
