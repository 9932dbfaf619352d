import Css.Proofs.Modules.Fallback
import Css.Proofs.Modules.Lowering
import Css.Proofs.Nesting.Leftover
import Css.Proofs.Rule.Unused
import Css.Proofs.Sheet.Dependency
import Css.Rule.Walk

/-!
# Transforming twice

A style sheet that has been transformed is left as it is, if it is transformed once more for the same
targets.
-/
namespace Css
open Rule.Holds StyleSheet Checks CustomMedia Feature
namespace Checks
variable (tgts : Targets) (customMedia : Bool)

/-- There is neither nesting nor are there custom media queries, where they are to be resolved. -/
def resolved : Checks := (nested tgts).both (CustomMedia.expanded.when (customMedia = true))

def settled : Checks := ofBlocks (Declaration.Settled tgts)

def ranged : Checks := (ofMedia fun media => Rule.lowerMedia media = media).when
    (Feature.mediaRanges.isCompatible tgts = false)

def lowered : Checks := (resolved tgts customMedia).both ((settled tgts).both (ranged tgts))

def separate : Checks := ofBlocks (Declaration.AreSeparate tgts)

def named : Checks := ofBlocks fun block => Declaration.areNamed block = true

lemma survives_lowered (unused : List String) : (lowered tgts customMedia).Survives unused := by
  refine Survives.both (Survives.both (survives_nested tgts unused) ?_) ?_
  · exact uniform_expanded.when.survives unused
  · exact ((uniform_ofBlocks _).both (uniform_ofMedia _).when).survives unused

lemma copied_lowered : (lowered tgts customMedia).Copied := by
  refine Copied.both (Copied.both (copied_nested tgts) (Copied.when ?_)) (Copied.both ?_ ?_)
  · exact fun _ _ _ _ _ => ⟨nofun,nofun⟩
  · exact fun _ _ _ _ h => h
  · exact Copied.when fun _ _ _ _ h => h

end Checks

namespace Rule
open Declaration
variable {tgts : Targets} {customMedia : Bool} {scope : Scope} {rs : List Rule}

lemma no_reference_lowerMedia (media : MediaList) (h : media.hasFeature isReference = false) :
    (lowerMedia media).hasFeature isReference = false :=
  MediaList.hasFeature_lowerMedia (fun _ _ => rfl) h

lemma turns_resolved {v : Visitor Id} {f : List Declaration → List Declaration}
    {g : MediaList → MediaList} (hk : v.Keeps f) (hm : v.ChangesMedia g)
    (hg : ∀ media : MediaList, media.hasFeature isReference = false → (g media).hasFeature isReference = false) :
    v.Turns (resolved tgts customMedia) (resolved tgts customMedia) :=
  (turns_nested_of_keeps hk tgts).both (turns_expanded hm hg).when

lemma allHold_addFallbacks (h : AllHold ((resolved tgts customMedia).both (separate tgts)) scope rs) :
    AllHold ((resolved tgts customMedia).both (settled tgts)) scope (addFallbacks tgts rs) := by
  have hr : (declarationChange (Declaration.addFallbacks tgts)).Turns
      (resolved tgts customMedia) (resolved tgts customMedia) :=
    turns_resolved (keeps_declarationChange _ (isEmpty_addFallbacks tgts)) (changesMedia_declarationChange _) fun _ h => h
  have hs : (declarationChange (Declaration.addFallbacks tgts)).Turns (separate tgts) (settled tgts) :=
    (changesBlocks_declarationChange _).turns fun _ => settled_addFallbacks
  rw [addFallbacks_eq_visitAll]
  exact allHold_visitAll (hr.both hs) rs scope h

lemma allHold_lowerRanges (h : AllHold ((resolved tgts customMedia).both (settled tgts)) scope rs) :
    AllHold (lowered tgts customMedia) scope (if mediaRanges.isCompatible tgts then rs else lowerRanges rs) := by
  obtain ⟨hr,hs⟩ := allHold_both.mp h
  cases hrn : mediaRanges.isCompatible tgts with
  | true =>
    have hra : AllHold (ranged tgts) scope rs := by
      refine allHold_when h fun hn => ?_
      rw [hrn] at hn; cases hn
    exact allHold_both.mpr ⟨hr,allHold_both.mpr ⟨hs,hra⟩⟩
  | false =>
    have ha : AllHold (ofMedia fun _ => True) scope rs :=
      allHold_of_imp h (fun _ _ _ => trivial) (fun _ _ _ _ _ => trivial) fun _ _ _ _ _ => trivial
    rw [lowerRanges_eq_visitAll]
    refine allHold_both.mpr ⟨?_,allHold_both.mpr ⟨?_,?_⟩⟩
    · exact allHold_visitAll (turns_resolved keeps_rangeVisitor changesMedia_rangeVisitor
        no_reference_lowerMedia) rs scope hr
    · exact allHold_visitAll (changesBlocks_rangeVisitor.turns fun _ h => h) rs scope hs
    · have ht : rangeVisitor.Turns (ofMedia fun _ => True) (ofMedia fun media => lowerMedia media = media) :=
        changesMedia_rangeVisitor.turns fun media _ => media.lowerMedia_idem
      have hl := allHold_visitAll ht rs scope ha
      exact allHold_when hl fun _ => hl

abbrev needsPrefix (tgts : Targets) : Bool := (Prefixable.keyframes.vendorsFor tgts).contains .webkit

/-- The rules are as the targets understand them. If names are `alike`, keyframes have copies with a
name that is written in the same way. -/
structure IsLowered (tgts : Targets) (customMedia alike : Bool) (rs : List Rule) : Prop where
  parts : AllHold (Checks.lowered tgts customMedia) .top rs
  keyframes : needsPrefix tgts = true → Together (KeyframesHead.ArePaired alike) rs

variable {alike : Bool}

lemma isLowered_lower (hp : AllHold ((resolved tgts customMedia).both (separate tgts)) .top rs)
    (hk : needsPrefix tgts → Together (KeyframesHead.AreMatched alike) rs) :
    IsLowered tgts customMedia alike (lower tgts rs) := by
  have hl := allHold_lowerRanges (allHold_addFallbacks hp)
  have hm : needsPrefix tgts → Together (KeyframesHead.AreMatched alike)
      (if mediaRanges.isCompatible tgts then addFallbacks tgts rs
        else lowerRanges (addFallbacks tgts rs)) := by
    intro hn
    have ha : Together (KeyframesHead.AreMatched alike) (addFallbacks tgts rs) := by
      rw [addFallbacks_eq_visitAll]
      refine (hk hn).visitAll_of_same fun s loc => ?_
      rw [run_declarationChange]
      cases s <;> rfl
    split
    · exact ha
    · rw [lowerRanges_eq_visitAll]
      exact ha.visitAll_of_same fun s _ => by cases s <;> rfl
  unfold lower
  simp only
  split
  · rename_i hn
    exact ⟨allHold_prefixAllKeyframes (copied_lowered tgts customMedia) hl,fun _ => together_prefixAllKeyframes (hm hn)⟩
  · rename_i hnt
    exact ⟨hl,fun hn => absurd hn hnt⟩

lemma areNamed_addFallbacks (block : List Declaration) (h : areNamed block) :
    areNamed (Declaration.addFallbacks tgts block) := by
  refine List.all_eq_true.mpr fun d hd => ?_
  rcases mem_of_mem_addFallbacks hd with hd | hs
  · exact List.all_eq_true.mp h d hd
  · unfold isNamed
    obtain ⟨name,vendor,hp⟩ := Property.exists_standard hs
    rw [hp]

lemma allHold_named_lower (h : AllHold named scope rs) : AllHold named scope (lower tgts rs) := by
  have ha : AllHold named scope (addFallbacks tgts rs) := by
    rw [addFallbacks_eq_visitAll]
    exact allHold_visitAll ((changesBlocks_declarationChange _).turns areNamed_addFallbacks) rs scope h
  have hr : AllHold named scope (if mediaRanges.isCompatible tgts then addFallbacks tgts rs
        else lowerRanges (addFallbacks tgts rs)) := by
    split
    · exact ha
    · rw [lowerRanges_eq_visitAll]
      exact allHold_visitAll (changesBlocks_rangeVisitor.turns fun _ h => h) _ scope ha
  unfold lower
  simp only
  split
  · exact allHold_prefixAllKeyframes (fun _ _ _ _ h => h) hr
  · exact hr

namespace IsLowered

lemma lower_eq_self (h : IsLowered tgts customMedia alike rs) : lower tgts rs = rs := by
  obtain ⟨-,hp⟩ := allHold_both.mp h.parts
  obtain ⟨hs,hr⟩ := allHold_both.mp hp
  have hf : addFallbacks tgts rs = rs := by
    refine traverseList_of_allHold (fixes_declarationChange _) (allHold_of_imp hs ?_ ?_ ?_)
    · exact fun _ _ h => addFallbacks_of_settled h
    · exact fun _ _ _ => trivial
    · exact fun _ _ h block hb => addFallbacks_of_settled (h block hb)
  have hrn : (if mediaRanges.isCompatible tgts then rs else lowerRanges rs) = rs := by
    cases hc : mediaRanges.isCompatible tgts with
    | true => rfl
    | false => exact traverseList_of_allHold fixes_rangeVisitor (allHold_of_when hr hc)
  unfold lower
  simp only [hf,hrn]
  split
  · rename_i hn
    exact prefixAllKeyframes_eq_self (h.keyframes hn)
  · rfl

lemma removeUnused (h : IsLowered tgts customMedia alike rs) (unused : List String) :
    IsLowered tgts customMedia alike (removeUnused unused rs) where
  parts := allHold_removeUnused (survives_lowered tgts customMedia unused) h.parts
  keyframes hn := (h.keyframes hn).removeUnused fun _ hp => hp.filter fun name => !unused.contains name

/-- Names of keyframes that are written in the same way are replaced by the same names. -/
lemma rename (h : IsLowered tgts customMedia true rs) (hn : AllHold named .top rs) (r : Renaming) :
    IsLowered tgts customMedia true (rename.renameAll r rs) := by
  rw [renameAll_eq_visitAll]
  obtain ⟨hr,hp⟩ := allHold_both.mp h.parts
  obtain ⟨hs,hrn⟩ := allHold_both.mp hp
  refine ⟨allHold_both.mpr ⟨?_,allHold_both.mpr ⟨?_,?_⟩⟩,fun hnd => ?_⟩
  · have hm := turns_expanded (changesMedia_renameVisitor r) fun _ h => h
    exact allHold_visitAll ((turns_nested_renameVisitor r tgts).both hm.when) rs .top hr
  · have ht : (renameVisitor r).Turns (ofBlocks fun block => areNamed block = true ∧ Settled tgts block) (settled tgts) :=
      (changesBlocks_renameVisitor r).turns fun _ h => settled_rename r h.1 h.2
    refine allHold_visitAll ht rs .top (allHold_of_imp (allHold_both.mpr ⟨hn,hs⟩)
      (fun _ _ h => h) (fun _ _ _ => trivial) ?_)
    exact fun _ _ h block hb => ⟨h.1 block hb,h.2 block hb⟩
  · exact allHold_visitAll ((changesMedia_renameVisitor r).turns fun _ h => h).when rs .top hrn
  · refine (h.keyframes hnd).visitAll (f := KeyframesHead.rename r.own) (fun s _ => ?_) fun _ hpr => hpr.map_rename r.own
    cases s <;> rfl

end IsLowered
end Rule
end Css

namespace Css.StyleSheet
open List Rule KeyframesHead CustomMedia
open Rule.Holds

structure IsDone (o : TransformOptions) (sheet : StyleSheet) : Prop where
  lowered : ∃ alike, IsLowered o.targets sheet.customMedia alike sheet.rules
  used : AllHold ((Checks.used o.unused).when (o.unused ≠ [])) .top sheet.rules
  exported : sheet.modules.isSome = true → sheet.exports.isSome = true
  extracted : o.dependencies = true → (Dependency.extract sheet.filename sheet.rules).2 = []

variable {sheet : StyleSheet}

lemma resolveMedia_eq_self {tgts : Targets}
    (h : AllHold (Checks.resolved tgts sheet.customMedia) .top sheet.rules) :
    sheet.resolveMedia sheet.rules = .ok sheet.rules := by
  unfold resolveMedia
  cases hm : sheet.customMedia with
  | true =>
    rw [resolve_of_expanded (allHold_of_when (allHold_both.mp h).2 hm)]; rfl
  | false => rfl

lemma resolveNesting_eq_self {tgts : Targets}
    (h : AllHold (Checks.resolved tgts sheet.customMedia) .top sheet.rules) :
    sheet.resolveNesting tgts sheet.rules = .ok sheet.rules := by
  have hn := (allHold_both.mp h).1
  rw [resolveNesting_eq sheet tgts (allHold_both.mp hn).1,forNesting_eq_self hn]

lemma scopeNames_eq_self (h : sheet.modules.isSome → sheet.exports.isSome) : sheet.scopeNames = .ok sheet := by
  unfold scopeNames
  split
  · rename_i hm he
    rw [hm,he] at h
    exact absurd (h rfl) nofun
  · rfl

lemma extractDependencies_eq_self (h : (Dependency.extract sheet.filename sheet.rules).2 = []) :
    sheet.extractDependencies = sheet := by
  unfold extractDependencies
  rw [Dependency.extract_eq_self sheet.filename h]
  simp only [append_nil]

lemma IsDone.transform_eq_self {o : TransformOptions} (h : sheet.IsDone o) : sheet.transform o = .ok sheet := by
  obtain ⟨alike,hl⟩ := h.lowered
  have hr := (allHold_both.mp hl.parts).1
  simp only [transform,resolveMedia_eq_self hr,resolveNesting_eq_self hr,hl.lower_eq_self,
    removeUnused_eq_self h.used,scopeNames_eq_self h.exported,bind,Except.bind]
  split
  · rename_i hd
    rw [extractDependencies_eq_self (h.extracted hd)]; rfl
  · rfl

structure IsSteady (targets : Targets) (sheet : StyleSheet) : Prop where
  separate : AllHold (Checks.separate targets) .top sheet.rules
  matched : needsPrefix targets = true → Together (AreMatched sheet.modules.isSome) sheet.rules
  replaceable : Feature.nesting.isCompatible targets = false →
    AllHold Checks.replaceable .top sheet.rules

instance (targets : Targets) (sheet : StyleSheet) : Decidable (IsSteady targets sheet) :=
  decidable_of_iff (AllHold (Checks.ofBlocks (Declaration.AreSeparate targets)) .top sheet.rules ∧
      (needsPrefix targets = true → Together (AreMatched sheet.modules.isSome) sheet.rules) ∧
        (Feature.nesting.isCompatible targets = false → AllHold Checks.replaceable .top sheet.rules))
    ⟨fun h => ⟨h.1,h.2.1,h.2.2⟩,fun h => ⟨h.separate,h.matched,h.replaceable⟩⟩

section
variable {sheet : StyleSheet} {rules rules' : List Rule}

lemma allHold_resolveMedia_of_turns {c : Checks} (ht : ∀ rules, (CustomMedia.change rules).Turns c c)
    (h : sheet.resolveMedia rules = .ok rules') (hc : AllHold c .top rules) :
    AllHold c .top rules' := by
  rcases resolveMedia_ok h with ⟨-,rfl⟩ | h
  · exact hc
  · rw [CustomMedia.resolve_eq h]
    refine allHold_visitAll (ht rules) _ .top (allHold_iff.mpr fun r hr => ?_)
    exact allHold_iff.mp hc r (mem_filter.mp hr).1

lemma allHold_expanded (h : sheet.resolveMedia rules = .ok rules') (hp : AllHold Checks.parsed .top rules) :
    AllHold (expanded.when (sheet.customMedia)) .top rules' := by
  refine allHold_when (allHold_resolveMedia h hp) fun hm => ?_
  rcases resolveMedia_ok h with ⟨hn,-⟩ | h
  · rw [hm] at hn; cases hn
  · exact (allHold_both.mp (allHold_resolve h hp)).2

lemma together_resolveMedia {P : List KeyframesHead → Prop}
    (h : sheet.resolveMedia rules = .ok rules') (hrl : Together P rules) : Together P rules' := by
  rcases resolveMedia_ok h with ⟨-,rfl⟩ | h
  · exact hrl
  · have hh : keyframesHeads (rules.filter fun r => !CustomMedia.isDefinition r) = keyframesHeads rules := by
      unfold keyframesHeads
      rw [filterMap_filter]
      apply filterMap_congr
      intro r _
      unfold CustomMedia.isDefinition
      split <;> rfl
    have hf : Together P (rules.filter fun r => !CustomMedia.isDefinition r) := by
      refine ⟨hh ▸ hrl.1,allInGroups_iff.mpr fun r hr => ?_⟩
      exact allInGroups_iff.mp hrl.2 r (mem_filter.mp hr).1
    rw [CustomMedia.resolve_eq h]
    refine hf.visitAll_of_same fun s loc => ?_
    rcases CustomMedia.change_statement rules s loc with hs | ⟨_,_,_,_,_,rfl,hs⟩
    · rw [hs]
    · rw [hs]; rfl

end

section
open Modules

lemma scopeRules_ok {filename : String} {opts : ModuleOptions} {rs rules' : List Rule}
    {scope : Modules.Scope} (h : scopeRules filename opts rs = .ok (rules',scope)) :
    ∃ r : Renaming, rules' = rename.renameAll r rs ∧ ∀ unused : List String, (∀ e ∈ scope.exports, e.2.name ∉ unused) →
        Fresh r.own unused (occurrences.occurrencesIn r.dashed rs) := by
  obtain ⟨s,-,-,rfl,hd,-,-⟩ := Scoping.exists_of_scopeRules h
  refine ⟨_,rfl,fun unused hu o ho name hnm => ?_⟩
  have hed : name ∈ Scoping.exportedNames (occurrences.occurrencesIn s.dashed rs) :=
    (mem_namesIn_iff _ _ _).mp (mem_filterMap.mpr ⟨o,ho,hnm⟩)
  have hk : name ∈ scope.exports.map Prod.fst := by
    rw [Exports.mem_keys_iff,hd.lookup_eq,if_pos hed]
    exact nofun
  obtain ⟨e,he,rfl⟩ := mem_map.mp hk
  have hn := hu e he
  rw [(Scoping.mem_exports hd he).2] at hn
  exact hn

end

section
variable {sheet : StyleSheet} {rules : List Rule}

lemma allHold_named (h : AllHold Checks.parsed .top rules) : AllHold Checks.named .top rules := by
  refine allHold_of_imp h (fun _ _ hb => hb.2) (fun _ _ _ => trivial) fun _ s hs block hbl => ?_
  refine all_eq_true.mpr fun d hd => ?_
  exact all_eq_true.mp hs.2 d (Statement.mem_declarations_iff.mpr ⟨block,hbl,hd⟩)

lemma isLowered_lower_forNesting {tgts : Targets} (hs : sheet.IsSteady tgts)
    (hp : AllHold Checks.parsed .top sheet.rules)
    (hm : sheet.resolveMedia sheet.rules = .ok rs) :
    IsLowered tgts sheet.customMedia sheet.modules.isSome (lower tgts (forNesting tgts rs)) ∧
      AllHold Checks.named .top (lower tgts (forNesting tgts rs)) := by
  have hr := allHold_resolveMedia hm hp
  have hb : ∀ {P : List Declaration → Prop} (rs : List Rule),
      (CustomMedia.change rs).Turns (Checks.ofBlocks P) (Checks.ofBlocks P) :=
    fun rs => (CustomMedia.changesBlocks_change rs).turns fun _ h => h
  have hrs : AllHold (Checks.resolved tgts sheet.customMedia) .top (forNesting tgts rs) := by
    refine allHold_both.mpr ⟨allHold_forNesting (allHold_scoped hr) fun hn => ?_,?_⟩
    · refine allHold_resolveMedia_of_turns (fun rs => ?_) hm (hs.replaceable hn)
      exact ⟨fun _ _ h => h,fun _ _ _ h => h,fun _ _ _ h => h⟩
    · exact allHold_forNesting_of_uniform CustomMedia.uniform_expanded.when (allHold_expanded hm hp)
  have hsp : AllHold (Checks.separate tgts) .top (forNesting tgts rs) :=
    allHold_forNesting_of_uniform (Checks.uniform_ofBlocks _) (allHold_resolveMedia_of_turns hb hm hs.separate)
  have hmt : needsPrefix tgts → Together (AreMatched sheet.modules.isSome) (forNesting tgts rs) := by
    intro hnd
    have ht := together_resolveMedia hm (hs.matched hnd)
    unfold forNesting
    split
    · exact ht
    · exact ht.unnestAll (areMatched_nil _) hr
  have hnm : AllHold Checks.named .top (forNesting tgts rs) :=
    allHold_forNesting_of_uniform (Checks.uniform_ofBlocks _) (allHold_named hr)
  exact ⟨isLowered_lower (allHold_both.mpr ⟨hrs,hsp⟩) hmt,allHold_named_lower hnm⟩

lemma isDone_scopeNames {o : TransformOptions} {out : StyleSheet}
    (h : sheet.scopeNames = .ok out) (hes : sheet.exports = none)
    (hl : IsLowered o.targets sheet.customMedia sheet.modules.isSome sheet.rules)
    (hn : AllHold Checks.named .top sheet.rules)
    (hu : AllHold ((Checks.used o.unused).when (o.unused ≠ [])) .top sheet.rules)
    (hnw : ∀ exports ∈ out.exports, ∀ e ∈ exports, e.2.name ∉ o.unused)
    (he : o.dependencies → (Dependency.extract out.filename out.rules).2 = []) :
    out.IsDone o := by
  cases hm : sheet.modules with
  | none =>
    have hs : out = sheet := by
      rw [scopeNames_eq_self (by rw [hm]; exact nofun)] at h
      exact (Except.ok.inj h).symm
    subst hs
    exact ⟨⟨_,hl⟩,hu,by rw [hm]; exact nofun,he⟩
  | some opts =>
    unfold scopeNames at h
    rw [hm,hes] at h
    obtain ⟨⟨rules',scope⟩,hsc,h⟩ := ok_of_bind_ok h
    cases h
    obtain ⟨r,rfl,hf⟩ := scopeRules_ok hsc
    rw [hm] at hl
    refine ⟨⟨true,hl.rename hn r⟩,?_,fun _ => rfl,he⟩
    have hf := allHold_fresh sheet.rules .top hu (hf o.unused (hnw _ rfl))
    rw [renameAll_eq_visitAll]
    refine allHold_visitAll (turns_used_renameVisitor r).when sheet.rules .top ?_
    exact allHold_when hu fun hne => allHold_both.mpr ⟨allHold_of_when hu hne,hf⟩

end

/-- A style sheet that has been transformed is left as it is by the same transformation, unless new
names are unused, dependencies were found, or a pass makes something for a pass before it. -/
theorem transform_transform {source : String} {parseOptions : ParseOptions}
    {sheet out : StyleSheet} {o : TransformOptions}
    (hparse : StyleSheet.parse source parseOptions = .ok sheet) (h : sheet.transform o = .ok out)
    (hsteady : sheet.IsSteady o.targets)
    (hnames : ∀ exports ∈ out.exports, ∀ e ∈ exports, e.2.name ∉ o.unused)
    (hdependencies : o.dependencies = true → out.dependencies = []) :
    out.transform o = .ok out := by
  have hparsed := allHold_rules hparse
  have hexports : sheet.exports = none := by
    obtain ⟨_, _, _, rfl⟩ := parse_ok hparse
    rfl
  obtain ⟨rules, hmedia, h⟩ := ok_of_bind_ok h
  obtain ⟨nested, hnested, h⟩ := ok_of_bind_ok h
  rw [resolveNesting_eq sheet o.targets (allHold_scoped (allHold_resolveMedia hmedia hparsed))]
    at hnested
  cases hnested
  obtain ⟨renamed, hscope, h⟩ := ok_of_bind_ok h
  obtain ⟨hlowered, hnamed⟩ := isLowered_lower_forNesting hsteady hparsed hmedia
  have hdone := isDone_scopeNames hscope hexports (hlowered.removeUnused o.unused)
    (allHold_removeUnused ((Checks.uniform_ofBlocks _).survives o.unused) hnamed)
    (allHold_used_removeUnused hlowered.parts)
  -- Nothing has been found, so that the last pass has changed nothing.
  have hextract : o.dependencies = true →
      (Dependency.extract renamed.filename renamed.rules).2 = [] := by
    intro hneeded
    rw [if_pos hneeded] at h
    cases h
    exact (append_eq_nil_iff.mp (hdependencies hneeded)).2
  have hsame : out = renamed := by
    split at h
    · rename_i hneeded
      rw [extractDependencies_eq_self (hextract hneeded)] at h
      exact (Except.ok.inj h).symm
    · exact (Except.ok.inj h).symm
  subst hsame
  exact (hdone hnames hextract).transform_eq_self

def safari8 : Targets := Targets.none.set .safari (some (.pack 8 0 0))

/-- Something for each pass: custom media queries, nested rules, fallbacks, keyframes, names. -/
def mixed : String := "@custom-media --m print;.a\x7buser-select:none;&:hover\x7bx:y\x7d\x7d" ++
    "@media (--m)\x7b@keyframes k\x7bfrom\x7bposition:sticky\x7d\x7d\x7d.q\x7bx:y\x7d"

/-- What the first run leaves for no pass is left by the second. -/
theorem transform_transform_all_passes : ∃ sheet out,
      StyleSheet.parse mixed { modules := some ⟨"x_[local]", false⟩, customMedia := true } = .ok sheet ∧
        sheet.transform { targets := safari8, unused := ["q"], dependencies := true } = .ok out ∧
          out.exports.map (·.map Prod.fst) = some ["a", "k"] ∧
            sheet.rules.length = 4 ∧ out.rules.length = 3 ∧
              out.transform { targets := safari8, unused := ["q"], dependencies := true } = .ok out := by
  have hcheck :
      (match StyleSheet.parse mixed { modules := some ⟨"x_[local]", false⟩, customMedia := true } with
        | .ok sheet =>
          match sheet.transform { targets := safari8, unused := ["q"], dependencies := true } with
          | .ok out => decide (sheet.IsSteady safari8 ∧ out.dependencies = [] ∧
              out.exports.map (·.map Prod.fst) = some ["a", "k"] ∧
                out.exports.map (·.map fun e => e.2.name) = some ["x_a", "x_k"] ∧
                  sheet.rules.length = 4 ∧ out.rules.length = 3)
          | .error _ => false
        | .error _ => false) = true := by
    decide +kernel
  split at hcheck
  · rename_i sheet hparse
    split at hcheck
    · rename_i out htransform
      obtain ⟨hsteady, hdependencies, hkeys, hnames, hbefore, hafter⟩ := of_decide_eq_true hcheck
      refine ⟨sheet, out, hparse, htransform, hkeys, hbefore, hafter, ?_⟩
      refine transform_transform hparse htransform hsteady (fun exports hexports e he => ?_)
        fun _ => hdependencies
      rw [Option.mem_def.mp hexports, Option.map_some, Option.some.injEq] at hnames
      have hname : e.2.name ∈ ["x_a", "x_k"] := hnames ▸ mem_map_of_mem he
      intro hunused
      rw [mem_singleton.mp hunused] at hname
      exact absurd hname (by decide)
    · cases hcheck
  · cases hcheck

def safari9 : Targets := Targets.none.set .safari (some (.pack 9 0 0))

def hasHashAlpha (rules : List Rule) : Bool := (walk rules).any fun
    | .value value => value.anywhere (Component.isColor (Color.isLowered safari9))
    | _ => false

/-- Of `.a{mask-image:linear-gradient(#ff000080,red)}` the copy under the prefix is made with the hash
that is written, which only the second run replaces. -/
theorem transform_transform_prefixed_hash : ∃ sheet out out',
      StyleSheet.parse ".a\x7bmask-image:linear-gradient(#ff000080,red)\x7d" {} = .ok sheet ∧
        sheet.transform { targets := safari9 } = .ok out ∧
          out.transform { targets := safari9 } = .ok out' ∧
            hasHashAlpha out.rules = true ∧ hasHashAlpha out'.rules = false := by
  have hcheck :
      (match StyleSheet.parse ".a\x7bmask-image:linear-gradient(#ff000080,red)\x7d" {} with
        | .ok sheet =>
          match sheet.transform { targets := safari9 } with
          | .ok out =>
            match out.transform { targets := safari9 } with
            | .ok out' => hasHashAlpha out.rules && !hasHashAlpha out'.rules
            | .error _ => false
          | .error _ => false
        | .error _ => false) = true := by
    decide +kernel
  split at hcheck
  · rename_i sheet hparse
    split at hcheck
    · rename_i out htransform
      split at hcheck
      · rename_i out' htransform'
        rw [Bool.and_eq_true, Bool.not_eq_true'] at hcheck
        exact ⟨sheet, out, out', hparse, htransform, htransform', hcheck⟩
      · cases hcheck
    · cases hcheck
  · cases hcheck

end Css.StyleSheet
