import Css.Proofs.Modules.Scoping
import Css.Proofs.Rule.Traversal
import Css.Proofs.Value.Recolor
import Css.Sheet.Transform
import Mathlib.Data.List.Nodup

/-!
# Names in rules for older browsers

What is done to rules for older browsers, apart from nesting, leaves the same names in them, and so does
the removal of what is unused from both.
-/
namespace Css
open List Rule.occurrences Occurrence

structure Similar (p q : List Occurrence) : Prop where
  mem_iff : ∀ o, o.isComposition = false → (o ∈ p ↔ o ∈ q)
  compositions : p.filter Occurrence.isComposition = q.filter Occurrence.isComposition

namespace Similar
variable {p p' q q' r : List Occurrence}

lemma refl (p : List Occurrence) : Similar p p := ⟨fun _ _ => Iff.rfl,rfl⟩

lemma symm (h : Similar p q) : Similar q p := ⟨fun o ho => (h.mem_iff o ho).symm,h.compositions.symm⟩

lemma trans (h : Similar p q) (h' : Similar q r) : Similar p r :=
  ⟨fun o ho => (h.mem_iff o ho).trans (h'.mem_iff o ho),h.compositions.trans h'.compositions⟩

lemma append (h : Similar p q) (h' : Similar p' q') : Similar (p ++ p') (q ++ q') := by
  refine ⟨?_,?_⟩
  · intro o ho
    rw [mem_append,mem_append,h.mem_iff o ho,h'.mem_iff o ho]
  · rw [filter_append,filter_append,h.compositions,h'.compositions]

lemma append_nil (p : List Occurrence) : Similar (p ++ []) p := by
  rw [List.append_nil]
  exact refl p

lemma of_mem_iff (hp : ∀ o ∈ p, o.isComposition = false) (hq : ∀ o ∈ q, o.isComposition = false)
    (h : ∀ o, o ∈ p ↔ o ∈ q) : Similar p q := by
  refine ⟨fun o _ => h o,?_⟩
  have hn : ∀ ps : List Occurrence, (∀ o ∈ ps, o.isComposition = false) → ps.filter isComposition = [] := by
    intro ps hpl
    rw [filter_eq_nil_iff]
    intro o ho
    simp [hpl o ho]
  rw [hn p hp,hn q hq]

lemma flatMap {α : Type} {xs : List α} {f g : α → List Occurrence}
    (h : ∀ x ∈ xs, Similar (f x) (g x)) : Similar (xs.flatMap f) (xs.flatMap g) := by
  induction xs with
  | nil => exact refl _
  | cons x xs ih =>
    rw [flatMap_cons,flatMap_cons]
    exact append (h x mem_cons_self) (ih fun y hy => h y (mem_cons_of_mem x hy))

lemma mem (h : Similar p q) (o : Occurrence) : o ∈ p ↔ o ∈ q := by
  cases ho : o.isComposition with
  | false => exact h.mem_iff o ho
  | true =>
    have hf : ∀ ps : List Occurrence, o ∈ ps ↔ o ∈ ps.filter isComposition := by
      intro ps
      rw [mem_filter,ho]
      simp
    rw [hf p,hf q,h.compositions]

lemma flatMap_eq {α : Type} {f : Occurrence → List α}
    (hf : ∀ o, o.isComposition = false → f o = []) (h : Similar p q) : p.flatMap f = q.flatMap f := by
  have hfl : ∀ ps : List Occurrence, ps.flatMap f = (ps.filter isComposition).flatMap f := by
    intro ps
    induction ps with
    | nil => rfl
    | cons o ps ih =>
      cases ho : o.isComposition with
      | false => rw [filter_cons_of_neg (by simp [ho]),flatMap_cons,hf o ho,ih]; rfl
      | true => rw [filter_cons_of_pos ho,flatMap_cons,flatMap_cons,ih]
  rw [hfl p,hfl q,h.compositions]

end Similar

/-- Scoping makes no difference between the places: they are the same names, or there are places where
classes may not be composed among both. -/
inductive Alike (p q : List Occurrence) : Prop where
  | similar (h : Similar p q)
  | misplaced (hp : ∃ first, .misplaced first ∈ p) (hq : ∃ first, .misplaced first ∈ q)

lemma Alike.trans_similar {p q r : List Occurrence} (h : Alike p q) (h' : Similar q r) : Alike p r := by
  cases h with
  | similar h => exact .similar (h.trans h')
  | misplaced hp hq => exact .misplaced hp (hq.imp fun first => (h'.mem _).mp)

lemma Alike.symm {p q : List Occurrence} (h : Alike p q) : Alike q p := by
  cases h with
  | similar h => exact .similar h.symm
  | misplaced hp hq => exact .misplaced hq hp

namespace Modules.Scoping
variable {s : Scoping} {p q : List Occurrence}

lemma mem_exportedNames_of_similar (h : Similar p q) (name : String) :
    name ∈ exportedNames p ↔ name ∈ exportedNames q := by
  simp only [exportedNames,mem_filterMap,h.mem]

lemma exportOf_of_similar (h : Similar p q) (name : String) : s.exportOf p name = s.exportOf q name := by
  have hc : s.composesOf p name = s.composesOf q name := by
    apply h.flatMap_eq
    intro o ho
    cases o with
    | composer => cases ho
    | _ => rfl
  have hu : isUsed p name = isUsed q name := by
    rw [Bool.eq_iff_iff]
    simp only [isUsed,any_eq_true,h.mem]
  rw [exportOf,exportOf,hc,hu]

lemma targetsOf_of_similar (h : Similar p q) : targetsOf p = targetsOf q := by
  apply h.flatMap_eq
  intro o ho
  cases o with
  | composed => cases ho
  | _ => rfl

/-- The places can be scoped if no two names stand for one and all is composed where it may be. -/
lemma foldlM_ok_iff (ps : List Occurrence) : (∃ scope, ps.foldlM s.step {} = .ok scope) ↔
      (∀ a ∈ exportedNames ps, ∀ b ∈ exportedNames ps, s.naming.generate a = s.naming.generate b → a = b) ∧
      ∀ first, .misplaced first ∉ ps := by
  constructor
  · rintro ⟨scope,hs⟩
    have hd := describes_of_foldlM hs
    exact ⟨hd.injective,hd.placed⟩
  · rintro ⟨hi,hp⟩
    cases hr : ps.foldlM s.step {} with
    | ok scope => exact ⟨scope,rfl⟩
    | error e =>
      cases refuses_of_foldlM hr with
      | collision hne hf hsc heq => exact absurd (hi _ hf _ hsc heq) hne
      | misplaced h => exact absurd h (hp _)

lemma perm_exports {scope scope' : Scope} (h : Similar p q) (hd : s.Describes p scope)
    (hd' : s.Describes q scope') : scope.exports.Perm scope'.exports := by
  have hl : ∀ name, scope.exports.lookup name = scope'.exports.lookup name := by
    intro name
    rw [hd.lookup_eq,hd'.lookup_eq,exportOf_of_similar h]
    simp only [mem_exportedNames_of_similar h]
  have hm : ∀ {one other : Exports}, (one.map Prod.fst).Nodup →
      (∀ name, one.lookup name = other.lookup name) → ∀ e ∈ one, e ∈ other := by
    intro one other hn heq e he
    have hs := Exports.lookup_of_mem one hn he
    rw [heq] at hs
    obtain ⟨pre,post,hsp,_⟩ := lookup_eq_some_iff.mp hs
    simp [hsp]
  rw [perm_ext_iff_of_nodup (List.Nodup.of_map _ hd.keys_nodup) (List.Nodup.of_map _ hd'.keys_nodup)]
  intro e
  exact ⟨hm hd.keys_nodup hl e,hm hd'.keys_nodup (fun name => (hl name).symm) e⟩

lemma checkTargets_eq {scope scope' : Scope} (h : Similar p q) (hd : s.Describes p scope)
    (hd' : s.Describes q scope') : s.checkTargets scope = s.checkTargets scope' := by
  have hc : ∀ name, scope.classes.contains name = scope'.classes.contains name := by
    intro name
    rw [Bool.eq_iff_iff,contains_iff_mem,contains_iff_mem,hd.mem_classes,hd'.mem_classes,h.mem]
  unfold checkTargets
  simp only [hc,hd.targets_eq,hd'.targets_eq,targetsOf_of_similar h]

def SameExports (x y : Except Error (List Rule × Scope)) : Prop := match x, y with
  | .ok a, .ok b => a.2.exports.Perm b.2.exports
  | .error _, .error _ => True
  | _, _ => False

variable {rules : List Rule}

lemma sameExports_of_similar {rules' : List Rule}
    (h : Similar (occurrencesIn s.dashed rules) (occurrencesIn s.dashed rules')) :
    SameExports (s.run rules) (s.run rules') := by
  have hok := foldlM_ok_iff (s := s) (occurrencesIn s.dashed rules)
  simp only [mem_exportedNames_of_similar h,h.mem] at hok
  rw [← foldlM_ok_iff] at hok
  rw [run_eq,run_eq]
  cases hr : (occurrencesIn s.dashed rules).foldlM s.step {} with
  | error e =>
    cases hr' : (occurrencesIn s.dashed rules').foldlM s.step {} with
    | error e' => trivial
    | ok scope' =>
      obtain ⟨scope,hs⟩ := hok.mpr ⟨scope',hr'⟩
      rw [hr] at hs; cases hs
  | ok scope =>
    obtain ⟨scope',hr'⟩ := hok.mp ⟨scope,hr⟩
    rw [hr']
    have hd := describes_of_foldlM hr
    have hd' := describes_of_foldlM hr'
    have hc := checkTargets_eq h hd hd'
    cases ht : s.checkTargets scope' with
    | error e =>
      rw [ht] at hc
      simp only [bind,Except.bind,hc,ht]
      trivial
    | ok _ =>
      rw [ht] at hc
      simp only [bind,Except.bind,hc,ht]
      exact perm_exports h hd hd'

lemma run_of_misplaced {first : Composes} (h : .misplaced first ∈ occurrencesIn s.dashed rules) :
    ∃ e, s.run rules = .error e := by
  rw [run_eq]
  cases hr : (occurrencesIn s.dashed rules).foldlM s.step {} with
  | error e => exact ⟨e,rfl⟩
  | ok scope => exact absurd h ((describes_of_foldlM hr).placed first)

lemma sameExports_run {rules' : List Rule} (h : Alike (occurrencesIn s.dashed rules) (occurrencesIn s.dashed rules')) :
    SameExports (s.run rules) (s.run rules') := by
  cases h with
  | similar h => exact sameExports_of_similar h
  | misplaced hp hq =>
    obtain ⟨first,hf⟩ := hp
    obtain ⟨first',hf'⟩ := hq
    obtain ⟨e,he⟩ := run_of_misplaced hf
    obtain ⟨e',he'⟩ := run_of_misplaced hf'
    rw [he,he']; trivial

end Modules.Scoping

lemma Modules.sameExports_scopeRules (filename : String) (opts : ModuleOptions) {rs rules' : List Rule}
    (h : Alike (occurrencesIn opts.dashedIdents rs) (occurrencesIn opts.dashedIdents rules')) :
    Scoping.SameExports (scopeRules filename opts rs) (scopeRules filename opts rules') := by
  unfold scopeRules
  split
  · trivial
  · exact Scoping.sameExports_run h

end Css

namespace Css
open List Component.recolor Rule.visit Rule.removeUnused? Rule.prefixKeyframes Bool Value Occurrence
namespace Component
open occurrences

section
variable {f : Color → Color}

lemma occurrencesIn_recolorAll (xs : List Component) : occurrencesIn (recolorAll f xs) = occurrencesIn xs := by
  induction xs using Value.induct with
  | nil => rfl
  | cons c xs hc ih =>
    have ho : (c.recolor f).ownOccurrences = c.ownOccurrences := by cases c <;> rfl
    rw [recolorAll,occurrencesIn,occurrencesIn,occurrences_eq,occurrences_eq,ho,inner_recolor,hc,ih]

lemma animationUse_recolor (keywords : List String) (c : Component) :
    (c.recolor f).animationUse keywords = c.animationUse keywords := by
  cases c <;> rfl

end

lemma occurrencesIn_of_no_reference (xs : List Component)
    (h : anywhere.anywhereIn isReference xs = false) : occurrencesIn xs = [] := by
  induction xs using Value.induct with
  | nil => rfl
  | cons c xs hc ih =>
    rw [anywhere.anywhereIn,anywhere_eq,or_eq_false_iff,or_eq_false_iff] at h
    have ho : c.ownOccurrences = [] := by
      cases c with
      | reference => cases h.1.1
      | _ => rfl
    rw [occurrencesIn,occurrences_eq,ho,hc h.1.2,ih h.2]; rfl

end Component

lemma Value.occurrencesIn_of_not_hasVariable {value part : Value}
    (h : value.hasVariable = false) (hp : ∀ c ∈ part, c ∈ value) :
    Component.occurrences.occurrencesIn part = [] := by
  apply Component.occurrencesIn_of_no_reference
  have hv : value.anywhere Component.isReference = false := h
  rw [anywhere,any_eq_false] at hv
  rw [← anywhere_eq,anywhere,any_eq_false]
  intro c hc
  exact hv c (hp c hc)

namespace Declaration
open Modules.Scoping
variable {dashed : Bool} (targets : Targets)

lemma occurrences_recolored (f : Color → Color) (d : Declaration) :
    ({ d with value := recolorAll f d.value } : Declaration).occurrences dashed = d.occurrences dashed := by
  have hu : animationUses { d with value := recolorAll f d.value } = d.animationUses := by
    unfold animationUses
    simp only [Component.recolorAll_eq_map,flatMap_map,Component.animationUse_recolor]
  rw [occurrences,occurrences,hu,Component.occurrencesIn_recolorAll]; rfl

lemma occurrences_withVendor (vendor : Option Vendor) (d : Declaration) :
    ({ d with property := d.property.withVendor vendor } : Declaration).occurrences dashed = d.occurrences dashed := by
  have hd : definitions dashed { d with property := d.property.withVendor vendor } = d.definitions dashed := by
    unfold definitions
    cases d.property <;> rfl
  have hu : animationUses { d with property := d.property.withVendor vendor } = d.animationUses := by
    unfold animationUses
    cases d.property <;> rfl
  rw [occurrences,occurrences,hd,hu]

variable {d : Declaration}

lemma occurrences_eq_nil {name : String} {vendor : Option Vendor}
    (hp : d.property = .standard name vendor) (ha : name ≠ "animation")
    (han : name ≠ "animation-name") (hv : Component.occurrences.occurrencesIn d.value = []) :
    d.occurrences dashed = [] := by
  have hk : animationKeywords? d.property = none := by simp [hp,animationKeywords?,ha,han]
  simp [occurrences,definitions,animationUses,hp,hv]
  rw [← hp,hk]

lemma mem_flatMap_occurrences {ds : List Declaration}
    (ha : ∀ e ∈ ds, e.occurrences dashed = d.occurrences dashed ∨ e.occurrences dashed = [])
    (hs : (∃ e ∈ ds, e.occurrences dashed = d.occurrences dashed) ∨ d.occurrences dashed = [])
    (o : Occurrence) : o ∈ ds.flatMap (occurrences dashed) ↔ o ∈ d.occurrences dashed := by
  rw [mem_flatMap]
  constructor
  · rintro ⟨e,he,ho⟩
    rcases ha e he with heq | heq
    · rwa [← heq]
    · rw [heq] at ho; cases ho
  · intro ho
    rcases hs with ⟨e,he,heq⟩ | hn
    · exact ⟨e,he,by rwa [heq]⟩
    · rw [hn] at ho; cases ho

variable (dashed) in
lemma occurrences_insetSides? {sides : List Declaration}
    (hs : d.property.isCustom = false) (h : insetSides? targets d = some sides) :
    d.occurrences dashed = [] ∧ ∀ e ∈ sides, e.occurrences dashed = [] := by
  obtain ⟨hn,-,hv,-,hsi⟩ := insetSides?_eq_some h
  constructor
  · obtain ⟨name,vendor,hp⟩ := Property.exists_standard hs
    rw [hp] at hn
    refine occurrences_eq_nil hp ?_ ?_ (occurrencesIn_of_not_hasVariable hv fun _ hc => hc)
    · rintro rfl
      exact absurd (show "animation" = "inset" from hn) (by decide)
    · rintro rfl
      exact absurd (show "animation-name" = "inset" from hn) (by decide)
  · intro e he
    obtain ⟨⟨name,hsd,hp⟩,hvl,-,-⟩ := hsi e he
    refine occurrences_eq_nil hp ?_ ?_ (occurrencesIn_of_not_hasVariable hv hvl)
    · rintro rfl
      exact absurd hsd (by decide)
    · rintro rfl
      exact absurd hsd (by decide)

variable (dashed) in
lemma occurrences_colorFallback (prev : List Declaration) (d : Declaration) :
    ∀ e ∈ colorFallback targets prev { d with value := lowerAlpha targets d.value } ++
      [{ d with value := lowerAlpha targets d.value }], e.occurrences dashed = d.occurrences dashed := by
  intro e he
  rcases mem_append.mp he with he | he
  · unfold colorFallback at he
    split at he
    · rw [mem_singleton.mp he]
      simp only [srgbValue_eq,lowerAlpha_eq,Component.recolorAll_recolorAll]
      exact occurrences_recolored _ d
    · cases he
  · rw [mem_singleton.mp he,lowerAlpha_eq]
    exact occurrences_recolored _ d

lemma occurrences_prefixedCopies (block : List Declaration) (d : Declaration) :
    ∀ e ∈ prefixedCopies targets block d, e.occurrences dashed = d.occurrences dashed := by
  intro e he
  unfold prefixedCopies at he
  split at he
  · cases he
  · obtain ⟨vendor,-,rfl⟩ := mem_map.mp he
    exact occurrences_withVendor (some vendor) d

lemma occurrences_stickyFallback (block : List Declaration) (hs : d.property.isCustom = false) :
    ∀ e ∈ stickyFallback targets block d, e.occurrences dashed = [] := by
  intro e he
  unfold stickyFallback at he
  simp only at he
  split at he
  · rename_i h
    simp only [and_eq_true,beq_iff_eq] at h
    rw [mem_singleton.mp he]
    obtain ⟨name,vendor,hp⟩ := Property.exists_standard hs
    have hn : name = "position" := by simpa [hp,Property.name] using h.1.1.1
    subst hn
    exact occurrences_eq_nil hp (by decide) (by decide) rfl
  · cases he

lemma occurrences_withFallbacks (block prev : List Declaration) (d : Declaration) (o : Occurrence) :
    o ∈ (withFallbacks targets block prev d).flatMap (occurrences dashed) ↔ o ∈ d.occurrences dashed := by
  have hc := occurrences_colorFallback dashed targets prev d
  unfold withFallbacks
  simp only
  split
  · simp
  · exact mem_flatMap_occurrences (fun e he => .inl (hc e he))
      (.inl ⟨_,mem_append_right _ (mem_singleton.mpr rfl),hc _ (mem_append_right _ (mem_singleton.mpr rfl))⟩) o
  · rename_i name hp
    have hs : d.property.isCustom = false := by rw [hp]; rfl
    have ha : ∀ e ∈ prefixedCopies targets block d ++ stickyFallback targets block d,
        e.occurrences dashed = d.occurrences dashed ∨ e.occurrences dashed = [] := by
      intro e he
      rcases mem_append.mp he with he | he
      · exact .inl (occurrences_prefixedCopies targets block d e he)
      · exact .inr (occurrences_stickyFallback targets block hs e he)
    split
    · rename_i sides hsd
      obtain ⟨hd,hal⟩ := occurrences_insetSides? dashed targets hs hsd
      refine mem_flatMap_occurrences ?_ (.inr hd) o
      intro e he
      rcases mem_append.mp he with he | he
      · exact ha e he
      · exact .inr (hal e he)
    · refine mem_flatMap_occurrences ?_ (.inl ⟨_,mem_append_right _
        (mem_append_right _ (mem_singleton.mpr rfl)),hc _ (mem_append_right _ (mem_singleton.mpr rfl))⟩) o
      intro e he
      rcases mem_append.mp he with he | he
      · exact ha e he
      · exact .inl (hc e he)

lemma mem_occurrences_addFallbacks (block : List Declaration) (o : Occurrence) :
    o ∈ (addFallbacks targets block).flatMap (occurrences dashed) ↔ o ∈ block.flatMap (occurrences dashed) := by
  have hf : ∀ earlier rest : List Declaration,
      o ∈ (addFallbacksFrom targets block earlier rest).flatMap (occurrences dashed) ↔
        o ∈ rest.flatMap (occurrences dashed) := by
    intro earlier rest
    induction rest generalizing earlier with
    | nil => rfl
    | cons d rest ih =>
      rw [addFallbacksFrom,flatMap_append,mem_append,occurrences_withFallbacks,ih,flatMap_cons,mem_append]
  exact hf [] block

lemma similar_addFallbacks (block : List Declaration) :
    Similar ((addFallbacks targets block).flatMap (occurrences dashed)) (block.flatMap (occurrences dashed)) :=
  .of_mem_iff (fun o ho => not_isComposition (isDeclared_all _ o ho))
    (fun o ho => not_isComposition (isDeclared_all _ o ho))
    (mem_occurrences_addFallbacks targets block)

end Declaration

namespace Rule
open occurrences
variable {dashed : Bool} {v : Visitor Id} {f : List Declaration → List Declaration}

lemma occurrencesIn_append (rs ss : List Rule) : occurrencesIn dashed (rs ++ ss) =
      occurrencesIn dashed rs ++ occurrencesIn dashed ss := by
  induction rs with
  | nil => rfl
  | cons r rs ih =>
    rw [cons_append,occurrencesIn,occurrencesIn,ih,append_assoc]

structure Visitor.KeepsNames (dashed : Bool) (v : Visitor Id) : Prop where
  block : ∀ b, Similar ((v.block b).run.occurrences dashed) (b.occurrences dashed)
  statement : ∀ s location,
    Similar ((v.statement s location).run.occurrences dashed) (s.occurrences dashed)

lemma similar_visitAll (hv : v.KeepsNames dashed) (rules : List Rule) :
    Similar (occurrencesIn dashed (visitAll v rules)) (occurrencesIn dashed rules) := by
  induction rules using induct with
  | nil => exact .refl _
  | cons r rs hr ih =>
    refine .append ?_ ih
    cases r with
    | style b | nest b => exact (hv.block b).append hr
    | group => exact hr
    | statement s loc => exact hv.statement s loc

section
variable (targets : Targets)

lemma addFallbacks_eq_visitAll (rules : List Rule) : addFallbacks targets rules =
      visitAll (declarationChange (Declaration.addFallbacks targets)) rules :=
  traverseAll_eq_visitAll _ rules

variable (dashed) in
lemma keepsNames_fallbacks : (declarationChange (Declaration.addFallbacks targets)).KeepsNames dashed where
  block b := (Similar.refl _).append (Declaration.similar_addFallbacks targets b.declarations)
  statement s location := by
    rw [run_declarationChange]
    cases s with
    | keyframes name quoted vendor frames =>
      refine (Similar.refl _).append ?_
      rw [flatMap_map]
      exact .flatMap fun frame _ => Declaration.similar_addFallbacks targets frame.declarations
    | property name ds =>
      exact (Similar.refl _).append (Declaration.similar_addFallbacks targets ds)
    | fontFace ds | page _ ds => exact Declaration.similar_addFallbacks targets ds
    | importSheet | namespaceOf | layers | customMedia | unknown => exact .refl _

end

lemma lowerRanges_eq_visitAll (rules : List Rule) : lowerRanges rules = visitAll rangeVisitor rules :=
  traverseAll_eq_visitAll _ rules

lemma keeps_rangeVisitor : rangeVisitor.Keeps id where
  block _ := rfl
  isEmpty _ := rfl
  keyframesName s _ := by cases s <;> rfl

lemma keepsNames_rangeVisitor : rangeVisitor.KeepsNames dashed where
  block _ := .refl _
  statement s _ := by cases s <;> exact .refl _

section
variable {unused : List String}

lemma hasKeyframes_cons (vendor : Vendor) (name : String) (r : Rule) (rs : List Rule) :
    hasKeyframes vendor name (r :: rs) = (hasKeyframes vendor name [r] || hasKeyframes vendor name rs) := by
  simp [hasKeyframes]

lemma hasKeyframes_removeUnused? {vendor : Vendor} {name : String} (hn : unused.contains name = false) (r : Rule) :
    hasKeyframes vendor name (r.removeUnused? unused).toList = hasKeyframes vendor name [r] := by
  cases r with
  | style b rs =>
    rw [removeUnused?_style]
    cases (_ || _ : Bool) <;> rfl
  | nest b rs =>
    rw [removeUnused?_nest]
    cases (_ || _ : Bool) <;> rfl
  | group g rs loc =>
    rw [removeUnused?_group]
    cases isEmptied _ _ <;> rfl
  | statement s loc =>
    rw [removeUnused?_statement]
    split
    · rename_i hu
      cases s with
      | keyframes other quoted v frames =>
        have ho : (other == name) = false := by
          rw [beq_eq_false_iff_ne]
          rintro rfl
          rw [Statement.keyframesName?,Option.any_some,hn] at hu; cases hu
        simp [hasKeyframes,ho]
      | _ => cases hu
    · rfl

lemma hasKeyframes_removeFrom {vendor : Vendor} {name : String} (hn : unused.contains name = false) (rules : List Rule) :
    hasKeyframes vendor name (removeFrom unused rules) = hasKeyframes vendor name rules := by
  have ha : ∀ rs ss : List Rule, hasKeyframes vendor name (rs ++ ss) =
      (hasKeyframes vendor name rs || hasKeyframes vendor name ss) := fun rs ss => any_append
  induction rules with
  | nil => rfl
  | cons r rs ih =>
    rw [removeFrom_cons,ha,ih,hasKeyframes_removeUnused? hn,← hasKeyframes_cons]

lemma prefixAll_append (siblings rs ss : List Rule) : prefixAll siblings (rs ++ ss) =
      prefixAll siblings rs ++ prefixAll siblings ss := by
  induction rs with
  | nil => rfl
  | cons r rs ih =>
    rw [cons_append,prefixAll,prefixAll,ih,append_assoc]

lemma prefixKeyframes_ne_nil (siblings : List Rule) (r : Rule) : r.prefixKeyframes siblings ≠ [] := by
  cases r with
  | statement s loc =>
    cases s with
    | keyframes name quoted vendor frames =>
      cases vendor with
      | none =>
        rw [prefixKeyframes]
        split <;> simp
      | some vendor => simp [prefixKeyframes]
    | _ => simp [prefixKeyframes]
  | _ => simp [prefixKeyframes]

lemma isEmptied_prefixAll (siblings siblings' pre post : List Rule) :
    isEmptied (prefixAll siblings pre) (prefixAll siblings' post) = isEmptied pre post := by
  have he : ∀ siblings rules : List Rule, (prefixAll siblings rules).isEmpty = rules.isEmpty := by
    intro siblings rules
    cases rules with
    | nil => rfl
    | cons r rs => simp [prefixAll,prefixKeyframes_ne_nil]
  rw [isEmptied,isEmptied,he,he]

lemma removeFrom_prefixAll (siblings rules : List Rule) : removeFrom unused (prefixAll siblings rules) =
      prefixAll (removeFrom unused siblings) (removeFrom unused rules) := by
  induction rules using induct generalizing siblings with
  | nil => rfl
  | cons r rs hr ih =>
    rw [prefixAll,removeFrom_append,ih siblings,removeFrom_cons,prefixAll_append]
    congr 1
    cases r with
    | group g rs =>
      rw [prefixKeyframes,removeFrom_cons,removeUnused?_group,removeUnused?_group,hr rs,isEmptied_prefixAll]
      cases isEmptied rs (removeFrom unused rs) <;> rfl
    | statement s loc =>
      cases s with
      | keyframes name quoted vendor frames =>
        cases vendor with
        | none =>
          have hn : ∀ vendor, (statement (.keyframes name quoted vendor frames) loc).removeUnused?
              unused = if unused.contains name then none
                else some (statement (.keyframes name quoted vendor frames) loc) := fun _ => rfl
          cases hnm : unused.contains name with
          | true =>
            simp only [hnm,if_true] at hn
            rw [prefixKeyframes,hn]
            split
            · rw [removeFrom_cons,hn]; rfl
            · rw [removeFrom_cons,removeFrom_cons,hn,hn]; rfl
          | false =>
            simp only [hnm,false_eq_true,if_false] at hn
            rw [hn,Option.toList_some,prefixAll,prefixAll,
              append_nil,prefixKeyframes,prefixKeyframes,hasKeyframes_removeFrom hnm]
            split
            · rw [removeFrom_cons,hn]; rfl
            · rw [removeFrom_cons,removeFrom_cons,hn,hn]; rfl
        | some vendor =>
          change removeFrom unused [_] = _
          rw [removeFrom_cons,removeUnused?_statement]
          split <;> rfl
      | _ => rfl
    | style =>
      change removeFrom unused [_] = _
      rw [removeFrom_cons,removeUnused?_style]
      cases (_ || _ : Bool) <;> rfl
    | nest =>
      change removeFrom unused [_] = _
      rw [removeFrom_cons,removeUnused?_nest]
      cases (_ || _ : Bool) <;> rfl

lemma similar_prefixAll (siblings rules : List Rule) :
    Similar (occurrencesIn dashed (prefixAll siblings rules)) (occurrencesIn dashed rules) := by
  induction rules using induct generalizing siblings with
  | nil => exact .refl _
  | cons r rs hr ih =>
    rw [prefixAll,occurrencesIn_append,occurrencesIn]
    refine .append ?_ (ih siblings)
    cases r with
    | group g rs =>
      rw [prefixKeyframes,occurrencesIn,occurrencesIn,append_nil]
      exact hr rs
    | statement s =>
      cases s with
      | keyframes name quoted vendor frames =>
        cases vendor with
        | none =>
          have hs : ∀ o ∈ (Statement.keyframes name quoted none frames).occurrences dashed, o.isComposition = false :=
            fun o ho => Occurrence.not_isComposition (Statement.isDeclared _ o ho)
          rw [prefixKeyframes]
          split
          · rw [occurrencesIn,occurrencesIn,append_nil]
            exact .refl _
          · refine .of_mem_iff ?_ hs ?_
            · intro o ho
              rw [occurrencesIn,occurrencesIn,occurrencesIn,append_nil] at ho
              exact hs o ((mem_append.mp ho).elim id id)
            · intro o
              rw [occurrencesIn,occurrencesIn,occurrencesIn,append_nil,mem_append]
              exact or_self_iff
        | some => exact .append_nil _
      | _ => exact .append_nil _
    | _ => exact .append_nil _

end

lemma similar_removeUnused_visitAll (hk : v.Keeps f) (hn : v.KeepsNames dashed) (unused : List String) (rs : List Rule) :
    Similar (occurrencesIn dashed (removeUnused unused (visitAll v rs)))
      (occurrencesIn dashed (removeUnused unused rs)) := by
  unfold removeUnused
  split
  · exact similar_visitAll hn rs
  · rw [removeFrom_visitAll hk]
    exact similar_visitAll hn _

lemma similar_removeUnused_prefixAllKeyframes (unused : List String) (rs : List Rule) :
    Similar (occurrencesIn dashed (removeUnused unused (prefixAllKeyframes rs)))
      (occurrencesIn dashed (removeUnused unused rs)) := by
  unfold removeUnused prefixAllKeyframes
  split
  · exact similar_prefixAll rs rs
  · rw [removeFrom_prefixAll]
    exact similar_prefixAll _ _

lemma similar_lower (tgts : Targets) (unused : List String) (rs : List Rule) :
    Similar (occurrencesIn dashed (removeUnused unused (StyleSheet.lower tgts rs)))
      (occurrencesIn dashed (removeUnused unused rs)) := by
  have hf := similar_removeUnused_visitAll (keeps_declarationChange _ (Declaration.isEmpty_addFallbacks tgts))
    (keepsNames_fallbacks dashed tgts) unused rs
  rw [← addFallbacks_eq_visitAll] at hf
  have hr : ∀ rs : List Rule, Similar (occurrencesIn dashed (removeUnused unused
        (if Feature.mediaRanges.isCompatible tgts then rs else lowerRanges rs)))
        (occurrencesIn dashed (removeUnused unused rs)) := by
    intro rs
    split
    · exact .refl _
    · rw [lowerRanges_eq_visitAll]
      exact similar_removeUnused_visitAll keeps_rangeVisitor keepsNames_rangeVisitor unused rs
  unfold StyleSheet.lower
  simp only
  split
  · exact (similar_removeUnused_prefixAllKeyframes unused _).trans ((hr _).trans hf)
  · exact (hr _).trans hf

end Rule
end Css
