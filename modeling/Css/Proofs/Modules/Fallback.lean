import Css.Proofs.Declaration.Settled
import Css.Proofs.Modules.Renaming
import Css.Proofs.Rule.Placement

/-!
# Fallbacks and scoped names

Other names for animations and custom properties do not make a declaration need a fallback.
-/
namespace Css
open List Component.rename Component.anywhere Component
namespace Component

/-- A change of components that has nothing to do with colours and leaves variables variables. -/
structure KeepsColors (g : Component → Component) : Prop where
  shape : Declaration.KeepsShape g
  recolor : ∀ f c, (g c).recolor f = g (c.recolor f)
  color : ∀ p c, (g c).anywhere (isColor p) = c.anywhere (isColor p)
  reference : ∀ c, (g c).anywhere isReference = c.anywhere isReference

lemma KeepsColors.comp {g h : Component → Component} (hg : KeepsColors g) (hh : KeepsColors h) :
    KeepsColors (g ∘ h) where
  shape := ⟨fun c => (hg.shape.blank _).trans (hh.shape.blank c),
    fun c => (hg.shape.comma _).trans (hh.shape.comma c)⟩
  recolor f c := (hg.recolor f (h c)).trans (congrArg g (hh.recolor f c))
  color p c := (hg.color p (h c)).trans (hh.color p c)
  reference c := (hg.reference (h c)).trans (hh.reference c)

lemma keepsColors_id : KeepsColors id := ⟨⟨fun _ => rfl,fun _ => rfl⟩,fun _ _ => rfl,fun _ _ => rfl,fun _ => rfl⟩

lemma keepsColors_renameAnimation (own : String → String) (keywords : List String) :
    KeepsColors (renameAnimation own keywords) where
  shape := ⟨fun c => by cases c <;> rfl,fun c => by cases c <;> rfl⟩
  recolor f c := by cases c <;> rfl
  color p c := by cases c <;> rfl
  reference c := by cases c <;> rfl

lemma renameAll_eq_map (r : Renaming) (xs : List Component) : renameAll r xs = xs.map (rename r) := by
  induction xs with
  | nil => rfl
  | cons x xs ih => rw [renameAll,ih,map_cons]

section
variable (r : Renaming)

lemma recolorAll_rename (f : Color → Color) (xs : List Component) :
    recolor.recolorAll f (renameAll r xs) = renameAll r (recolor.recolorAll f xs) := by
  induction xs using Value.induct with
  | nil => rfl
  | cons c xs hc ih =>
    refine congrArg₂ List.cons ?_ ih
    cases c with
    | reference name src fb =>
      cases fb with
      | none => rfl
      | some ys => exact congrArg (fun ys => reference _ none (some ys)) hc
    | function name ys => exact congrArg (function name) hc
    | block bracket ys => exact congrArg (block bracket) hc
    | _ => rfl

lemma inner_rename (c : Component) : (c.rename r).inner = renameAll r c.inner := by
  cases c with
  | reference _ _ fb => cases fb <;> rfl
  | _ => rfl

lemma anywhereIn_rename {q : Component → Bool} (h : ∀ c, q (rename r c) = q c) (xs : List Component) :
    anywhereIn q (renameAll r xs) = anywhereIn q xs := by
  induction xs using Value.induct with
  | nil => rfl
  | cons c xs hc ih =>
    rw [renameAll,anywhereIn,anywhereIn,anywhere_eq,anywhere_eq,h,inner_rename,hc,ih]

lemma anywhere_rename {q : Component → Bool} (h : ∀ c, q (rename r c) = q c)
    (c : Component) : (c.rename r).anywhere q = c.anywhere q := by
  rw [anywhere_eq,anywhere_eq,h,inner_rename,anywhereIn_rename r h]

lemma keepsColors_rename : KeepsColors (rename r) where
  shape := ⟨fun c => by cases c <;> rfl,fun c => by cases c <;> rfl⟩
  recolor f c := (List.cons.inj (recolorAll_rename r f [c])).1
  color p c := anywhere_rename r (fun c => by cases c <;> rfl) c
  reference c := anywhere_rename r (fun c => by cases c <;> rfl) c

end
end Component

namespace Declaration
variable (r : Renaming)

def renamed (property : Property) : Component → Component := (if r.dashed then Component.rename r else id) ∘
    match Modules.Scoping.animationKeywords? property with
    | some keywords => Component.renameAnimation r.own keywords
    | none => id

lemma keepsColors_renamed (prop : Property) : Component.KeepsColors (renamed r prop) := by
  apply Component.KeepsColors.comp
  · split
    · exact keepsColors_rename r
    · exact keepsColors_id
  · split
    · exact keepsColors_renameAnimation ..
    · exact keepsColors_id

lemma value_rename (d : Declaration) : (d.rename r).value = d.value.map (renamed r d.property) := by
  have ha : renameAnimations r.own d.property d.value = d.value.map
      (match Modules.Scoping.animationKeywords? d.property with
        | some keywords => renameAnimation r.own keywords
        | none => id) := by
    unfold renameAnimations
    cases Modules.Scoping.animationKeywords? d.property with
    | some keywords => rfl
    | none => rw [map_id]
  rw [renamed,← map_map,← ha]
  change (if r.dashed then _ else _) = _
  split
  · exact renameAll_eq_map r _
  · rw [map_id]

lemma property_rename {d : Declaration} (h : d.property.isCustom = false) : (d.rename r).property = d.property := by
  obtain ⟨name,vendor,hp⟩ := Property.exists_standard h
  rw [rename,hp]

lemma isCustom_rename (d : Declaration) : (d.rename r).property.isCustom = d.property.isCustom := by
  unfold rename
  cases d.property <;> rfl

section
variable {targets : Targets} {d : Declaration}

lemma lowerAlpha_rename (h : lowerAlpha targets d.value = d.value) :
    lowerAlpha targets (d.rename r).value = (d.rename r).value := by
  have hk := keepsColors_renamed r d.property
  rw [lowerAlpha_eq,recolorAll_eq_map] at h ⊢
  rw [value_rename]
  calc (d.value.map (renamed r d.property)).map (recolor (Color.lowerAlpha targets))
      = (d.value.map (recolor (Color.lowerAlpha targets))).map (renamed r d.property) := by
        rw [map_map,map_map]
        exact map_congr_left fun c _ => hk.recolor _ c
    _ = d.value.map (renamed r d.property) := by rw [h]

lemma needsColor_rename : needsColor targets (d.rename r).value = needsColor targets d.value := by
  have hk := keepsColors_renamed r d.property
  rw [needsColor,needsColor,isUnsupportedColor_eq,value_rename,Value.anywhere,Value.anywhere,any_map]
  exact congrArg d.value.any (funext fun c => hk.color _ c)

lemma insetSides?_rename (hc : d.property.isCustom = false)
    (h : insetSides? targets d = none) : insetSides? targets (d.rename r) = none := by
  have hk := keepsColors_renamed r d.property
  have hv : Value.hasVariable (d.value.map (renamed r d.property)) = d.value.hasVariable := by
    change Value.anywhere Component.isReference _ = Value.anywhere Component.isReference _
    rw [Value.anywhere,Value.anywhere,any_map]
    exact congrArg d.value.any (funext hk.reference)
  have hm := insetSides?_map hk.shape hv h
  rw [insetSides?_eq_none_iff] at hm ⊢
  rw [property_rename r hc,value_rename]
  exact hm

lemma isKeyword_rename (keyword : String) (h : d.property.name = "position") :
    isKeyword keyword (d.rename r) = d.isKeyword keyword := by
  have hn : Modules.Scoping.animationKeywords? d.property = none := by
    cases hp : d.property with
    | standard name vendor =>
      rw [hp] at h
      simp [Modules.Scoping.animationKeywords?,show name = "position" from h]
    | custom name => rfl
  have hs : ∀ c, (renamed r d.property c).isKeyword keyword = c.isKeyword keyword := by
    intro c
    rw [renamed,hn]
    simp only [Function.comp_apply,id_eq]
    split
    · cases c <;> rfl
    · rfl
  unfold isKeyword
  rw [value_rename]
  match d.value with
  | [] => rfl
  | [c] => exact hs c
  | _ :: _ :: _ => rfl

end

variable {targets : Targets} {block earlier : List Declaration} {d : Declaration}

lemma hasSticky_rename (hnm : areNamed block) (h : HasSticky block) : HasSticky (block.map (rename r)) := by
  obtain ⟨other,ho,hn,hk⟩ := h
  have hc : other.property.isCustom = false := by
    have ho := all_eq_true.mp hnm other ho
    cases hp : other.property with
    | standard name vendor => rfl
    | custom name =>
      rw [hp] at hn
      rw [isNamed,hp,show name = "position" from hn] at ho
      exact absurd ho (by decide)
  refine ⟨other.rename r,mem_map_of_mem ho,?_,?_⟩
  · rw [property_rename r hc]
    exact hn
  · rw [isKeyword_rename r _ hn]
    exact hk

lemma prefixedCopies_rename (hc : d.property.isCustom = false) (h : prefixedCopies targets block d = []) :
    prefixedCopies targets (block.map (rename r)) (d.rename r) = [] := by
  rw [prefixedCopies_eq_nil_iff] at h ⊢
  rw [property_rename r hc]
  intro thing ht vendor hn
  obtain ⟨other,ho,hnm,hv⟩ := h thing ht vendor hn
  have hot : other.property.isCustom = false := by
    cases hp : other.property with
    | standard name vendor => rfl
    | custom name =>
      rw [hp] at hv; cases hv
  refine ⟨other.rename r,mem_map_of_mem ho,?_⟩
  rw [property_rename r hot]
  exact ⟨hnm,hv⟩

lemma stickyFallback_rename (hnm : areNamed block)
    (hcs : d.property.isCustom = false) (h : stickyFallback targets block d = []) :
    stickyFallback targets (block.map (rename r)) (d.rename r) = [] := by
  rw [eq_nil_iff_forall_not_mem]
  intro x hx
  obtain ⟨hn,hs,hnd,hnn,-⟩ := mem_stickyFallback.mp hx
  rw [property_rename r hcs] at hn
  rw [isKeyword_rename r _ hn] at hs
  by_cases hw : HasSticky block
  · exact hnn (hasSticky_rename r hnm hw)
  · have hc := mem_stickyFallback.mpr ⟨hn,hs,hnd,hw,rfl⟩
    rw [h] at hc; cases hc

lemma isSettled_rename (hnm : areNamed block) (h : IsSettled targets block earlier d) :
    IsSettled targets (block.map (rename r)) (earlier.map (rename r)) (d.rename r) := by
  intro hc
  rw [isCustom_rename] at hc
  obtain ⟨ha,hcl,hu⟩ := h hc
  refine ⟨lowerAlpha_rename r ha,fun hn => ?_,fun hv => ?_⟩
  · rw [needsColor_rename] at hn
    obtain ⟨e,he,heq⟩ := hcl hn
    refine ⟨e.rename r,mem_map_of_mem he,?_⟩
    rw [property_rename r hc,property_rename r (by rw [heq]; exact hc),heq]
  · rw [property_rename r hc] at hv
    obtain ⟨hcp,hs,hsd⟩ := hu hv
    exact ⟨prefixedCopies_rename r hc hcp,stickyFallback_rename r hnm hc hs,insetSides?_rename r hc hsd⟩

lemma settled_rename (hn : areNamed block) (h : Settled targets block) : Settled targets (block.map (rename r)) := by
  have hf : ∀ rest earlier, SettledFrom targets block earlier rest →
      SettledFrom targets (block.map (rename r)) (earlier.map (rename r)) (rest.map (rename r)) := by
    intro rest
    induction rest with
    | nil => exact fun _ _ => trivial
    | cons d rest ih => exact fun earlier h => ⟨isSettled_rename r hn h.1,ih _ h.2⟩
  exact hf block [] h

end Declaration
end Css
