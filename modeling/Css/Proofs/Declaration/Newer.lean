import Css.Proofs.Declaration.Settled
import Mathlib.Data.List.Forall2

/-!
# Fallbacks for newer targets

What a declaration gets for older browsers: copies under a prefix, a sticky position under a prefix, a
copy with other colours, or colours that are written otherwise.
-/
namespace Css

/-- Each browser that is targeted is so by `older`, in the same version or an earlier one. -/
def Targets.IsNewer (newer older : Targets) : Prop := ∀ browser version, newer.version browser = some version →
    ∃ earlier, older.version browser = some earlier ∧ earlier ≤ version

lemma Browser.mem_all (browser : Browser) : browser ∈ all := by cases browser <;> decide

lemma Targets.mem_entries {tgts : Targets} {browser : Browser} {version : Version} :
    (browser,version) ∈ tgts.entries ↔ tgts.version browser = some version := by
  simp [entries,Browser.mem_all]

namespace Feature

def isSupportedBy (feature : Feature) (browser : Browser) (version : Version) : Bool :=
  match feature.support.lookup browser with
  | some first => first ≤ version
  | none => false

variable {feature : Feature}

lemma isSupportedBy_mono {browser : Browser} {prev version : Version}
    (hle : prev ≤ version) (h : feature.isSupportedBy browser prev) :
    feature.isSupportedBy browser version := by
  unfold isSupportedBy at h ⊢
  cases hf : feature.support.lookup browser with
  | none =>
    rw [hf] at h; cases h
  | some first =>
    rw [hf] at h
    exact decide_eq_true (Nat.le_trans (of_decide_eq_true h) hle)

lemma isCompatible_iff {tgts : Targets} : feature.isCompatible tgts ↔ ∀ browser version,
      tgts.version browser = some version → feature.isSupportedBy browser version := by
  unfold isCompatible
  rw [List.all_eq_true]
  constructor
  · intro h browser version hv
    exact h (browser,version) (Targets.mem_entries.mpr hv)
  · rintro h ⟨browser,version⟩ he
    exact h browser version (Targets.mem_entries.mp he)

lemma isCompatible_of_isNewer {newer older : Targets} (h : newer.IsNewer older)
    (hc : feature.isCompatible older) : feature.isCompatible newer := by
  rw [isCompatible_iff] at hc ⊢
  intro browser version hv
  obtain ⟨earlier,he,hle⟩ := h browser version hv
  exact isSupportedBy_mono hle (hc browser earlier he)

lemma not_isCompatible_of_isNewer {newer older : Targets} (h : newer.IsNewer older)
    (hl : feature.isCompatible newer = false) : feature.isCompatible older = false := by
  cases hc : feature.isCompatible older with
  | false => rfl
  | true => exact absurd (isCompatible_of_isNewer h hc) (by simp [hl])

end Feature

namespace Prefixable

lemma Row.isNeeded_iff {row : Row} {tgts : Targets} :
    row.isNeeded tgts ↔ ∃ version, tgts.version row.browser = some version ∧
      ∀ unprefixed ∈ row.below, version < unprefixed := by
  unfold Row.isNeeded
  cases tgts.version row.browser <;> cases row.below <;> simp

lemma Row.isNeeded_of_isNewer {newer older : Targets} (h : newer.IsNewer older)
    {row : Row} (hn : row.isNeeded newer) : row.isNeeded older := by
  obtain ⟨version,hv,hb⟩ := Row.isNeeded_iff.mp hn
  obtain ⟨earlier,he,hle⟩ := h row.browser version hv
  refine Row.isNeeded_iff.mpr ⟨earlier,he,fun unprefixed hu => ?_⟩
  exact Nat.lt_of_le_of_lt hle (hb unprefixed hu)

lemma vendorsFor_subset_of_isNewer {newer older : Targets} (h : newer.IsNewer older)
    (thing : Prefixable) : thing.vendorsFor newer ⊆ thing.vendorsFor older := by
  intro vendor hv
  simp only [vendorsFor,List.mem_filter,List.any_eq_true,Bool.and_eq_true] at hv ⊢
  obtain ⟨ha,row,hr,hn,hnd⟩ := hv
  exact ⟨ha,row,hr,hn,Row.isNeeded_of_isNewer h hnd⟩

end Prefixable
end Css

namespace Css
open List Prod Feature Property
namespace Component

lemma anywhereIn_of_imp {p q : Component → Bool} (h : ∀ c, p c → q c)
    (xs : List Component) : anywhere.anywhereIn p xs → anywhere.anywhereIn q xs := by
  induction xs using Value.induct with
  | nil => exact id
  | cons c xs hc ih =>
    rw [anywhere.anywhereIn,anywhere.anywhereIn,anywhere_eq,anywhere_eq]
    simp only [Bool.or_eq_true]
    exact Or.imp (Or.imp (h c) hc) ih

end Component

namespace Declaration
variable {tgts newer older : Targets} {block prev : List Declaration} {d : Declaration}

lemma isUnsupportedColor_of_isNewer (h : newer.IsNewer older) (c : Component)
    (hc : isUnsupportedColor newer c) : isUnsupportedColor older c := by
  cases c with
  | color c =>
    simp only [isUnsupportedColor,Bool.and_eq_true,Option.any_eq_true,Bool.not_eq_true'] at hc ⊢
    obtain ⟨hp,feature,hf,hl⟩ := hc
    exact ⟨hp,feature,hf,not_isCompatible_of_isNewer h hl⟩
  | _ => cases hc

lemma needsColor_of_isNewer (h : newer.IsNewer older) {value : Value}
    (hn : needsColor newer value) : needsColor older value := by
  rw [needsColor,Value.anywhere_eq] at hn ⊢
  exact Component.anywhereIn_of_imp (isUnsupportedColor_of_isNewer h) value hn

lemma srgbValue_ne_ident {value : Value} (h : needsColor tgts value)
    (name : String) : srgbValue tgts value ≠ [.ident name] := by
  rw [srgbValue_eq,Component.recolorAll_eq_map]
  intro hk
  obtain ⟨c,rfl,hc⟩ := map_eq_singleton_iff.mp hk
  cases c with
  | ident name => cases h
  | _ => cases hc

def lowered (tgts : Targets) (d : Declaration) : Declaration := { d with value := lowerAlpha tgts d.value }

def added (tgts : Targets) (block prev : List Declaration) (d : Declaration) : List Declaration :=
  match d.property with
  | .custom _ => []
  | .standard _ (some _) => colorFallback tgts prev (lowered tgts d)
  | .standard _ none =>
    prefixedCopies tgts block d ++ stickyFallback tgts block d ++ colorFallback tgts prev (lowered tgts d)

def kept (tgts : Targets) (d : Declaration) : Declaration := match d.property with
  | .custom _ => d
  | .standard .. => lowered tgts d

lemma property_kept : (kept tgts d).property = d.property := by
  unfold kept
  split <;> rfl

lemma withFallbacks_eq (hd : d.property ≠ .standard "inset" none) :
    withFallbacks tgts block prev d = added tgts block prev d ++ [kept tgts d] := by
  obtain ⟨property,value,important,loc⟩ := d
  cases property with
  | custom name => rfl
  | standard name vendor =>
    cases vendor with
    | some vendor => rfl
    | none =>
      have hn : name ≠ "inset" := by
        rintro rfl
        exact hd rfl
      have hs : insetSides? tgts ⟨.standard name none,value,important,loc⟩ = none := insetSides?_of_name tgts hn
      unfold withFallbacks
      simp only [hs]
      exact (append_assoc _ _ _).symm

lemma mem_colorFallback {x : Declaration} : x ∈ colorFallback tgts prev (lowered tgts d) ↔
      (needsColor tgts d.value ∧ ∀ e ∈ prev, e.property ≠ d.property) ∧
        x = { d with value := srgbValue tgts (lowerAlpha tgts d.value) } := by
  have hn : (lowered tgts d).value.anywhere (isUnsupportedColor tgts) =
      needsColor tgts d.value := needsColor_lowerAlpha tgts d.value
  have hp : (lowered tgts d).property = d.property := rfl
  unfold colorFallback
  rw [hn,hp]
  cases needsColor tgts d.value with
  | false => simp
  | true =>
    rw [Bool.true_and]
    split
    · rename_i hf
      have hf : ∀ e ∈ prev, e.property ≠ d.property := by simpa using hf
      simp only [mem_singleton,true_and]
      exact (and_iff_right hf).symm
    · rename_i hf
      have hf : ¬∀ e ∈ prev, e.property ≠ d.property := by simpa using hf
      simp only [not_mem_nil,true_and,hf,false_and]

lemma mem_added {x : Declaration} :
    x ∈ added tgts block prev d ↔ d.property.isCustom = false ∧ (d.property.vendor = none ∧
          (x ∈ prefixedCopies tgts block d ∨ x ∈ stickyFallback tgts block d) ∨
        x ∈ colorFallback tgts prev (lowered tgts d)) := by
  obtain ⟨property,value,important,loc⟩ := d
  cases property with
  | custom name => simp [added,Property.isCustom]
  | standard name vendor =>
    cases vendor with
    | some vendor => simp [added,Property.isCustom,Property.vendor]
    | none => simp [added,Property.isCustom,Property.vendor,or_assoc]

inductive Change where
  | copy (vendor : Vendor)
  | sticky
  | color
  | alpha

/-- Whether a declaration gets a change, if it becomes the declarations `group`: a declaration of the
same property in front of it, or under a prefix, or another value of its own. -/
def Gets (d : Declaration) (group : List Declaration) : Change → Prop
  | .copy vendor =>
    d.property.vendor = none ∧ ∃ x ∈ group, x.property.vendor = some vendor
  | .sticky =>
    ∃ x ∈ group.dropLast, x.property = d.property ∧ x.value = [.ident "-webkit-sticky"]
  | .color =>
    ∃ x ∈ group.dropLast, x.property = d.property ∧ x.value ≠ [.ident "-webkit-sticky"]
  | .alpha => ∃ x ∈ group.getLast?, x.value ≠ d.value

section
variable (hd : d.property ≠ .standard "inset" none)
include hd

lemma dropLast_withFallbacks : (withFallbacks tgts block prev d).dropLast = added tgts block prev d := by
  rw [withFallbacks_eq hd,dropLast_concat]

omit hd in
lemma property_ne_of_mem_prefixedCopies {x : Declaration}
    (hc : d.property.isCustom = false) (hv : d.property.vendor = none)
    (hx : x ∈ prefixedCopies tgts block d) : x.property ≠ d.property := by
  obtain ⟨thing,_,vendor,_,_,rfl⟩ := mem_prefixedCopies.mp hx
  intro heq
  obtain ⟨name,_,hp⟩ := Property.exists_standard hc
  rw [← heq,hp] at hv; cases hv

lemma gets_copy_iff {vendor : Vendor} : Gets d (withFallbacks tgts block prev d) (.copy vendor) ↔
      d.property.isCustom = false ∧ d.property.vendor = none ∧
        ∃ thing, Prefixable.ofProperty? d.property.name = some thing ∧ vendor ∈ thing.vendorsFor tgts ∧ ∀ other ∈ block,
            other.property.name = d.property.name → other.property.vendor ≠ some vendor := by
  rw [withFallbacks_eq hd]
  constructor
  · rintro ⟨hv,x,hx,hxv⟩
    rcases mem_append.mp hx with hx | hx
    · obtain ⟨hc,⟨_,hx | hx⟩ | hx⟩ := mem_added.mp hx
      · obtain ⟨thing,ht,vendor',hn,hw,rfl⟩ := mem_prefixedCopies.mp hx
        have heq : vendor' = vendor := by
          obtain ⟨name,_,hp⟩ := Property.exists_standard hc
          rw [hp] at hxv
          exact Option.some.inj hxv
        subst heq
        exact ⟨hc,hv,thing,ht,hn,hw⟩
      · obtain ⟨_,_,_,_,rfl⟩ := mem_stickyFallback.mp hx
        rw [hv] at hxv; cases hxv
      · obtain ⟨_,rfl⟩ := mem_colorFallback.mp hx
        rw [hv] at hxv; cases hxv
    · rw [mem_singleton.mp hx,property_kept,hv] at hxv; cases hxv
  · rintro ⟨hc,hv,thing,ht,hn,hw⟩
    have hcp := mem_prefixedCopies.mpr ⟨thing,ht,vendor,hn,hw,rfl⟩
    have ha : { d with property := d.property.withVendor (some vendor) } ∈ added tgts block prev d :=
      mem_added.mpr ⟨hc,.inl ⟨hv,.inl hcp⟩⟩
    refine ⟨hv,_,mem_append_left _ ha,?_⟩
    obtain ⟨name,_,hp⟩ := Property.exists_standard hc
    rw [hp]; rfl

lemma gets_sticky_iff : Gets d (withFallbacks tgts block prev d) .sticky ↔
      d.property.isCustom = false ∧ d.property.vendor = none ∧ d.property.name = "position" ∧
        d.isKeyword "sticky" ∧ .webkit ∈ Prefixable.sticky.vendorsFor tgts ∧ ¬HasSticky block := by
  rw [Gets,dropLast_withFallbacks hd]
  constructor
  · rintro ⟨x,hx,hp,hvl⟩
    obtain ⟨hc,⟨hv,hx | hx⟩ | hx⟩ := mem_added.mp hx
    · exact absurd hp (property_ne_of_mem_prefixedCopies hc hv hx)
    · obtain ⟨hn,hk,hnd,hw,-⟩ := mem_stickyFallback.mp hx
      exact ⟨hc,hv,hn,hk,contains_iff_mem.mp hnd,hw⟩
    · obtain ⟨⟨hne,_⟩,rfl⟩ := mem_colorFallback.mp hx
      rw [← needsColor_lowerAlpha] at hne
      exact absurd hvl (srgbValue_ne_ident hne _)
  · rintro ⟨hc,hv,hn,hk,hnd,hw⟩
    have hs := mem_stickyFallback.mpr ⟨hn,hk,contains_iff_mem.mpr hnd,hw,rfl⟩
    exact ⟨_,mem_added.mpr ⟨hc,.inl ⟨hv,.inr hs⟩⟩,rfl,rfl⟩

lemma gets_color_iff : Gets d (withFallbacks tgts block prev d) .color ↔
      d.property.isCustom = false ∧ needsColor tgts d.value ∧ ∀ e ∈ prev, e.property ≠ d.property := by
  rw [Gets,dropLast_withFallbacks hd]
  constructor
  · rintro ⟨x,hx,hp,hv⟩
    obtain ⟨hc,⟨hvn,hx | hx⟩ | hx⟩ := mem_added.mp hx
    · exact absurd hp (property_ne_of_mem_prefixedCopies hc hvn hx)
    · obtain ⟨_,_,_,_,rfl⟩ := mem_stickyFallback.mp hx
      exact absurd rfl hv
    · exact ⟨hc,(mem_colorFallback.mp hx).1⟩
  · rintro ⟨hc,hn,hf⟩
    have hcl := mem_colorFallback.mpr ⟨⟨hn,hf⟩,rfl⟩
    refine ⟨_,mem_added.mpr ⟨hc,.inr hcl⟩,rfl,?_⟩
    rw [← needsColor_lowerAlpha] at hn
    exact srgbValue_ne_ident hn _

lemma gets_alpha_iff : Gets d (withFallbacks tgts block prev d) .alpha ↔
      d.property.isCustom = false ∧ lowerAlpha tgts d.value ≠ d.value := by
  rw [Gets,withFallbacks_eq hd,getLast?_concat]
  obtain ⟨property,value,important,loc⟩ := d
  cases property with
  | custom name => simp [kept,isCustom]
  | standard name vendor => simp [kept,lowered,isCustom]

end

lemma gets_of_isNewer (h : newer.IsNewer older) (hd : d.property ≠ .standard "inset" none)
    {change : Change} (hg : Gets d (withFallbacks newer block prev d) change) :
    Gets d (withFallbacks older block prev d) change := by
  cases change with
  | copy vendor =>
    obtain ⟨hc,hv,thing,ht,hn,hw⟩ := (gets_copy_iff hd).mp hg
    have hn := Prefixable.vendorsFor_subset_of_isNewer h thing hn
    exact (gets_copy_iff hd).mpr ⟨hc,hv,thing,ht,hn,hw⟩
  | sticky =>
    obtain ⟨hc,hv,hnm,hk,hn,hw⟩ := (gets_sticky_iff hd).mp hg
    have hn := Prefixable.vendorsFor_subset_of_isNewer h .sticky hn
    exact (gets_sticky_iff hd).mpr ⟨hc,hv,hnm,hk,hn,hw⟩
  | color =>
    obtain ⟨hc,hnd,hf⟩ := (gets_color_iff hd).mp hg
    exact (gets_color_iff hd).mpr ⟨hc,needsColor_of_isNewer h hnd,hf⟩
  | alpha =>
    obtain ⟨hc,hvl⟩ := (gets_alpha_iff hd).mp hg
    refine (gets_alpha_iff hd).mpr ⟨hc,?_⟩
    -- Where the newer tgts do not lack anything, nothing is written otherwise.
    cases hnw : hexAlphaColors.isCompatible newer with
    | true => exact absurd (if_pos hnw) hvl
    | false =>
      have ho := not_isCompatible_of_isNewer h hnw
      rw [lowerAlpha,hnw] at hvl
      rw [lowerAlpha,ho]
      exact hvl

def groupsFrom (tgts : Targets) (block prev : List Declaration) : List Declaration → List (Declaration × List Declaration)
  | [] => []
  | d :: rest =>
    (d,withFallbacks tgts block prev d) :: groupsFrom tgts block (d :: prev) rest

def groups (tgts : Targets) (block : List Declaration) : List (Declaration × List Declaration) :=
  groupsFrom tgts block [] block

lemma map_groupsFrom (rest : List Declaration) : (groupsFrom tgts block prev rest).map fst = rest ∧
      (groupsFrom tgts block prev rest).flatMap snd = addFallbacksFrom tgts block prev rest := by
  induction rest generalizing prev with
  | nil => exact ⟨rfl,rfl⟩
  | cons d rest ih =>
    obtain ⟨hf,hs⟩ := @ih (d :: prev)
    constructor
    · rw [groupsFrom,map_cons,hf]
    · rw [groupsFrom,flatMap_cons,hs,addFallbacksFrom]

lemma map_groups (tgts : Targets) (block : List Declaration) : (groups tgts block).map fst = block ∧
      (groups tgts block).flatMap snd = addFallbacks tgts block :=
  map_groupsFrom block

lemma groupsFrom_of_isNewer (h : newer.IsNewer older) (rest : List Declaration) : List.Forall₂
      (fun g g' : Declaration × List Declaration =>
        g.1 = g'.1 ∧ (g.1.property ≠ .standard "inset" none → ∀ change, Gets g.1 g.2 change → Gets g'.1 g'.2 change))
      (groupsFrom newer block prev rest) (groupsFrom older block prev rest) := by
  induction rest generalizing prev with
  | nil => exact .nil
  | cons d rest ih => exact .cons ⟨rfl,fun hd _ => gets_of_isNewer h hd⟩ ih

end Declaration
end Css
