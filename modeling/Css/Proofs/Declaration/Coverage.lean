import Css.Proofs.Declaration.Newer

/-!
# Colours that have no fallback

Fallbacks are to leave no colour to a browser that does not understand it: no hash with an alpha, and no
perceptual colour that no declaration of the same property stands in front of.
-/
namespace Css
open List Component Value Color
namespace Color
variable (tgts : Targets)

lemma isLowered_lowerAlpha (c : Color) : isLowered tgts (lowerAlpha tgts c) = false := by
  cases c with
  | rgba c =>
    rw [lowerAlpha]
    by_cases h : (Feature.hexAlphaColors.isCompatible tgts || c.isSolid)
    · rw [if_pos h,isLowered,h]; rfl
    · rw [if_neg h]; rfl
  | legacyRgba c => rfl
  | perceptual space x y z alpha => rfl

lemma isLowered_toSrgb (c : Color) : isLowered tgts (toSrgb tgts (lowerAlpha tgts c)) = false := by
  rw [← lowerAlpha_toSrgb]
  exact isLowered_lowerAlpha tgts _

end Color

namespace Declaration

def hasHashAlpha (tgts : Targets) (value : Value) : Bool := value.anywhere (Component.isColor (Color.isLowered tgts))

variable {tgts : Targets} {block prev : List Declaration} {d x : Declaration} {name : String}

lemma hasHashAlpha_recolorAll {f : Color → Color} (hf : ∀ c, isLowered tgts (f c) = false) (value : Value) :
    hasHashAlpha tgts (Component.recolor.recolorAll f value) = false := by
  rw [hasHashAlpha,Value.anywhere_eq,Component.anywhereIn_recolorAll]
  apply Component.anywhereIn_never
  intro c
  cases c with
  | color c => exact hf c
  | _ => rfl

lemma hasHashAlpha_of_mem_recolored (h : x ∈ recolored tgts prev d) : hasHashAlpha tgts x.value = false := by
  rcases mem_append.mp h with h | h
  · unfold colorFallback at h
    split at h
    · rw [mem_singleton.mp h,srgbValue_eq,lowerAlpha_eq,recolorAll_recolorAll]
      exact hasHashAlpha_recolorAll (isLowered_toSrgb tgts) d.value
    · cases h
  · rw [mem_singleton.mp h,lowerAlpha_eq]
    exact hasHashAlpha_recolorAll (isLowered_lowerAlpha tgts) d.value

lemma exists_side_of_anywhere {sides : List Declaration} {p : Color → Bool} (hs : insetSides? tgts d = some sides)
    (hcl : d.value.anywhere (isColor p)) :
    ∃ side ∈ sides, side.value.anywhere (isColor p) := by
  obtain ⟨c,hc,hf⟩ := any_eq_true.mp hcl
  have hb : c.isWhitespace = false := by
    cases c with
    | whitespace => cases hf
    | _ => rfl
  obtain ⟨part,hp,hm⟩ := exists_mem_parts hc hb
  have hf : anywhere (isColor p) part := any_eq_true.mpr ⟨c,hm,hf⟩
  unfold insetSides? at hs
  split at hs
  · cases hpr : d.value.parts? with
    | none =>
      rw [hpr] at hs; cases hs
    | some ps =>
      rw [(parts?_eq_some hpr).1] at hp
      rw [hpr] at hs
      -- Each part is the value of the first side that it stands for.
      match ps with
      | [] | _ :: _ :: _ :: _ :: _ :: _ => cases hs
      | [_] | [_,_] | [_,_,_] | [_,_,_,_] =>
        cases hs
        simp only [mem_cons,not_mem_nil,or_false] at hp
        simp only [mem_cons,not_mem_nil,or_false,exists_eq_or_imp,exists_eq_left]
        rcases hp with rfl | rfl | rfl | rfl <;> simp only [hf,true_or,or_true]
  · cases hs

lemma anywhere_of_side {sides : List Declaration} {p : Component → Bool}
    (hs : insetSides? tgts d = some sides) (hx : x ∈ sides)
    (hv : x.value.anywhere p) : d.value.anywhere p := by
  obtain ⟨c,hc,hf⟩ := any_eq_true.mp hv
  have hsd := (insetSides?_eq_some hs).2.2.2.2 x hx
  exact any_eq_true.mpr ⟨c,hsd.value c hc,hf⟩

lemma mem_withFallbacks (h : x ∈ withFallbacks tgts block prev d) :
    x = d ∧ d.property.isCustom ∨ x ∈ recolored tgts prev d ∨ ∃ name, d.property = .standard name none ∧
        (x ∈ prefixedCopies tgts block d ∨ x ∈ stickyFallback tgts block d ∨
          ∃ sides, insetSides? tgts d = some sides ∧ x ∈ sides) := by
  cases hp : d.property with
  | custom name =>
    rw [withFallbacks_of_custom tgts block prev hp] at h
    exact .inl ⟨mem_singleton.mp h,rfl⟩
  | standard name vendor =>
    right
    cases vendor with
    | some vendor =>
      rw [withFallbacks_of_vendor tgts block prev hp] at h
      exact .inl h
    | none =>
      rw [withFallbacks_of_unprefixed tgts block prev hp,append_assoc] at h
      rcases mem_append.mp h with h | h
      · exact .inr ⟨name,rfl,.inl h⟩
      · rcases mem_append.mp h with h | h
        · exact .inr ⟨name,rfl,.inr (.inl h)⟩
        · cases hs : insetSides? tgts d <;> rw [hs] at h
          · exact .inl h
          · exact .inr ⟨name,rfl,.inr (.inr ⟨_,rfl,h⟩)⟩

lemma property_of_mem_withFallbacks (h : x ∈ withFallbacks tgts block prev d) :
    x.property = d.property ∨ (∃ name, d.property = .standard name none) ∧
        (x ∈ prefixedCopies tgts block d ∨ ∃ sides, insetSides? tgts d = some sides ∧ x ∈ sides) := by
  rcases mem_withFallbacks h with ⟨rfl,-⟩ | h | ⟨name,hp,h | h | h⟩
  · exact .inl rfl
  · exact .inl (property_of_mem_recolored h)
  · exact .inr ⟨⟨name,hp⟩,.inl h⟩
  · obtain ⟨_,_,_,_,rfl⟩ := mem_stickyFallback.mp h
    exact .inl rfl
  · exact .inr ⟨⟨name,hp⟩,.inr h⟩

lemma subset_withFallbacks (h : d.property = .standard name none) :
    prefixedCopies tgts block d ++ (insetSides? tgts d).getD [] ⊆ withFallbacks tgts block prev d := by
  rw [withFallbacks_of_unprefixed tgts block prev h]
  intro x hx
  rcases mem_append.mp hx with hx | hx
  · exact mem_append_left _ (mem_append_left _ hx)
  · cases hs : insetSides? tgts d with
    | none =>
      rw [hs] at hx; cases hx
    | some sides =>
      rw [hs] at hx
      exact mem_append_right _ hx

lemma groupsFrom_append (pre rest : List Declaration) :
    groupsFrom tgts block prev (pre ++ rest) = groupsFrom tgts block prev pre ++
        groupsFrom tgts block (pre.reverse ++ prev) rest := by
  induction pre generalizing prev with
  | nil => rfl
  | cons d pre ih =>
    rw [cons_append,groupsFrom,ih,groupsFrom,reverse_cons,append_assoc]; rfl

variable {rest : List Declaration} {e : Declaration}

lemma groupsFrom_eq_append {pre post : List (Declaration × List Declaration)} {g : Declaration × List Declaration}
    (h : groupsFrom tgts block prev rest = pre ++ g :: post) :
    ∃ former latter, rest = former ++ g.1 :: latter ∧ pre = groupsFrom tgts block prev former ∧
        g.2 = withFallbacks tgts block (former.reverse ++ prev) g.1 := by
  induction rest generalizing prev pre with
  | nil => exact absurd h (by simp [groupsFrom])
  | cons d rest ih =>
    rw [groupsFrom] at h
    cases pre with
    | nil =>
      obtain ⟨rfl,-⟩ := List.cons.inj h
      exact ⟨[],rest,rfl,rfl,rfl⟩
    | cons first pre =>
      obtain ⟨rfl,hr⟩ := List.cons.inj h
      obtain ⟨former,latter,rfl,rfl,hg⟩ := ih hr
      refine ⟨d :: former,latter,rfl,rfl,?_⟩
      rw [hg,reverse_cons,append_assoc]; rfl

lemma mem_groupsFrom (h : x ∈ (groupsFrom tgts block prev rest).flatMap Prod.snd) :
    ∃ e ∈ rest, ∃ former, x ∈ withFallbacks tgts block former e := by
  induction rest generalizing prev with
  | nil => cases h
  | cons d rest ih =>
    rw [groupsFrom,flatMap_cons] at h
    rcases mem_append.mp h with h | h
    · exact ⟨d,mem_cons_self,prev,h⟩
    · obtain ⟨e,he,hx⟩ := ih h
      exact ⟨e,mem_cons_of_mem d he,hx⟩

variable (tgts block prev) in
lemma subset_groupsFrom (he : e ∈ rest) : ∃ former, withFallbacks tgts block former e ⊆
      (groupsFrom tgts block prev rest).flatMap Prod.snd := by
  induction rest generalizing prev with
  | nil => cases he
  | cons d rest ih =>
    rw [groupsFrom,flatMap_cons]
    rcases mem_cons.mp he with rfl | he
    · exact ⟨prev,subset_append_left _ _⟩
    · obtain ⟨former,hs⟩ := ih (d :: prev) he
      exact ⟨former,List.Subset.trans hs (subset_append_right _ _)⟩

/-- No declaration of a standard property among what declarations become has a hash with an alpha that
the targets do not support, and each one with a perceptual colour that they do not support has one of
the same property in front of it, but for those that the shorthand of the offsets becomes. -/
structure LowersColors (tgts : Targets) (groups : List (Declaration × List Declaration)) :
    Prop where
  alpha : ∀ g ∈ groups, ∀ x ∈ g.2, x.property.isCustom = false → hasHashAlpha tgts x.value = false
  perceptual : ∀ before g after, groups = before ++ g :: after →
    g.1.property ≠ .standard "inset" none → ∀ former x latter, g.2 = former ++ x :: latter →
      x.property.isCustom = false → needsColor tgts x.value = true →
        ∃ y ∈ before.flatMap Prod.snd ++ former, y.property = x.property

/-- A hash with an alpha is in nothing that is copied under a prefix or becomes longhands, and a
perceptual colour is in nothing that is copied, unless its property is declared before. -/
structure CopiesNoColors (tgts : Targets) (block : List Declaration) : Prop where
  alpha : ∀ d ∈ block, d.property.isCustom = false → d.property.vendor = none →
    hasHashAlpha tgts d.value = true →
      prefixedCopies tgts block d = [] ∧ insetSides? tgts d = none
  perceptual : ∀ former d latter, block = former ++ d :: latter → d.property.isCustom = false →
    d.property.vendor = none → needsColor tgts d.value = true →
      prefixedCopies tgts block d = [] ∨ ∃ e ∈ former, e.property = d.property

lemma exists_unprefixed (hc : d.property.isCustom = false)
    (hv : d.property.vendor = none) : ∃ name, d.property = .standard name none := by
  obtain ⟨name,vendor,hp⟩ := Property.exists_standard hc
  rw [hp] at hv; cases hv
  exact ⟨name,hp⟩

lemma alpha_of_copiesNoColors (h : CopiesNoColors tgts block) (hd : d ∈ block)
    (hx : x ∈ withFallbacks tgts block prev d) (hcs : x.property.isCustom = false) :
    hasHashAlpha tgts x.value = false := by
  rcases mem_withFallbacks hx with ⟨rfl,hc⟩ | hx | ⟨name,hp,hx⟩
  · rw [hc] at hcs; cases hcs
  · exact hasHashAlpha_of_mem_recolored hx
  · have hn := h.alpha d hd (by rw [hp]; rfl) (by rw [hp]; rfl)
    rw [Bool.eq_false_iff]
    intro hh
    rcases hx with hx | hx | ⟨sides,hs,hx⟩
    · obtain ⟨_,_,vendor,_,_,hc⟩ := mem_prefixedCopies.mp hx
      rw [hc] at hh
      rw [(hn hh).1] at hx; cases hx
    · obtain ⟨_,_,_,_,hc⟩ := mem_stickyFallback.mp hx
      rw [hc] at hh; cases hh
    · rw [(hn (anywhere_of_side hs hx hh)).2] at hs; cases hs

lemma copiesNoColors_alpha (h : LowersColors tgts (groups tgts block)) (hd : d ∈ block)
    (hp : d.property = .standard name none) (hh : hasHashAlpha tgts d.value) :
    prefixedCopies tgts block d = [] ∧ insetSides? tgts d = none := by
  obtain ⟨former,latter,rfl⟩ := append_of_mem hd
  have hn : ∀ x ∈ prefixedCopies tgts (former ++ d :: latter) d ++ (insetSides? tgts d).getD [],
      x.property.isCustom = false → hasHashAlpha tgts x.value = false := by
    intro x hx
    refine h.alpha (d,withFallbacks tgts (former ++ d :: latter) former.reverse d) ?_ x (subset_withFallbacks hp hx)
    rw [groups,groupsFrom_append,append_nil]
    exact mem_append_right _ mem_cons_self
  constructor
  · rw [eq_nil_iff_forall_not_mem]
    intro x hx
    have hf := hn x (mem_append_left _ hx)
    obtain ⟨_,_,vendor,_,_,rfl⟩ := mem_prefixedCopies.mp hx
    rw [hp] at hf
    rw [hf rfl] at hh; cases hh
  · cases hs : insetSides? tgts d with
    | none => rfl
    | some sides =>
      obtain ⟨x,hx,hc⟩ := exists_side_of_anywhere hs hh
      obtain ⟨side,_,hsd⟩ := ((insetSides?_eq_some hs).2.2.2.2 x hx).property
      have hf := hn x (mem_append_right _ (by rw [hs]; exact hx)) (by rw [hsd]; rfl)
      rw [hasHashAlpha,hc] at hf; cases hf

lemma exists_copy (hx : x ∈ prefixedCopies tgts block d) (hp : e.property = d.property) :
    ∃ y ∈ prefixedCopies tgts block e, y.property = x.property := by
  obtain ⟨thing,ht,vendor,hn,hw,rfl⟩ := mem_prefixedCopies.mp hx
  rw [← hp] at ht hw
  refine ⟨_,mem_prefixedCopies.mpr ⟨thing,ht,vendor,hn,hw,rfl⟩,?_⟩
  rw [hp]

variable {former : List Declaration}

lemma property_of_copy {y : Declaration} (hp : d.property = .standard name none)
    (hx : x ∈ prefixedCopies tgts block d) (he : e ∈ block)
    (hy : y ∈ withFallbacks tgts block former e) (hxy : y.property = x.property) :
    e.property = d.property := by
  obtain ⟨_,_,vendor,_,hw,rfl⟩ := mem_prefixedCopies.mp hx
  have hxy : y.property = .standard name (some vendor) := by
    rw [hxy,hp]; rfl
  rcases property_of_mem_withFallbacks hy with hs | ⟨⟨other,ho⟩,hc | ⟨sides,hsd,hsi⟩⟩
  · -- A declaration under the prefix would have been found in the block.
    rw [hxy] at hs
    refine absurd ?_ (hw e he ?_)
    · rw [← hs]; rfl
    · rw [← hs,hp]; rfl
  · obtain ⟨_,_,vendor',_,_,rfl⟩ := mem_prefixedCopies.mp hc
    rw [ho] at hxy; cases hxy
    rw [ho,hp]
  · obtain ⟨side,_,hl⟩ := ((insetSides?_eq_some hsd).2.2.2.2 y hsi).property
    rw [hl] at hxy; cases hxy

variable {latter : List Declaration}

lemma copiesNoColors_perceptual (h : LowersColors tgts (groups tgts block))
    (hb : block = former ++ d :: latter) (hp : d.property = .standard name none)
    (hn : needsColor tgts d.value) :
    prefixedCopies tgts block d = [] ∨ ∃ e ∈ former, e.property = d.property := by
  cases hc : prefixedCopies tgts block d with
  | nil => exact .inl rfl
  | cons x copies =>
    right
    have hx : x ∈ prefixedCopies tgts block d := by simp [hc]
    obtain ⟨thing,ht,vendor,_,_,hcp⟩ := mem_prefixedCopies.mp hx
    have hnm : d.property ≠ .standard "inset" none := by
      intro hi
      have hnn : Prefixable.ofProperty? "inset" = none := by decide
      rw [hi,Property.name,hnn] at ht; cases ht
    have hg : groups tgts block = groupsFrom tgts block [] former ++ (d,withFallbacks tgts block former.reverse d) ::
          groupsFrom tgts block (d :: former.reverse) latter := by
      conv_lhs => rw [groups,hb,groupsFrom_append,append_nil,← hb]
      rfl
    have hgr : withFallbacks tgts block former.reverse d = [] ++ x :: (copies ++ stickyFallback tgts block d ++
          (insetSides? tgts d).getD (recolored tgts former.reverse d)) := by
      rw [withFallbacks_of_unprefixed tgts block former.reverse hp,hc]
      simp
    obtain ⟨y,hy,hxy⟩ := h.perceptual _ _ _ hg hnm [] x _ hgr (by rw [hcp,hp]; rfl) (by rw [hcp]; exact hn)
    rw [append_nil] at hy
    obtain ⟨e,he,_,hye⟩ := mem_groupsFrom hy
    have heb : e ∈ block := by
      rw [hb]
      exact mem_append_left _ he
    exact ⟨e,he,property_of_copy hp hx heb hye hxy⟩

lemma preceded_of_recolored (h : recolored tgts prev d = former ++ x :: latter) (hn : needsColor tgts x.value) :
    (∃ y ∈ former, y.property = x.property) ∨ ∃ e ∈ prev, e.property = d.property := by
  by_cases hnl : colorFallback tgts prev { d with value := lowerAlpha tgts d.value } = []
  · right
    rw [recolored,hnl,nil_append] at h
    have hx : x ∈ former ++ x :: latter := by simp
    rw [← h] at hx
    rw [mem_singleton.mp hx] at hn
    obtain ⟨e,he,heq⟩ := colorFallback_eq_nil_iff.mp hnl hn
    exact ⟨e,he,heq⟩
  · left
    have hf : colorFallback tgts prev { d with value := lowerAlpha tgts d.value } =
        [{ d with value := srgbValue tgts (lowerAlpha tgts d.value) }] := by
      unfold colorFallback at hnl ⊢
      split
      · rfl
      · rename_i hnt
        exact absurd (if_neg hnt) hnl
    rw [recolored,hf,singleton_append] at h
    cases former with
    | nil =>
      obtain ⟨rfl,-⟩ := List.cons.inj h
      rw [needsColor_srgbValue] at hn; cases hn
    | cons y former =>
      obtain ⟨rfl,hr⟩ := List.cons.inj h
      have hx : x ∈ former.append (x :: latter) := mem_append_right former mem_cons_self
      rw [← hr] at hx
      exact ⟨_,mem_cons_self,by rw [mem_singleton.mp hx]⟩

lemma exists_mem_withFallbacks (hp : d.property ≠ .standard "inset" none) :
    ∃ y ∈ withFallbacks tgts block prev d, y.property = d.property := by
  have hr : { d with value := lowerAlpha tgts d.value } ∈ recolored tgts prev d :=
    mem_append_right _ (mem_singleton_self _)
  cases hd : d.property with
  | custom name =>
    rw [withFallbacks_of_custom tgts block prev hd]
    exact ⟨d,mem_singleton_self d,hd⟩
  | standard name vendor =>
    cases vendor with
    | some vendor =>
      rw [withFallbacks_of_vendor tgts block prev hd]
      exact ⟨_,hr,hd⟩
    | none =>
      have hn : d.property.name ≠ "inset" := by
        rw [hd]
        rintro rfl
        exact hp hd
      rw [withFallbacks_of_unprefixed tgts block prev hd,insetSides?_of_name tgts hn]
      exact ⟨_,mem_append_right _ hr,hd⟩

lemma preceded_of_copiesNoColors (h : CopiesNoColors tgts block)
    {pre post : List Declaration} (hb : block = pre ++ d :: post)
    (hnm : d.property ≠ .standard "inset" none)
    (hg : withFallbacks tgts block pre.reverse d = former ++ x :: latter)
    (hc : x.property.isCustom = false) (hn : needsColor tgts x.value) :
    (∃ y ∈ former, y.property = x.property) ∨
      ∃ e ∈ pre, ∀ prev, ∃ y ∈ withFallbacks tgts block prev e, y.property = x.property := by
  -- The group ends with the declaration and its colours.
  have hl (start : List Declaration) (hs : recolored tgts pre.reverse d = start ++ x :: latter) (hsb : start ⊆ former) :
      (∃ y ∈ former, y.property = x.property) ∨ ∃ e ∈ pre, ∀ prev, ∃ y ∈ withFallbacks tgts block prev e,
          y.property = x.property := by
    have hx : x ∈ recolored tgts pre.reverse d := by
      rw [hs]
      exact mem_append_right start mem_cons_self
    rcases preceded_of_recolored hs hn with ⟨y,hy,hxy⟩ | ⟨e,he,heq⟩
    · exact .inl ⟨y,hsb hy,hxy⟩
    · refine .inr ⟨e,mem_reverse.mp he,fun prev => ?_⟩
      rw [property_of_mem_recolored hx,← heq]
      exact exists_mem_withFallbacks (by rw [heq]; exact hnm)
  cases hp : d.property with
  | custom name =>
    have hx : x ∈ former ++ x :: latter := by simp
    rw [← hg,withFallbacks_of_custom tgts block _ hp] at hx
    rw [mem_singleton.mp hx,hp] at hc; cases hc
  | standard name vendor =>
    cases vendor with
    | some vendor =>
      rw [withFallbacks_of_vendor tgts block _ hp] at hg
      exact hl former hg (List.Subset.refl former)
    | none =>
      have hsd : insetSides? tgts d = none := by
        apply insetSides?_of_name tgts
        rw [hp]
        rintro rfl
        exact hnm hp
      rw [withFallbacks_of_unprefixed tgts block _ hp,hsd,Option.getD_none] at hg
      rcases append_eq_append_iff.mp hg with ⟨start,rfl,hs⟩ | ⟨start,hcp,hs⟩
      · exact hl start hs (subset_append_right _ _)
      · cases start with
        | nil => exact hl [] hs.symm (nil_subset _)
        | cons c start =>
          obtain ⟨rfl,-⟩ := List.cons.inj hs
          have hx : x ∈ former ++ x :: start := by simp
          rw [← hcp] at hx
          rcases mem_append.mp hx with hx | hx
          · have hd : needsColor tgts d.value := by
              obtain ⟨_,_,vendor,_,_,hco⟩ := mem_prefixedCopies.mp hx
              rw [hco] at hn
              exact hn
            rcases h.perceptual pre d post hb (by rw [hp]; rfl) (by rw [hp]; rfl) hd with hnl | ⟨e,he,heq⟩
            · rw [hnl] at hx; cases hx
            · obtain ⟨y,hy,hxy⟩ := exists_copy hx heq
              refine .inr ⟨e,he,fun prev => ⟨y,?_,hxy⟩⟩
              exact subset_withFallbacks (heq.trans hp) (mem_append_left _ hy)
          · obtain ⟨_,_,_,_,hst⟩ := mem_stickyFallback.mp hx
            rw [hst] at hn; cases hn

/-- Colours have their fallbacks exactly where nothing with such a colour is copied. -/
theorem lowersColors_groups_iff (targets : Targets) (block : List Declaration) :
    (groups targets block).flatMap Prod.snd = addFallbacks targets block ∧
      (LowersColors targets (groups targets block) ↔ CopiesNoColors targets block) := by
  refine ⟨(map_groups targets block).2, fun h => ⟨?_, ?_⟩, fun h => ⟨?_, ?_⟩⟩
  · intro d hd hcustom hvendor hhash
    obtain ⟨name, hproperty⟩ := exists_unprefixed hcustom hvendor
    exact copiesNoColors_alpha h hd hproperty hhash
  · intro former d latter hblock hcustom hvendor hneeds
    obtain ⟨name, hproperty⟩ := exists_unprefixed hcustom hvendor
    exact copiesNoColors_perceptual h hblock hproperty hneeds
  · intro g hg x hx hcustom
    obtain ⟨before, after, hgroups⟩ := append_of_mem hg
    obtain ⟨former, latter, hblock, -, hgroup⟩ := groupsFrom_eq_append hgroups
    rw [hgroup] at hx
    have hd : g.1 ∈ block := by
      rw [hblock]
      exact mem_append_right former mem_cons_self
    exact alpha_of_copiesNoColors h hd hx hcustom
  · intro before g after hgroups hname former x latter hgroup hcustom hneeds
    obtain ⟨earlier, later, hblock, rfl, hg⟩ := groupsFrom_eq_append hgroups
    rw [hg, append_nil] at hgroup
    rcases preceded_of_copiesNoColors h hblock hname hgroup hcustom hneeds with
      ⟨y, hy, hxy⟩ | ⟨e, he, hall⟩
    · exact ⟨y, mem_append_right _ hy, hxy⟩
    · obtain ⟨former', hsub⟩ := subset_groupsFrom targets block [] he
      obtain ⟨y, hy, hxy⟩ := hall former'
      exact ⟨y, mem_append_left _ (hsub hy), hxy⟩

def gradient (c : Color) : List Declaration :=
  [⟨.standard "mask-image" none,[.function "linear-gradient" [.color c,.comma,.ident "red"]],false,⟨0,0⟩⟩]

/-- For Safari 9 the copy of `mask-image` keeps `#ff000080`, and it keeps a `lab()` with nothing in front
of it. -/
theorem not_lowersColors_gradient : let targets := Targets.none.set .safari (some (.pack 9 0 0))
    ¬LowersColors targets (groups targets (gradient (.rgba ⟨255, 0, 0, 128⟩))) ∧
      ¬LowersColors targets (groups targets (gradient (.perceptual .lab 50 0 0 1))) := by
  refine ⟨fun h => ?_, fun h => ?_⟩
  · have hfalse := h.alpha _ mem_cons_self _ mem_cons_self rfl
    exact absurd hfalse (by decide)
  · obtain ⟨y, hy, -⟩ := h.perceptual [] _ [] rfl (by decide) [] _ _ rfl rfl rfl
    cases hy

end Declaration
end Css
