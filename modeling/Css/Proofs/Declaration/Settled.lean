import Css.Proofs.Value.Recolor

/-!
# Declarations that need no fallback

A block is settled, if no declaration of it gets a fallback or is changed.
-/
namespace Css
open List Component.anywhere Component.recolor Component

/-! ## Colours -/

namespace Color
variable (tgts : Targets)

def isUnsupported (c : Color) : Bool := c.isPerceptual && c.feature?.any fun feature => !feature.isCompatible tgts

def isLowered : Color → Bool
  | rgba c => !(Feature.hexAlphaColors.isCompatible tgts || c.isSolid)
  | _ => false

lemma lowerAlpha_eq_self (c : Color) (h : isLowered tgts c = false) : lowerAlpha tgts c = c := by
  cases c with
  | rgba c => exact if_pos ((Bool.not_eq_false' _).mp h)
  | legacyRgba c => rfl
  | perceptual space x y z alpha => rfl

lemma lowerAlpha_cases (c : Color) : lowerAlpha tgts c = c ∨ ∃ x, c = rgba x ∧ lowerAlpha tgts c = legacyRgba x := by
  cases c with
  | rgba c =>
    by_cases h : (Feature.hexAlphaColors.isCompatible tgts || c.isSolid)
    · exact .inl (if_pos h)
    · exact .inr ⟨c,rfl,if_neg h⟩
  | legacyRgba c => exact .inl rfl
  | perceptual space x y z alpha => exact .inl rfl

lemma lowerAlpha_idem (c : Color) : lowerAlpha tgts (lowerAlpha tgts c) = lowerAlpha tgts c := by
  rcases lowerAlpha_cases tgts c with h | ⟨x,rfl,h⟩
  · rw [h,h]
  · rw [h]; rfl

lemma lowerAlpha_toRgba (c : Rgba) : lowerAlpha tgts (if c.isSolid || Feature.hexAlphaColors.isCompatible tgts then rgba c
      else legacyRgba c) =
      if c.isSolid || Feature.hexAlphaColors.isCompatible tgts then rgba c else legacyRgba c := by
  split
  · rename_i h
    rw [Bool.or_comm] at h
    exact if_pos h
  · rfl

lemma lowerAlpha_toSrgb (c : Color) : lowerAlpha tgts (toSrgb tgts (lowerAlpha tgts c)) =
      toSrgb tgts (lowerAlpha tgts c) := by
  by_cases h : (lowerAlpha tgts c).isPerceptual
  · rw [toSrgb,if_pos h]
    exact lowerAlpha_toRgba tgts _
  · rw [toSrgb,if_neg h,lowerAlpha_idem]

lemma isUnsupported_lowerAlpha (c : Color) : isUnsupported tgts (lowerAlpha tgts c) = isUnsupported tgts c := by
  rcases lowerAlpha_cases tgts c with h | ⟨x,rfl,h⟩
  · rw [h]
  · rw [h]; rfl

lemma isUnsupported_toSrgb (c : Color) : isUnsupported tgts (toSrgb tgts c) = false := by
  unfold toSrgb
  split
  · split <;> rfl
  · rename_i h
    rw [isUnsupported,Bool.eq_false_iff.mpr h,Bool.false_and]

end Color

namespace Declaration
variable (tgts : Targets)

lemma isUnsupportedColor_eq : isUnsupportedColor tgts = isColor (Color.isUnsupported tgts) := by
  funext c
  cases c <;> rfl

abbrev needsColor (value : Value) : Bool := value.anywhere (isUnsupportedColor tgts)

lemma needsColor_eq (value : Value) : needsColor tgts value = anywhereIn (isColor (Color.isUnsupported tgts)) value := by
  rw [needsColor,Value.anywhere_eq,isUnsupportedColor_eq]

lemma lowerAlpha_lowerAlpha (value : Value) : lowerAlpha tgts (lowerAlpha tgts value) = lowerAlpha tgts value := by
  rw [lowerAlpha_eq,lowerAlpha_eq,recolorAll_recolorAll]
  exact congrArg (recolorAll · value) (funext (Color.lowerAlpha_idem tgts))

lemma lowerAlpha_srgbValue (value : Value) : lowerAlpha tgts (srgbValue tgts (lowerAlpha tgts value)) =
      srgbValue tgts (lowerAlpha tgts value) := by
  simp only [lowerAlpha_eq,srgbValue_eq,recolorAll_recolorAll]
  exact congrArg (recolorAll · value) (funext (Color.lowerAlpha_toSrgb tgts))

lemma needsColor_lowerAlpha (value : Value) : needsColor tgts (lowerAlpha tgts value) = needsColor tgts value := by
  rw [needsColor_eq,needsColor_eq,lowerAlpha_eq,anywhereIn_recolorAll]
  exact congrArg (fun p => anywhereIn (isColor p) value) (funext (Color.isUnsupported_lowerAlpha tgts))

lemma needsColor_srgbValue (value : Value) : needsColor tgts (srgbValue tgts value) = false := by
  rw [needsColor_eq,srgbValue_eq,anywhereIn_recolorAll]
  apply anywhereIn_never
  intro c
  cases c with
  | color c => exact Color.isUnsupported_toSrgb tgts c
  | _ => rfl

/-! ## Shapes of values -/

structure KeepsShape (f : Component → Component) : Prop where
  blank : ∀ c, (f c).isWhitespace = c.isWhitespace
  comma : ∀ c, (f c).isComma = c.isComma

variable {tgts} in
lemma insetSides?_eq_none_iff {d : Declaration} : insetSides? tgts d = none ↔
      ((d.property.name == "inset" && !Feature.insetShorthand.isCompatible tgts && !d.value.hasVariable) →
        ∀ ps, d.value.parts? = some ps → ps.length = 0 ∨ 4 < ps.length) := by
  unfold insetSides?
  split
  · rename_i hi
    simp only [hi,true_implies]
    cases d.value.parts? with
    | none => simp
    | some ps =>
      match ps with
      | [] | [_] | [_,_] | [_,_,_] | [_,_,_,_] | _ :: _ :: _ :: _ :: _ :: _ => simp
  · rename_i hi
    simp [hi]

variable {tgts} in
lemma insetSides?_map {f : Component → Component} (hf : KeepsShape f) {d : Declaration}
    (hv : Value.hasVariable (d.value.map f) = d.value.hasVariable)
    (h : insetSides? tgts d = none) :
    insetSides? tgts { d with value := d.value.map f } = none := by
  rw [insetSides?_eq_none_iff] at h ⊢
  simp only [hv]
  intro hi ps hp
  rw [Value.parts?_map hf.blank hf.comma,Option.map_eq_some_iff] at hp
  obtain ⟨pre,hb,rfl⟩ := hp
  rw [length_map]
  exact h hi pre hb

lemma keepsShape_recolor (f : Color → Color) : KeepsShape (recolor f) where
  blank c := by cases c <;> rfl
  comma c := by cases c <;> rfl

variable {tgts} in
lemma insetSides?_recolorAll {d : Declaration} (f : Color → Color) (h : insetSides? tgts d = none) :
    insetSides? tgts { d with value := recolorAll f d.value } = none := by
  have hv := Value.hasVariable_recolorAll f d.value
  rw [recolorAll_eq_map] at hv ⊢
  exact insetSides?_map (keepsShape_recolor f) hv h

lemma isKeyword_recolorAll (f : Color → Color) (keyword : String) (d : Declaration) :
    isKeyword keyword { d with value := recolorAll f d.value } = d.isKeyword keyword := by
  unfold isKeyword
  match d.value with
  | [] => rfl
  | [c] => cases c <;> rfl
  | _ :: _ :: _ => rfl

/-! ## Settled blocks -/

/-- A declaration with its colours as the targets understand them, after the declarations
`earlier`. -/
def recolored (prev : List Declaration) (d : Declaration) : List Declaration :=
  let lowered := { d with value := lowerAlpha tgts d.value }
  colorFallback tgts prev lowered ++ [lowered]

section
variable (block prev : List Declaration) {d : Declaration} {name : String}

lemma withFallbacks_of_custom (h : d.property = .custom name) : withFallbacks tgts block prev d = [d] := by
  obtain ⟨property,value,important,loc⟩ := d
  cases h
  rfl

lemma withFallbacks_of_vendor {vendor : Vendor} (h : d.property = .standard name (some vendor)) :
    withFallbacks tgts block prev d = recolored tgts prev d := by
  obtain ⟨property,value,important,loc⟩ := d
  cases h
  rfl

lemma withFallbacks_of_unprefixed (h : d.property = .standard name none) : withFallbacks tgts block prev d =
      prefixedCopies tgts block d ++ stickyFallback tgts block d ++
        (insetSides? tgts d).getD (recolored tgts prev d) := by
  obtain ⟨property,value,important,loc⟩ := d
  cases h
  unfold withFallbacks
  dsimp only
  cases insetSides? tgts ⟨.standard name none,value,important,loc⟩ <;> rfl

end

/-- A declaration of a standard property needs no fallback in a block, after the declarations
`earlier`. -/
structure Stands (block prev : List Declaration) (d : Declaration) : Prop where
  alpha : lowerAlpha tgts d.value = d.value
  color : needsColor tgts d.value = true → ∃ e ∈ prev, e.property = d.property
  unprefixed : d.property.vendor = none →
    prefixedCopies tgts block d = [] ∧ stickyFallback tgts block d = [] ∧
      insetSides? tgts d = none

def IsSettled (block prev : List Declaration) (d : Declaration) : Prop :=
  d.property.isCustom = false → Stands tgts block prev d

def SettledFrom (block prev : List Declaration) : List Declaration → Prop
  | [] => True
  | d :: rest => IsSettled tgts block prev d ∧ SettledFrom block (d :: prev) rest

def Settled (block : List Declaration) : Prop := SettledFrom tgts block [] block

variable {tgts} {block prev : List Declaration} {d : Declaration}

lemma colorFallback_eq_nil_iff : colorFallback tgts prev d = [] ↔
      (needsColor tgts d.value → ∃ e ∈ prev, e.property = d.property) := by
  unfold colorFallback
  split
  · rename_i h
    rw [Bool.and_eq_true,Bool.not_eq_true',any_eq_false] at h
    refine ⟨nofun,fun her => ?_⟩
    obtain ⟨e,he,heq⟩ := her h.1
    exact absurd (beq_iff_eq.mpr heq) (h.2 e he)
  · rename_i h
    refine ⟨fun _ hn => ?_,fun _ => rfl⟩
    rw [Bool.and_eq_true,not_and,Bool.not_eq_true',Bool.not_eq_false,any_eq_true] at h
    obtain ⟨e,he,heq⟩ := h hn
    exact ⟨e,he,beq_iff_eq.mp heq⟩

variable (tgts prev d) in
lemma colorFallback_cases : colorFallback tgts prev d = [] ∨
    colorFallback tgts prev d = [{ d with value := srgbValue tgts d.value }] := by
  unfold colorFallback
  split
  · exact .inr rfl
  · exact .inl rfl

lemma recolored_eq_singleton_iff : recolored tgts prev d = [d] ↔ lowerAlpha tgts d.value = d.value ∧
      (needsColor tgts d.value → ∃ e ∈ prev, e.property = d.property) := by
  constructor
  · intro h
    have hn : colorFallback tgts prev { d with value := lowerAlpha tgts d.value } = [] := by
      rw [← length_eq_zero_iff]
      have hl := congrArg List.length h
      rw [recolored,length_append] at hl
      simpa using hl
    rw [recolored,hn,nil_append] at h
    have hv : lowerAlpha tgts d.value = d.value := congrArg value (List.cons.inj h).1
    rw [hv] at hn
    exact ⟨hv,colorFallback_eq_nil_iff.mp hn⟩
  · rintro ⟨hv,hc⟩
    rw [recolored,hv]
    exact congrArg (· ++ [d]) (colorFallback_eq_nil_iff.mpr hc)

lemma withFallbacks_of_isSettled (h : IsSettled tgts block prev d) : withFallbacks tgts block prev d = [d] := by
  unfold withFallbacks
  split
  · rfl
  · rename_i hp
    have hs := h (by rw [hp]; rfl)
    exact recolored_eq_singleton_iff.mpr ⟨hs.alpha,hs.color⟩
  · rename_i hp
    have hs := h (by rw [hp]; rfl)
    obtain ⟨hc,hst,hsd⟩ := hs.unprefixed (by rw [hp]; rfl)
    rw [hc,hst,hsd]
    exact recolored_eq_singleton_iff.mpr ⟨hs.alpha,hs.color⟩

lemma addFallbacksFrom_of_settledFrom {rest : List Declaration} (h : SettledFrom tgts block prev rest) :
    addFallbacksFrom tgts block prev rest = rest := by
  induction rest generalizing prev with
  | nil => rfl
  | cons d rest ih => rw [addFallbacksFrom,withFallbacks_of_isSettled h.1,ih h.2]; rfl

lemma addFallbacks_of_settled (h : Settled tgts block) : addFallbacks tgts block = block :=
  addFallbacksFrom_of_settledFrom h

/-! ## Blocks with fallbacks -/

/-- Whether nothing is done about the colours of a declaration after the declarations `earlier`. -/
def keepsColors (tgts : Targets) (prev : List Declaration) (d : Declaration) : Bool :=
  !d.value.anywhere (Component.isColor (Color.isLowered tgts)) &&
    (!needsColor tgts d.value || prev.any fun other => other.property == d.property)

lemma of_keepsColors (h : d.keepsColors tgts prev) : lowerAlpha tgts d.value = d.value ∧
      (needsColor tgts d.value → ∃ e ∈ prev, e.property = d.property) := by
  rw [keepsColors,Bool.and_eq_true,Bool.not_eq_true',Value.anywhere_eq] at h
  obtain ⟨ha,hc⟩ := h
  constructor
  · rw [lowerAlpha_eq]
    exact recolorAll_eq_self (Color.lowerAlpha_eq_self tgts) _ ha
  · intro hn
    rw [hn,Bool.not_true,Bool.false_or,any_eq_true] at hc
    obtain ⟨e,he,heq⟩ := hc
    exact ⟨e,he,beq_iff_eq.mp heq⟩

/-- Of what a declaration becomes nothing gets a fallback in turn: if it gets copies under a prefix, or
is the shorthand of the offsets where that is not supported, nothing is done about its colours. -/
structure Separate (tgts : Targets) (block prev : List Declaration) (d : Declaration) :
    Prop where
  copies : prefixedCopies tgts block d = [] ∨ d.keepsColors tgts prev = true
  inset : d.property.name = "inset" → Feature.insetShorthand.isCompatible tgts = false →
    d.keepsColors tgts [] = true

instance (tgts : Targets) (block prev : List Declaration) (d : Declaration) : Decidable (Separate tgts block prev d) :=
  decidable_of_iff (_ ∧ _) ⟨fun h => ⟨h.1,h.2⟩,fun h => ⟨h.copies,h.inset⟩⟩

/-- The declarations of the rest of a block are so, those of unprefixed standard properties. -/
def SeparateFrom (tgts : Targets) (block prev : List Declaration) : List Declaration → Prop
  | [] => True
  | d :: rest =>
    (d.property.isCustom = false → d.property.vendor = none → Separate tgts block prev d) ∧
      SeparateFrom tgts block (d :: prev) rest

def AreSeparate (tgts : Targets) (block : List Declaration) : Prop := SeparateFrom tgts block [] block

instance decidableSeparateFrom (tgts : Targets) (block prev : List Declaration) :
    (rest : List Declaration) → Decidable (SeparateFrom tgts block prev rest)
  | [] => isTrue trivial
  | d :: rest =>
    have := decidableSeparateFrom tgts block (d :: prev) rest
    inferInstanceAs (Decidable (_ ∧ _))

instance (tgts : Targets) (block : List Declaration) : Decidable (AreSeparate tgts block) :=
  decidableSeparateFrom tgts block [] block

section

lemma IsSettled.mono {earlier' : List Declaration} (hs : prev ⊆ earlier')
    (h : IsSettled tgts block prev d) : IsSettled tgts block earlier' d := by
  intro hcustom
  obtain ⟨ha,hc,hu⟩ := h hcustom
  refine ⟨ha,fun hn => ?_,hu⟩
  obtain ⟨e,he,heq⟩ := hc hn
  exact ⟨e,hs he,heq⟩

lemma settledFrom_append {xs ys : List Declaration} : SettledFrom tgts block prev (xs ++ ys) ↔
      SettledFrom tgts block prev xs ∧ SettledFrom tgts block (xs.reverse ++ prev) ys := by
  induction xs generalizing prev with
  | nil => simp [SettledFrom]
  | cons x xs ih => simp [SettledFrom,ih,and_assoc]

lemma settledFrom_of_forall {xs : List Declaration}
    (h : ∀ x ∈ xs, IsSettled tgts block prev x) : SettledFrom tgts block prev xs := by
  induction xs generalizing prev with
  | nil => trivial
  | cons x xs ih =>
    refine ⟨h x mem_cons_self,ih fun y hy => ?_⟩
    exact (h y (mem_cons_of_mem x hy)).mono (subset_cons_self x prev)

lemma lowered_mem_withFallbacks (hcustom : d.property.isCustom = false)
    (hs : d.property.vendor = none → insetSides? tgts d = none) :
    { d with value := lowerAlpha tgts d.value } ∈ withFallbacks tgts block prev d := by
  unfold withFallbacks
  split
  · rename_i hp
    rw [hp] at hcustom; cases hcustom
  · simp
  · rename_i hp
    rw [hs (by rw [hp]; rfl)]
    simp

lemma mem_withFallbacks_of_isCustom (h : d.property.isCustom) : d ∈ withFallbacks tgts block prev d := by
  unfold withFallbacks
  split
  · exact mem_cons_self
  all_goals
    rename_i hp
    rw [hp] at h; cases h

lemma copies_subset_withFallbacks (hcustom : d.property.isCustom = false) (hv : d.property.vendor = none) :
    prefixedCopies tgts block d ++ stickyFallback tgts block d ⊆ withFallbacks tgts block prev d := by
  unfold withFallbacks
  split
  · rename_i hp
    rw [hp] at hcustom; cases hcustom
  · rename_i hp
    rw [hp] at hv; cases hv
  · exact subset_append_left _ _

lemma withFallbacks_subset_from {rest : List Declaration} (h : d ∈ rest) :
    ∃ pre, withFallbacks tgts block pre d ⊆ addFallbacksFrom tgts block prev rest := by
  induction rest generalizing prev with
  | nil => cases h
  | cons e rest ih =>
    rw [addFallbacksFrom]
    rcases mem_cons.mp h with rfl | h
    · exact ⟨prev,subset_append_left _ _⟩
    · obtain ⟨pre,hb⟩ := ih h
      exact ⟨pre,List.Subset.trans hb (subset_append_right _ _)⟩

variable (tgts) in
lemma withFallbacks_subset (h : d ∈ block) : ∃ pre, withFallbacks tgts block pre d ⊆ addFallbacks tgts block :=
  withFallbacks_subset_from h

variable (tgts) in
lemma vendor_mem_addFallbacks {other : Declaration} {vendor : Vendor} (h : other ∈ block)
    (hv : other.property.vendor = some vendor) :
    ∃ x ∈ addFallbacks tgts block, x.property = other.property := by
  obtain ⟨pre,hs⟩ := withFallbacks_subset tgts h
  refine ⟨_,hs (lowered_mem_withFallbacks ?_ ?_),rfl⟩
  · cases hp : other.property with
    | standard name vendor => rfl
    | custom name =>
      rw [hp] at hv; cases hv
  · intro hn
    rw [hn] at hv; cases hv

lemma prefixedCopies_eq_nil_iff : prefixedCopies tgts block d = [] ↔
      ∀ thing, Prefixable.ofProperty? d.property.name = some thing → ∀ vendor ∈ thing.vendorsFor tgts, ∃ other ∈ block,
          other.property.name = d.property.name ∧ other.property.vendor = some vendor := by
  unfold prefixedCopies
  cases Prefixable.ofProperty? d.property.name with
  | none => simp
  | some thing => simp [filter_eq_nil_iff]

variable {x : Declaration}

lemma mem_prefixedCopies : x ∈ prefixedCopies tgts block d ↔
      ∃ thing, Prefixable.ofProperty? d.property.name = some thing ∧ ∃ vendor ∈ thing.vendorsFor tgts, (∀ other ∈ block,
          other.property.name = d.property.name → other.property.vendor ≠ some vendor) ∧
            x = { d with property := d.property.withVendor (some vendor) } := by
  unfold prefixedCopies
  cases Prefixable.ofProperty? d.property.name with
  | none => simp
  | some thing =>
    simp only [mem_map,mem_filter,Bool.not_eq_true',any_eq_false,
      Bool.and_eq_true,beq_iff_eq,not_and,Option.some.injEq,exists_eq_left',and_assoc,ne_eq]
    simp only [eq_comm (b := x)]

lemma prefixedCopies_addFallbacks (h : d ∈ block) (hcustom : d.property.isCustom = false)
    (hv : d.property.vendor = none) (hx : x.property = d.property) :
    prefixedCopies tgts (addFallbacks tgts block) x = [] := by
  rw [prefixedCopies_eq_nil_iff,hx]
  intro thing ht vendor hnd
  by_cases hw : ∃ other ∈ block, other.property.name = d.property.name ∧ other.property.vendor = some vendor
  · obtain ⟨other,ho,hn,hot⟩ := hw
    obtain ⟨y,hy,hp⟩ := vendor_mem_addFallbacks tgts ho hot
    exact ⟨y,hy,by rw [hp,hn],by rw [hp,hot]⟩
  · have hc := mem_prefixedCopies.mpr ⟨thing,ht,vendor,hnd,fun other ho hn heq => hw ⟨other,ho,hn,heq⟩,rfl⟩
    obtain ⟨pre,hs⟩ := withFallbacks_subset tgts h
    refine ⟨_,hs (copies_subset_withFallbacks hcustom hv (mem_append_left _ hc)),?_⟩
    obtain ⟨name,vendor,hp⟩ := Property.exists_standard hcustom
    rw [hp]
    exact ⟨rfl,rfl⟩

variable (tgts) in
lemma insetSides?_of_name (h : d.property.name ≠ "inset") : insetSides? tgts d = none := by
  rw [insetSides?_eq_none_iff]
  simp [h]

lemma isKeyword_lowered (keyword : String) :
    isKeyword keyword { d with value := lowerAlpha tgts d.value } = d.isKeyword keyword := by
  rw [lowerAlpha_eq]
  exact isKeyword_recolorAll _ keyword d

def HasSticky (block : List Declaration) : Prop :=
  ∃ other ∈ block, other.property.name = "position" ∧ other.isKeyword "-webkit-sticky" = true

lemma mem_stickyFallback : x ∈ stickyFallback tgts block d ↔ d.property.name = "position" ∧ d.isKeyword "sticky" ∧
        (Prefixable.sticky.vendorsFor tgts).contains .webkit ∧ ¬HasSticky block ∧
          x = { d with value := [.ident "-webkit-sticky"] } := by
  have hw : (block.any fun other =>
      other.property.name == "position" && other.isKeyword "-webkit-sticky") ↔ HasSticky block := by
    simp [HasSticky]
  unfold stickyFallback
  simp only [← hw]
  split
  · rename_i h
    simp only [Bool.and_eq_true,beq_iff_eq,Bool.not_eq_true'] at h
    obtain ⟨⟨⟨hn,hs⟩,hnd⟩,hnn⟩ := h
    rw [mem_singleton,hnn]
    exact ⟨fun hx => ⟨hn,hs,hnd,Bool.false_ne_true,hx⟩,fun hx => hx.2.2.2.2⟩
  · rename_i h
    simp only [Bool.and_eq_true,beq_iff_eq,Bool.not_eq_true',and_assoc] at h
    simp only [not_mem_nil,false_iff,Bool.not_eq_true]
    rintro ⟨hn,hs,hnd,hnn,_⟩
    exact h ⟨hn,hs,hnd,hnn⟩

lemma hasSticky_addFallbacks (h : HasSticky block) : HasSticky (addFallbacks tgts block) := by
  obtain ⟨other,ho,hn,hk⟩ := h
  obtain ⟨pre,hs⟩ := withFallbacks_subset tgts ho
  cases hcustom : other.property.isCustom with
  | true => exact ⟨other,hs (mem_withFallbacks_of_isCustom hcustom),hn,hk⟩
  | false =>
    refine ⟨_,hs (lowered_mem_withFallbacks hcustom fun _ => ?_),hn,(isKeyword_lowered _).trans hk⟩
    exact insetSides?_of_name tgts (by simp [hn])

lemma stickyFallback_addFallbacks (h : d ∈ block) (hcustom : d.property.isCustom = false)
    (hv : d.property.vendor = none) (hx : x.property = d.property)
    (hk : x.isKeyword "sticky" = d.isKeyword "sticky") :
    stickyFallback tgts (addFallbacks tgts block) x = [] := by
  rw [eq_nil_iff_forall_not_mem]
  intro y hy
  obtain ⟨hn,hs,hnd,hnn,-⟩ := mem_stickyFallback.mp hy
  rw [hx] at hn
  rw [hk] at hs
  refine hnn ?_
  by_cases hw : HasSticky block
  · exact hasSticky_addFallbacks hw
  · have hc := mem_stickyFallback.mpr ⟨hn,hs,hnd,hw,rfl⟩
    obtain ⟨pre,hsb⟩ := withFallbacks_subset tgts h
    exact ⟨_,hsb (copies_subset_withFallbacks hcustom hv (mem_append_right _ hc)),hn,by rfl⟩

/-! ### One declaration -/

def Done (tgts : Targets) (block prev done : List Declaration) : Prop :=
  ∀ e ∈ prev, ∃ before, withFallbacks tgts block before e ⊆ done

section
variable {done : List Declaration} (hd : d ∈ block) (hdone : Done tgts block prev done)
  (hcustom : d.property.isCustom = false)

include hd hcustom in
lemma unprefixed_recolorAll (f : Color → Color) (hs : d.property.vendor = none → insetSides? tgts d = none)
    (hv : d.property.vendor = none) :
    prefixedCopies tgts (addFallbacks tgts block) { d with value := recolorAll f d.value } = [] ∧
      stickyFallback tgts (addFallbacks tgts block) { d with value := recolorAll f d.value } = [] ∧
        insetSides? tgts { d with value := recolorAll f d.value } = none :=
  ⟨prefixedCopies_addFallbacks hd hcustom hv rfl,
    stickyFallback_addFallbacks hd hcustom hv rfl (isKeyword_recolorAll f _ d),
    insetSides?_recolorAll f (hs hv)⟩

include hd hdone hcustom in
lemma settledFrom_recolored (hs : d.property.vendor = none → insetSides? tgts d = none)
    (hi : d.property.vendor = none → d.property.name = "inset" →
      Feature.insetShorthand.isCompatible tgts = false → recolored tgts [] d = [d]) :
    SettledFrom tgts (addFallbacks tgts block) done (recolored tgts prev d) := by
  let lowered : Declaration := { d with value := lowerAlpha tgts d.value }
  have hu (f : Color → Color) := unprefixed_recolorAll hd hcustom f hs
  have hl : lowered.property.vendor = none → prefixedCopies tgts (addFallbacks tgts block) lowered = [] ∧
        stickyFallback tgts (addFallbacks tgts block) lowered = [] ∧ insetSides? tgts lowered = none := by
    simp only [lowered,lowerAlpha_eq]
    exact hu _
  change SettledFrom tgts (addFallbacks tgts block) done (colorFallback tgts prev lowered ++ [lowered])
  rcases colorFallback_cases tgts prev lowered with hnl | hc
  · -- The property was declared before, if there is a colour that is not supported.
    rw [hnl]
    refine ⟨fun _ => ⟨lowerAlpha_lowerAlpha ..,fun hn => ?_,hl⟩,trivial⟩
    obtain ⟨e,he,heq⟩ := colorFallback_eq_nil_iff.mp hnl hn
    obtain ⟨pre,hsb⟩ := hdone e he
    have heq : e.property = d.property := heq
    refine ⟨_,hsb (lowered_mem_withFallbacks (by rw [heq]; exact hcustom) ?_),heq⟩
    intro hv
    cases hsm : insetSides? tgts e with
    | none => rfl
    | some sides =>
      obtain ⟨hnm,hin,-⟩ := insetSides?_eq_some hsm
      rw [heq] at hv hnm
      have hcl := (recolored_eq_singleton_iff.mp (hi hv hnm hin)).2
      obtain ⟨_,hm,-⟩ := hcl (by rw [← needsColor_lowerAlpha]; exact hn)
      cases hm
  · rw [hc]
    refine ⟨fun _ => ⟨lowerAlpha_srgbValue ..,?_,?_⟩,fun _ =>
      ⟨lowerAlpha_lowerAlpha ..,fun _ => ⟨_,mem_cons_self,rfl⟩,hl⟩,trivial⟩
    · intro hn
      rw [needsColor_srgbValue] at hn; cases hn
    · simp only [lowered,srgbValue_eq,lowerAlpha_eq,recolorAll_recolorAll]
      exact hu _

include hdone hcustom in
lemma isSettled_prefixedCopy (hv : d.property.vendor = none)
    (hs : Separate tgts block prev d) (hx : x ∈ prefixedCopies tgts block d) :
    IsSettled tgts (addFallbacks tgts block) done x := by
  have hsm := hs.copies.resolve_left (ne_nil_of_mem hx)
  obtain ⟨ha,hc⟩ := of_keepsColors hsm
  obtain ⟨thing,ht,vendor,hnd,hnt,rfl⟩ := mem_prefixedCopies.mp hx
  refine fun _ => ⟨ha,fun hne => ?_,?_⟩
  · -- The declaration before it has got the same copies.
    obtain ⟨e,he,heq⟩ := hc hne
    obtain ⟨pre,hsb⟩ := hdone e he
    have hcp : { e with property := e.property.withVendor (some vendor) } ∈ prefixedCopies tgts block e := by
      rw [mem_prefixedCopies,heq]
      exact ⟨thing,ht,vendor,hnd,hnt,rfl⟩
    refine ⟨_,hsb (copies_subset_withFallbacks ?_ ?_ (mem_append_left _ hcp)),?_⟩
    · rw [heq]
      exact hcustom
    · rw [heq]
      exact hv
    · simp only [heq]
  · intro hn
    obtain ⟨name,vendor,hp⟩ := Property.exists_standard hcustom
    rw [hp] at hn; cases hn

include hd hcustom in
lemma isSettled_stickyFallback (hv : d.property.vendor = none) (hx : x ∈ stickyFallback tgts block d) :
    IsSettled tgts (addFallbacks tgts block) done x := by
  obtain ⟨hn,-,-,-,rfl⟩ := mem_stickyFallback.mp hx
  refine fun _ => ⟨?_,nofun,fun _ => ⟨?_,?_,?_⟩⟩
  · rw [lowerAlpha_eq]; rfl
  · exact prefixedCopies_addFallbacks hd hcustom hv rfl
  · rw [eq_nil_iff_forall_not_mem]
    intro y hy
    have ho : (Text.lower "-webkit-sticky" == "sticky") = false := by decide
    exact absurd (mem_stickyFallback.mp hy).2.1 (Bool.eq_false_iff.mp ho)
  · apply insetSides?_of_name
    simp [hn]

lemma isSettled_side (hsp : Separate tgts block prev d)
    {sides : List Declaration} (hsd : insetSides? tgts d = some sides) {side : Declaration}
    (hsi : side ∈ sides) : IsSettled tgts (addFallbacks tgts block) done side := by
  obtain ⟨hn,hi,-,-,hal⟩ := insetSides?_eq_some hsd
  obtain ⟨⟨name,hm,hp⟩,hv,-,-⟩ := hal side hsi
  obtain ⟨ha,hcl⟩ := of_keepsColors (hsp.inset hn hi)
  have hnm : ∀ name ∈ sideNames, Prefixable.ofProperty? name = none ∧ name ≠ "position" ∧ name ≠ "inset" := by
    decide
  obtain ⟨ht,hps,hin⟩ := hnm name hm
  refine fun _ => ⟨?_,fun hnd => ?_,fun _ => ⟨?_,?_,?_⟩⟩
  · rw [lowerAlpha_eq,recolorAll_eq_map] at ha ⊢
    have hsm : ∀ c ∈ d.value, _ = id c := map_inj_left.mp (ha.trans (map_id _).symm)
    exact (map_congr_left fun c hc => hsm c (hv c hc)).trans (map_id _)
  · have hnd : needsColor tgts d.value := by
      rw [needsColor,Value.anywhere,any_eq_true] at hnd ⊢
      obtain ⟨c,hc,hf⟩ := hnd
      exact ⟨c,hv c hc,hf⟩
    obtain ⟨_,hnl,-⟩ := hcl hnd
    cases hnl
  · rw [prefixedCopies_eq_nil_iff,hp]
    intro thing hs
    rw [Property.name,ht] at hs; cases hs
  · rw [eq_nil_iff_forall_not_mem]
    intro y hy
    have hn := (mem_stickyFallback.mp hy).1
    rw [hp] at hn
    exact hps hn
  · apply insetSides?_of_name
    rw [hp]
    exact hin

include hd hdone in
lemma settledFrom_withFallbacks
    (hs : d.property.isCustom = false → d.property.vendor = none → Separate tgts block prev d) :
    SettledFrom tgts (addFallbacks tgts block) done (withFallbacks tgts block prev d) := by
  unfold withFallbacks
  split
  · rename_i name hp
    refine ⟨fun hcustom => ?_,trivial⟩
    rw [hp] at hcustom; cases hcustom
  · rename_i name vendor hp
    have hv : d.property.vendor ≠ none := by
      rw [hp]
      exact nofun
    exact settledFrom_recolored hd hdone (by rw [hp]; rfl) (fun h => absurd h hv) fun h => absurd h hv
  · rename_i name hp
    have hcustom : d.property.isCustom = false := by rw [hp]; rfl
    have hv : d.property.vendor = none := by rw [hp]; rfl
    have hs := hs hcustom hv
    rw [settledFrom_append]
    refine ⟨settledFrom_of_forall fun x hx => ?_,?_⟩
    · rcases mem_append.mp hx with hx | hx
      · exact isSettled_prefixedCopy hdone hcustom hv hs hx
      · exact isSettled_stickyFallback hd hcustom hv hx
    · split
      · rename_i sides hsd
        exact settledFrom_of_forall fun side hsi => isSettled_side hs hsd hsi
      · rename_i hsd
        refine settledFrom_recolored hd ?_ hcustom (fun _ => hsd) fun _ hn hnt =>
          recolored_eq_singleton_iff.mpr (of_keepsColors (hs.inset hn hnt))
        intro e he
        obtain ⟨pre,hsb⟩ := hdone e he
        exact ⟨pre,List.Subset.trans hsb (subset_append_right _ _)⟩

end

lemma settledFrom_addFallbacksFrom {rest done : List Declaration} (hr : rest ⊆ block)
    (hdone : Done tgts block prev done) (hs : SeparateFrom tgts block prev rest) :
    SettledFrom tgts (addFallbacks tgts block) done (addFallbacksFrom tgts block prev rest) := by
  induction rest generalizing prev done with
  | nil => trivial
  | cons d rest ih =>
    rw [addFallbacksFrom,settledFrom_append]
    have hd : d ∈ block := hr mem_cons_self
    refine ⟨settledFrom_withFallbacks hd hdone hs.1,?_⟩
    refine ih (fun e he => hr (mem_cons_of_mem d he)) ?_ hs.2
    intro e he
    rcases mem_cons.mp he with rfl | he
    · exact ⟨prev,fun x hx => mem_append_left _ (mem_reverse.mpr hx)⟩
    · obtain ⟨pre,hsb⟩ := hdone e he
      exact ⟨pre,List.Subset.trans hsb (subset_append_right _ _)⟩

lemma settled_addFallbacks (h : AreSeparate tgts block) : Settled tgts (addFallbacks tgts block) :=
  settledFrom_addFallbacksFrom (List.Subset.refl block) nofun h

end

/-! ## Custom properties -/

variable {x : Declaration}

lemma property_of_mem_recolored (h : x ∈ recolored tgts prev d) : x.property = d.property := by
  rcases mem_append.mp h with h | h
  · rcases colorFallback_cases tgts prev { d with value := lowerAlpha tgts d.value } with
      hn | hs
    · rw [hn] at h; cases h
    · rw [hs] at h
      rw [mem_singleton.mp h]
  · rw [mem_singleton.mp h]

lemma isCustom_of_mem_withFallbacks (h : x ∈ withFallbacks tgts block prev d) : x = d ∨ x.property.isCustom = false := by
  unfold withFallbacks at h
  split at h
  · exact .inl (mem_singleton.mp h)
  · rename_i hp
    right
    rw [property_of_mem_recolored h,hp]; rfl
  · rename_i name hp
    right
    rcases mem_append.mp h with h | h
    · rcases mem_append.mp h with h | h
      · obtain ⟨-,-,vendor,-,-,rfl⟩ := mem_prefixedCopies.mp h
        rw [hp]; rfl
      · obtain ⟨-,-,-,-,rfl⟩ := mem_stickyFallback.mp h
        rw [hp]; rfl
    · split at h
      · rename_i sides hs
        obtain ⟨side,-,hsd⟩ := ((insetSides?_eq_some hs).2.2.2.2 x h).property
        rw [hsd]; rfl
      · rw [property_of_mem_recolored h,hp]; rfl

lemma mem_of_mem_addFallbacks (h : x ∈ addFallbacks tgts block) : x ∈ block ∨ x.property.isCustom = false := by
  have hf : ∀ rest prev, x ∈ addFallbacksFrom tgts block prev rest → x ∈ rest ∨ x.property.isCustom = false := by
    intro rest
    induction rest with
    | nil => exact fun _ hx => absurd hx not_mem_nil
    | cons d rest ih =>
      intro prev hx
      rcases mem_append.mp hx with hx | hx
      · exact (isCustom_of_mem_withFallbacks hx).imp_left (mem_cons.mpr ∘ Or.inl)
      · exact (ih _ hx).imp_left (mem_cons_of_mem d)
  exact hf block [] h

end Declaration
end Css
