import Css.Proofs.Cascade.Sides
import Css.Proofs.Declaration.Settled
import Mathlib.Data.List.Forall2

/-!
# Fallbacks in the cascade

Every declaration of a block becomes a group: fallbacks, and then what remains of it.
-/
namespace Css
open List
namespace Declaration

namespace Side

def all : List Side := [top,right,bottom,left]

lemma mem_all (side : Side) : side ∈ all := by cases side <;> simp [all]

def offset (side : Side) : Property := .standard side.name none

end Side

/-- Whether the declaration sets the property. The shorthand of the offsets sets the four offsets. -/
def sets (p : Property) (d : Declaration) : Bool :=
  if d.property = .standard "inset" none then Side.all.any fun side => side.offset == p
  else d.property == p

/-- The values of the four offsets, if the declaration is their shorthand, the targets do not support
it, and its value has from one to four parts and no variable. -/
def offsets? (tgts : Targets) (d : Declaration) : Option (Value × Value × Value × Value) :=
  if d.property = .standard "inset" none && !Feature.insetShorthand.isCompatible tgts && !d.value.hasVariable then
    d.value.parts?.bind fourSides?
  else none

/-- What remains of a declaration: four longhands in place of the shorthand of the offsets, else the
declaration itself, with functions for the hashes with an alpha that the targets do not support. -/
def remains (tgts : Targets) (d : Declaration) : List Declaration := match d.offsets? tgts with
  | some values =>
    Side.all.map fun side => { d with property := side.offset, value := side.pick values }
  | none =>
    [if d.property.isCustom then d
      else { d with value := Component.recolor.recolorAll (Color.lowerAlpha tgts) d.value }]

end Declaration

namespace Cascade
open Declaration

/-- The declaration that decides about a property: the last important one, or else the last one. -/
def winning (p : Property) (ds : List Declaration) : Option Declaration := winner important (ds.filter (sets p))

end Cascade

namespace Declaration
variable {tgts : Targets} {block earlier : List Declaration} {d : Declaration} {p : Property}

lemma offset_ne_inset (side : Side) : side.offset ≠ .standard "inset" none := by
  cases side <;> decide

lemma sets_offset_iff {side : Side} {value : Value} :
    sets p { d with property := side.offset, value } ↔ side.offset = p := by
  unfold sets
  rw [if_neg (offset_ne_inset side)]
  exact beq_iff_eq

lemma property_of_offsets? {vs : Value × Value × Value × Value}
    (h : d.offsets? tgts = some vs) : d.property = .standard "inset" none := by
  unfold offsets? at h
  split at h
  · rename_i hi
    simp only [Bool.and_eq_true,decide_eq_true_eq] at hi
    exact hi.1.1
  · cases h

lemma sets_of_offsets? {vs : Value × Value × Value × Value} (h : d.offsets? tgts = some vs) :
    d.sets p ↔ ∃ side : Side, side.offset = p := by
  unfold sets
  rw [if_pos (property_of_offsets? h),any_eq_true]
  constructor
  · rintro ⟨side,_,hs⟩
    exact ⟨side,beq_iff_eq.mp hs⟩
  · rintro ⟨side,hs⟩
    exact ⟨side,side.mem_all,beq_iff_eq.mpr hs⟩

variable {x : Declaration}

lemma important_of_mem_remains (h : x ∈ d.remains tgts) : x.important = d.important := by
  unfold remains at h
  cases hv : d.offsets? tgts with
  | some vs =>
    rw [hv] at h
    obtain ⟨side,_,rfl⟩ := mem_map.mp h
    rfl
  | none =>
    rw [hv] at h
    rw [mem_singleton.mp h]
    split <;> rfl

lemma filter_remains (tgts : Targets) (p : Property) (d : Declaration) :
    (d.remains tgts).filter (sets p) = [] ∧ d.sets p = false ∨
      ∃ x ∈ d.remains tgts, (d.remains tgts).filter (sets p) = [x] ∧ d.sets p := by
  unfold remains
  cases hv : d.offsets? tgts with
  | some vs =>
    by_cases hs : d.sets p
    · right
      obtain ⟨side,rfl⟩ := (sets_of_offsets? hv).mp hs
      refine ⟨{ d with property := side.offset, value := side.pick vs },mem_map.mpr ⟨side,side.mem_all,rfl⟩,?_,hs⟩
      cases side <;> rfl
    · left
      refine ⟨?_,Bool.eq_false_iff.mpr hs⟩
      rw [filter_eq_nil_iff]
      rintro x hx hst
      obtain ⟨side,_,rfl⟩ := mem_map.mp hx
      exact hs ((sets_of_offsets? hv).mpr ⟨side,sets_offset_iff.mp hst⟩)
  | none =>
    dsimp only
    generalize hx : (if d.property.isCustom then d
      else { d with value := Component.recolor.recolorAll (Color.lowerAlpha tgts) d.value }) = x
    have hsm : x.sets p = d.sets p := by
      rw [← hx]
      split <;> rfl
    by_cases hs : d.sets p
    · right
      exact ⟨x,mem_singleton_self x,by simp [hsm,hs],hs⟩
    · left
      rw [Bool.not_eq_true] at hs
      exact ⟨by simp [hsm,hs],hs⟩

lemma insetSides?_eq_remains {name : String} (h : d.property = .standard name none) :
    insetSides? tgts d = (d.offsets? tgts).map fun _ => d.remains tgts := by
  unfold remains
  unfold insetSides? offsets?
  rw [h]
  by_cases hn : name = "inset"
  · subst hn
    simp only [Property.name,beq_self_eq_true,decide_true]
    split
    · cases d.value.parts? with
      | none => rfl
      | some ps =>
        rcases ps with _ | ⟨_,_ | ⟨_,_ | ⟨_,_ | ⟨_,_ | ⟨_,_⟩⟩⟩⟩⟩ <;> rfl
    · rfl
  · simp [Property.name,hn]

/-- A declaration may be inserted in front of `d`: it is as important, and it is for the same property
or sets nothing that the block sets. -/
structure IsFallback (block : List Declaration) (d x : Declaration) : Prop where
  important : x.important = d.important
  property : x.property = d.property ∨ ∀ p, x.sets p = true → ∀ e ∈ block, e.sets p = false

lemma isFallback_of_mem_prefixedCopies {name : String}
    (hd : d.property = .standard name none) (h : x ∈ prefixedCopies tgts block d) :
    IsFallback block d x := by
  obtain ⟨_,_,vendor,_,hw,rfl⟩ := mem_prefixedCopies.mp h
  refine ⟨rfl,.inr fun p hp e he => ?_⟩
  have hpr : p = .standard name (some vendor) := by
    simp only [sets,hd,Property.withVendor,Property.standard.injEq,reduceCtorEq,and_false,if_false,beq_iff_eq] at hp
    exact hp.symm
  subst hpr
  rw [Bool.eq_false_iff]
  intro hs
  unfold sets at hs
  split at hs
  · obtain ⟨side,_,hsd⟩ := any_eq_true.mp hs
    cases beq_iff_eq.mp hsd
  · refine hw e he ?_ ?_ <;> rw [beq_iff_eq.mp hs]
    · rw [hd]; rfl
    · rfl

lemma isFallback_of_mem_stickyFallback (h : x ∈ stickyFallback tgts block d) : IsFallback block d x := by
  obtain ⟨_,_,_,_,rfl⟩ := mem_stickyFallback.mp h
  exact ⟨rfl,.inl rfl⟩

lemma isFallback_of_mem_colorFallback {value : Value}
    (h : x ∈ colorFallback tgts earlier { d with value }) : IsFallback block d x := by
  unfold colorFallback at h
  split at h
  · rw [mem_singleton.mp h]
    exact ⟨rfl,.inl rfl⟩
  · cases h

lemma remains_of_standard (hn : d.offsets? tgts = none) (hc : d.property.isCustom = false) :
    d.remains tgts = [{ d with value := lowerAlpha tgts d.value }] := by
  rw [remains,hn,lowerAlpha_eq]
  simp [hc]

lemma withFallbacks_eq_append (tgts : Targets) (block prev : List Declaration) (d : Declaration) :
    ∃ inserted, withFallbacks tgts block prev d = inserted ++ d.remains tgts ∧
      ∀ x ∈ inserted, IsFallback block d x := by
  have hn (hne : d.property ≠ .standard "inset" none) : d.offsets? tgts = none := by
    simp [offsets?,hne]
  cases hp : d.property with
  | custom name =>
    refine ⟨[],?_,by simp⟩
    rw [withFallbacks_of_custom tgts block prev hp,remains,hn (by simp [hp])]
    simp [hp,Property.isCustom]
  | standard name vendor =>
    have hc : d.property.isCustom = false := by rw [hp]; rfl
    cases vendor with
    | some vendor =>
      rw [withFallbacks_of_vendor tgts block prev hp,remains_of_standard (hn (by simp [hp])) hc]
      exact ⟨_,rfl,fun x hx => isFallback_of_mem_colorFallback hx⟩
    | none =>
      have hcp : ∀ x ∈ prefixedCopies tgts block d ++ stickyFallback tgts block d, IsFallback block d x := by
        intro x hx
        rcases mem_append.mp hx with hx | hx
        · exact isFallback_of_mem_prefixedCopies hp hx
        · exact isFallback_of_mem_stickyFallback hx
      rw [withFallbacks_of_unprefixed tgts block prev hp,insetSides?_eq_remains hp]
      cases hv : d.offsets? tgts with
      | some vs => exact ⟨_,rfl,hcp⟩
      | none =>
        rw [remains_of_standard hv hc]
        refine ⟨_,(append_assoc _ _ _).symm,fun x hx => ?_⟩
        rcases mem_append.mp hx with hx | hx
        · exact hcp x hx
        · exact isFallback_of_mem_colorFallback hx

lemma exists_groups (tgts : Targets) (block prev rest : List Declaration) :
    ∃ groups : List (List Declaration), addFallbacksFrom tgts block prev rest = groups.flatten ∧ List.Forall₂
          (fun d group => ∃ inserted, group = inserted ++ d.remains tgts ∧ ∀ x ∈ inserted, x.important = d.important)
          rest groups := by
  induction rest generalizing prev with
  | nil => exact ⟨[],rfl,.nil⟩
  | cons d rest ih =>
    obtain ⟨inserted,hg,hi⟩ := withFallbacks_eq_append tgts block prev d
    obtain ⟨groups,hf,hgr⟩ := ih (d :: prev)
    refine ⟨withFallbacks tgts block prev d :: groups,?_,.cons ⟨inserted,hg,fun x hx => (hi x hx).important⟩ hgr⟩
    rw [addFallbacksFrom,hf,flatten_cons]

end Declaration

namespace Cascade
open Declaration
variable {tgts : Targets} {block earlier : List Declaration} {d : Declaration} {p : Property}

def remaining (tgts : Targets) (p : Property) (d : Declaration) : Declaration :=
  ((d.remains tgts).filter (sets p)).headD d

lemma important_remaining (d : Declaration) : (remaining tgts p d).important = d.important := by
  unfold remaining
  cases h : (d.remains tgts).filter (sets p) with
  | nil => rfl
  | cons x xs =>
    have hx : x ∈ (d.remains tgts).filter (sets p) := by simp [h]
    exact important_of_mem_remains (mem_filter.mp hx).1

lemma winner_group {inserted : List Declaration}
    (hi : ∀ x ∈ inserted, IsFallback block d x) (hp : ∃ e ∈ block, e.sets p) :
    winner important ((inserted ++ d.remains tgts).filter (sets p)) =
      if d.sets p then some (remaining tgts p d) else none := by
  -- A fallback that sets what the block sets is for the property of the declaration.
  have hsm : ∀ x ∈ inserted, x.sets p → d.sets p := by
    intro x hx hs
    rcases (hi x hx).property with hpr | hn
    · rw [← hs]
      unfold sets
      rw [hpr]
    · obtain ⟨e,he,hst⟩ := hp
      rw [hn p hs e he] at hst; cases hst
  rw [filter_append]
  rcases filter_remains tgts p d with ⟨hnl,hs⟩ | ⟨x,hx,ho,hs⟩
  · have hin : inserted.filter (sets p) = [] := by
      rw [filter_eq_nil_iff]
      intro x hx hst
      rw [hsm x hx hst] at hs; cases hs
    rw [hnl,hin,hs]; rfl
  · have hle : ∀ y ∈ inserted.filter (sets p), y.important ≤ x.important := by
      intro y hy
      rw [important_of_mem_remains hx,(hi y (mem_filter.mp hy).1).important]
    rw [ho,winner_append_of_le important hle,hs]
    unfold remaining
    rw [ho]; rfl

lemma winner_addFallbacksFrom (hp : ∃ e ∈ block, e.sets p) (rest : List Declaration) :
    winner important ((addFallbacksFrom tgts block earlier rest).filter (sets p)) =
      winner important ((rest.filter (sets p)).map (remaining tgts p)) := by
  induction rest generalizing earlier with
  | nil => rfl
  | cons d rest ih =>
    obtain ⟨inserted,hg,hi⟩ := withFallbacks_eq_append tgts block earlier d
    rw [addFallbacksFrom,hg,filter_append,winner_append,winner_group hi hp,ih]
    cases hs : d.sets p with
    | true => rw [filter_cons_of_pos hs]; rfl
    | false => rw [filter_cons_of_neg (by simp [hs])]; rfl

lemma winning_addFallbacks_eq (hp : ∃ e ∈ block, e.sets p) :
    winning p (addFallbacks tgts block) = (winning p block).map (remaining tgts p) := by
  have hr : (fun d => important (remaining tgts p d)) = important := funext important_remaining
  unfold winning addFallbacks
  rw [winner_addFallbacksFrom hp,winner_map,hr]

/-- Fallbacks take nothing away: in the order of the block each declaration becomes a group of
declarations that are as important as it is and, behind them, what remains of it, and what decides
about a property that the block sets is what remains of what decided before. -/
theorem winning_addFallbacks (targets : Targets) (block : List Declaration) :
    (∃ groups : List (List Declaration), addFallbacks targets block = groups.flatten ∧ List.Forall₂
          (fun d group => ∃ inserted, group = inserted ++ d.remains targets ∧
            ∀ x ∈ inserted, x.important = d.important)
          block groups) ∧
      ∀ p, (∃ e ∈ block, e.sets p = true) →
        ∃ d x, winning p block = some d ∧ winning p (addFallbacks targets block) = some x ∧
          x ∈ d.remains targets := by
  refine ⟨exists_groups targets block [] block, fun p hp => ?_⟩
  have hset : ∃ e, e ∈ block.filter (sets p) := by
    obtain ⟨e, he, hsets⟩ := hp
    exact ⟨e, mem_filter.mpr ⟨he, hsets⟩⟩
  obtain ⟨e, he⟩ := hset
  obtain ⟨d, hd, -⟩ := exists_winner_of_mem important he
  have hsets : d.sets p = true := (mem_filter.mp (mem_of_winner important hd)).2
  refine ⟨d, remaining targets p d, hd, ?_, ?_⟩
  · rw [winning_addFallbacks_eq hp, winning, hd]
    rfl
  · rcases filter_remains targets p d with ⟨_, hnot⟩ | ⟨x, hx, hone, _⟩
    · rw [hnot] at hsets
      cases hsets
    · rw [remaining, hone]
      exact hx

def offsetsBlock : List Declaration := [⟨.standard "inset" none,[.ident "auto"],true,⟨0,0⟩⟩,
   ⟨.standard "left" none,[.ident "inherit"],false,⟨0,12⟩⟩]

/-- The shorthand decides about the left offset, and where it is not supported its longhand does. -/
theorem winning_addFallbacks_left : let targets := Targets.none.set .safari (some (.pack 12 0 0))
    ∃ d x, winning (.standard "left" none) offsetsBlock = some d ∧
      winning (.standard "left" none) (addFallbacks targets offsetsBlock) = some x ∧
        x ∈ d.remains targets ∧ d.property = .standard "inset" none ∧
          x.property = .standard "left" none ∧ x.important = true := by
  intro targets
  obtain ⟨d, x, hd, hx, hmem⟩ :=
    (winning_addFallbacks targets offsetsBlock).2 (.standard "left" none)
      ⟨_, mem_cons_self, rfl⟩
  have hbefore : (winning (.standard "left" none) offsetsBlock).map property =
      some (.standard "inset" none) := rfl
  have hafter : (winning (.standard "left" none) (addFallbacks targets offsetsBlock)).map
      (fun x => (x.property, x.important)) = some (.standard "left" none, true) := rfl
  rw [hd, Option.map_some, Option.some.injEq] at hbefore
  rw [hx, Option.map_some, Option.some.injEq, Prod.mk.injEq] at hafter
  exact ⟨d, x, hd, hx, hmem, hbefore, hafter⟩

end Cascade
end Css
