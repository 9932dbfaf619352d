import Css.Proofs.Cascade.Basic
import Css.Proofs.Declaration.Box
import Mathlib.Data.List.Basic

/-!
# The sides of boxes

Which value a side of a box gets from declarations: that of the last valid declaration for the side or
the whole box, of the important ones if there are any.
-/
namespace Css
open List

/-- Whether the value is a keyword that every property takes, but only as its whole value. -/
def Value.isCssWide : Value → Bool
  | [.ident name] =>
    ["inherit","initial","unset","revert","revert-layer"].contains (Text.lower name)
  | _ => false

namespace Declaration

inductive Side where
  | top | right | bottom | left

namespace Side

def name : Side → String
  | top => "top"
  | right => "right"
  | bottom => "bottom"
  | left => "left"

def pick {α : Type} : Side → α × α × α × α → α
  | top, found => found.1
  | right, found => found.2.1
  | bottom, found => found.2.2.1
  | left, found => found.2.2.2

lemma name_mem_sides (side : Side) : side.name ∈ sides := by cases side <;> decide

end Side

def concerns (box : String) (side : Side) (d : Declaration) : Bool :=
  d.property == .standard box none || d.isSide box side.name

/-- The values for the four sides, if the declaration is valid. Only the whole box takes several
parts, and none of them is a keyword that stands alone. -/
def allSides? (box : String) (d : Declaration) : Option (Value × Value × Value × Value) :=
  d.value.parts?.bind fun parts =>
    if parts.length != 1 && (parts.any Value.isCssWide || d.property != .standard box none) then
      none
    else fourSides? parts

def setting? (box : String) (side : Side) (d : Declaration) : Option (Bool × Value) :=
  if d.concerns box side then
    (d.allSides? box).map fun found => (d.important,(side.pick found).content)
  else none

end Declaration

namespace Cascade
open Declaration

def sideValue? (box : String) (side : Side) (ds : List Declaration) : Option (Bool × Value) :=
  winner Prod.fst (ds.filterMap (setting? box side))

end Cascade

namespace Declaration

/-! ## Keywords that stand alone -/

lemma eq_ident_of_isCssWide {value : Value} (h : value.isCssWide) : ∃ name, value = [.ident name] := by
  unfold Value.isCssWide at h
  split at h
  · exact ⟨_,rfl⟩
  · cases h

variable {a b : Value}

lemma eq_of_same_keyword (h : a.same b) (hw : a.isCssWide ∨ b.isCssWide) : a = b := by
  have hi := hw.imp eq_ident_of_isCssWide eq_ident_of_isCssWide
  cases a with
  | nil => cases b <;> simp_all [Value.same,Component.same.sameAll]
  | cons x xs =>
    cases b with
    | nil => cases h
    | cons y ys =>
      simp only [Value.same,Component.same.sameAll,Bool.and_eq_true] at h
      obtain ⟨hf,hr⟩ := h
      have hxy : x = y := by
        rcases hi with ⟨name,hi⟩ | ⟨name,hi⟩ <;> cases hi
        · cases y <;> simp_all [Component.same]
        · cases x <;> simp_all [Component.same]
      have hx : xs = ys := by
        rcases hi with ⟨name,hi⟩ | ⟨name,hi⟩ <;> cases hi
        · cases ys <;> simp_all [Component.same.sameAll]
        · cases xs <;> simp_all [Component.same.sameAll]
      rw [hxy,hx]

lemma same_iff_of_isCssWide (hb : b.isCssWide) : a.same b ↔ a = b := by
  constructor
  · intro h
    exact eq_of_same_keyword h (.inr hb)
  · rintro rfl
    obtain ⟨name,rfl⟩ := eq_ident_of_isCssWide hb
    simp [Value.same,Component.same.sameAll,Component.same]

lemma isCssWide_eq_of_same (h : a.same b) : a.isCssWide = b.isCssWide := by
  by_cases hw : a.isCssWide ∨ b.isCssWide = true
  · rw [eq_of_same_keyword h hw]
  · rw [not_or,Bool.not_eq_true,Bool.not_eq_true] at hw
    rw [hw.1,hw.2]

def repeatsKeyword (parts : List Value) : Bool :=
  parts.length != 1 && parts.any fun p => p.isCssWide && parts.all (·.same p)

def mixesKeyword (parts : List Value) : Bool := parts.any fun p => p.isCssWide && !parts.all (·.same p)

/-! ## Shorter values -/

lemma fourSides?_fewestParts (top right bottom left : Value) :
    ∃ found, fourSides? (fewestParts top right bottom left) = some found ∧
      ∀ side : Side, (side.pick found).content = (side.pick (top,right,bottom,left)).content := by
  unfold fewestParts
  by_cases hlf : left.same right
  · have hl := Value.content_eq_of_same hlf
    by_cases hbt : bottom.same top
    · have hb := Value.content_eq_of_same hbt
      by_cases hrg : right.same top
      · have hr := Value.content_eq_of_same hrg
        refine ⟨(top,top,top,top),by simp [hlf,hbt,hrg,fourSides?],?_⟩
        intro side
        cases side <;> simp only [Side.pick,hl,hb,hr]
      · refine ⟨(top,right,top,right),by simp [hlf,hbt,hrg,fourSides?],?_⟩
        intro side
        cases side <;> simp only [Side.pick,hl,hb]
    · refine ⟨(top,right,bottom,right),by simp [hlf,hbt,fourSides?],?_⟩
      intro side
      cases side <;> simp only [Side.pick,hl]
  · exact ⟨(top,right,bottom,left),by simp [hlf,fourSides?],fun _ => rfl⟩

variable {top right bottom left : Value}

lemma same_of_length_fewestParts (h : (fewestParts top right bottom left).length = 1) :
    left.same right ∧ bottom.same top ∧ right.same top := by
  unfold fewestParts at h
  by_cases hl : left.same right
  · by_cases hb : bottom.same top
    · by_cases hr : right.same top
      · exact ⟨hl,hb,hr⟩
      · simp [hl,hb,hr] at h
    · simp [hl,hb] at h
  · simp [hl] at h

lemma any_isCssWide_fewestParts {ps : List Value} (hs : fourSides? ps = some (top,right,bottom,left)) :
    (fewestParts top right bottom left).any Value.isCssWide = ps.any Value.isCssWide := by
  have hn : ∀ {a b : Value}, a.same b → (!a.isCssWide) = !b.isCssWide := fun h => congrArg not (isCssWide_eq_of_same h)
  rw [any_eq_not_all_not,any_eq_not_all_not,all_fewestParts (f := fun p => !p.isCssWide) hn,all_of_fourSides? hs]

lemma length_fewestParts_pos (top right bottom left : Value) : 0 < (fewestParts top right bottom left).length := by
  unfold fewestParts
  split
  · exact Nat.zero_lt_succ _
  · split
    · exact Nat.zero_lt_succ _
    · split <;> exact Nat.zero_lt_succ _

lemma repeatsKeyword_of_length_fewestParts {parts : List Value}
    (hs : fourSides? parts = some (top,right,bottom,left)) (hk : parts.any Value.isCssWide)
    (ho : (fewestParts top right bottom left).length = 1)
    (hsh : (fewestParts top right bottom left).length < parts.length) :
    repeatsKeyword parts := by
  obtain ⟨hl,hb,hr⟩ := same_of_length_fewestParts ho
  have hf : fewestParts top right bottom left = [top] := by simp [fewestParts,hl,hb,hr]
  have ht : top.isCssWide := by
    rw [← any_isCssWide_fewestParts hs,hf] at hk
    simpa using hk
  have hm : top ∈ parts := by
    apply mem_of_mem_fewestParts hs
    rw [hf]
    exact mem_cons_self
  have hr' := (same_iff_of_isCssWide ht).mp hr
  subst hr'
  have ha : parts.all (·.same right) := by
    rw [← all_of_fourSides? hs]
    simp [hl,hb,hr]
  have hln : parts.length ≠ 1 := by omega
  unfold repeatsKeyword
  rw [Bool.and_eq_true,any_eq_true]
  exact ⟨by simpa using hln,right,hm,by rw [ht,ha]; rfl⟩

lemma concerns_shortenBox (box : String) (side : Side) (d : Declaration) :
    (shortenBox d).concerns box side = d.concerns box side := by
  unfold concerns isSide
  rw [property_shortenBox]

/-- To shorten a value changes neither what it says nor whether it is valid, unless it is a keyword
several times. -/
lemma setting?_shortenBox {box : String} (side : Side) {d : Declaration}
    (hsn : d.property = .standard box none → repeatsKeyword d.value.parts = false) :
    (shortenBox d).setting? box side = d.setting? box side := by
  rcases shortenBox_cases d with
    h | ⟨parts,top,right,bottom,left,hm,hp,hs,hsh,h⟩
  · rw [h]
  unfold setting?
  rw [concerns_shortenBox]
  by_cases hc : d.concerns box side
  · have hpr : d.property = .standard box none := by
      rcases (Bool.or_eq_true _ _).mp hc with hb | hsd
      · exact beq_iff_eq.mp hb
      · exact absurd hm (not_mem_boxes_of_isSide hsd)
    obtain ⟨found,hf,hcn⟩ := fourSides?_fewestParts top right bottom left
    have hw := any_isCssWide_fewestParts hs
    rw [if_pos hc,if_pos hc,h]
    unfold allSides?
    dsimp only
    rw [parts?_ofParts_fewestParts hp hs,hp,Option.bind_some,Option.bind_some,hw,hf,hs]
    cases hk : parts.any Value.isCssWide with
    | false => simp [hpr,hcn]
    | true =>
      -- Several parts with such a keyword are not valid, and no single part is made of them.
      have hmr : (fewestParts top right bottom left).length ≠ 1 := by
        intro ho
        have hr := repeatsKeyword_of_length_fewestParts hs hk ho hsh
        rw [← (Value.parts?_eq_some hp).1,hsn hpr] at hr; cases hr
      have hsv : parts.length ≠ 1 := by
        have hps := length_fewestParts_pos top right bottom left
        omega
      simp [hmr,hsv]
  · rw [if_neg hc,if_neg hc]

/-! ## Collapsed sides -/

section
variable {box : String} {d : Declaration} {ds : List Declaration}

lemma eq_of_not_mixesKeyword {ps : List Value} (h : mixesKeyword ps = false)
    {p q : Value} (hp : p ∈ ps) (hw : p.isCssWide) (hq : q ∈ ps) : q = p := by
  have ha := any_eq_false.mp h p hp
  rw [hw,Bool.true_and,Bool.not_eq_true',Bool.not_eq_false,all_eq_true] at ha
  exact (same_iff_of_isCssWide hw).mp (ha q hq)

variable {side : Side}

lemma setting?_of_isSide {part : Value} (hs : d.isSide box side.name) (hp : d.value.parts? = some [part]) :
    d.setting? box side = some (d.important,part.content) := by
  unfold setting? concerns allSides?
  rw [hs,hp]
  cases side <;> simp [fourSides?,Side.pick]

lemma setting?_collapsed (hb : .standard box none ∈ boxes)
    (hpy : d.property = .standard box none) (hv : d.value.hasVariable = false)
    {top right bottom left : Value} (hpr : d.value.parts? = some [top,right,bottom,left])
    (hm : mixesKeyword [top,right,bottom,left] = false) (side : Side) :
    (shortenBox d).setting? box side = some (d.important,(side.pick (top,right,bottom,left)).content) := by
  by_cases hk : [top,right,bottom,left].any Value.isCssWide
  · -- One keyword four times becomes valid when it is shortened.
    obtain ⟨p,hp,hw⟩ := any_eq_true.mp hk
    have heq : ∀ q ∈ [top,right,bottom,left], q = p := fun q hq => eq_of_not_mixesKeyword hm hp hw hq
    simp only [mem_cons,not_mem_nil,or_false,forall_eq_or_imp,forall_eq] at heq
    obtain ⟨ht,hr,hbt,hl⟩ := heq
    rw [ht,hr,hbt,hl] at hpr ⊢
    have hs := (same_iff_of_isCssWide hw).mpr rfl
    have hf : fewestParts p p p p = [p] := by simp [fewestParts,hs]
    have hsh : shortenBox d = { d with value := .ofParts [p] } := by
      unfold shortenBox
      rw [if_pos (by simp [hpy,hb,hv]),hpr]
      simp [fourSides?,hf]
    have hpa := parts?_ofParts_fewestParts hpr rfl
    rw [hf] at hpa
    rw [hsh]
    unfold setting? concerns allSides?
    dsimp only
    rw [hpy,hpa]
    cases side <;> simp [fourSides?,Side.pick]
  · have hn := Bool.eq_false_iff.mpr hk
    have hrp : repeatsKeyword d.value.parts = false := by
      rw [(Value.parts?_eq_some hpr).1]
      unfold repeatsKeyword
      rw [Bool.and_eq_false_iff,any_eq_false]
      right
      intro p hp
      have := any_eq_false.mp hn p hp
      simp [Bool.eq_false_iff.mpr this]
    rw [setting?_shortenBox side fun _ => hrp]
    unfold setting? concerns allSides?
    rw [hpy,hpr,Option.bind_some,hn]
    simp [fourSides?]

lemma isRelated_of_property (h : d.property = .standard box none) : d.isRelated box := by
  unfold isRelated Text.startsWith
  rw [h]
  exact isPrefixOf_iff_prefix.mpr (prefix_refl _)

lemma isRelated_of_concerns (h : d.concerns box side) : d.isRelated box := by
  rcases (Bool.or_eq_true _ _).mp h with hb | hs
  · exact isRelated_of_property (beq_iff_eq.mp hb)
  · exact isRelated_of_isAnySide (isAnySide_of_isSide side.name_mem_sides hs)

lemma setting?_eq_none (h : d.concerns box side = false) : d.setting? box side = none := by
  unfold setting?
  rw [h]; rfl

variable {top right bottom left : Declaration} {location : Location}

lemma Collapsed.only (h : Collapsed box ds top right bottom left location) (side : Side) :
    ds.filter (isSide box side.name) = [side.pick (top,right,bottom,left)] := by
  cases side with
  | top => exact h.onlyTop
  | right => exact h.onlyRight
  | bottom => exact h.onlyBottom
  | left => exact h.onlyLeft

lemma Collapsed.filterMap_stretch (h : Collapsed box ds top right bottom left location) (side : Side) :
    ((splitSides box ds).2.1.map shortenBox).filterMap (setting? box side) =
      [side.pick (top,right,bottom,left)].filterMap (setting? box side) := by
  have ho : ∀ d ∈ (splitSides box ds).1 ++ (splitSides box ds).2.2, ¬isSide box side.name d := by
    intro d hd hs
    have hn := isAnySide_of_mem_splitSides hd
    rw [isAnySide_of_isSide side.name_mem_sides hs] at hn; cases hn
  have hb : (splitSides box ds).1.filter (isSide box side.name) = [] :=
    filter_eq_nil_iff.mpr fun d hd => ho d (mem_append_left _ hd)
  have ha : (splitSides box ds).2.2.filter (isSide box side.name) = [] :=
    filter_eq_nil_iff.mpr fun d hd => ho d (mem_append_right _ hd)
  have hon := congrArg (List.filter (isSide box side.name)) (splitSides_append box ds)
  rw [filter_append,filter_append,hb,ha,nil_append,append_nil,h.only side] at hon
  rw [← hon,filterMap_map,filterMap_filter]
  apply filterMap_congr
  intro d hd
  by_cases hs : isSide box side.name d
  · rw [if_pos hs,Function.comp_apply,shortenBox_of_not_mem (not_mem_boxes_of_isSide hs)]
  · rw [if_neg hs,Function.comp_apply]
    apply setting?_eq_none
    rw [concerns_shortenBox,Bool.eq_false_iff]
    intro hc
    have hp : d.property = .standard box none := by
      rcases (Bool.or_eq_true _ _).mp hc with hbx | h'
      · exact beq_iff_eq.mp hbx
      · exact absurd h' hs
    have hr := h.alone d hd (not_isAnySide_of_property hp)
    rw [isRelated_of_property hp] at hr; cases hr

lemma Collapsed.filterMap_others (h : Collapsed box ds top right bottom left location) (side : Side) :
    (((splitSides box ds).2.1.filter fun d => !d.isAnySide box).map shortenBox).filterMap (setting? box side) = [] := by
  rw [filterMap_eq_nil_iff]
  intro d hd
  obtain ⟨e,he,rfl⟩ := mem_map.mp hd
  obtain ⟨hm,ho⟩ := mem_filter.mp he
  apply setting?_eq_none
  rw [concerns_shortenBox,Bool.eq_false_iff]
  intro hc
  have hr := h.alone e hm ((Bool.not_eq_true' _).mp ho)
  rw [isRelated_of_concerns hc] at hr; cases hr

lemma Collapsed.exists_parts (h : Collapsed box ds top right bottom left location) :
    ∃ ps : Value × Value × Value × Value, ∀ side : Side, (side.pick (top,right,bottom,left)).important = top.important ∧
        (side.pick (top,right,bottom,left)).value.hasVariable = false ∧
          (side.pick (top,right,bottom,left)).value.parts? = some [side.pick ps] := by
  have hp : ∀ e ∈ [top,right,bottom,left], e.important = top.important ∧
      e.value.hasVariable = false ∧ ∃ part, e.value.parts? = some [part] :=
    fun e he => isPlainSide_iff.mp (all_eq_true.mp h.plain e he)
  obtain ⟨himportant₁,hvariable₁,p₁,hp₁⟩ := hp top (by simp)
  obtain ⟨himportant₂,hvariable₂,p₂,hp₂⟩ := hp right (by simp)
  obtain ⟨himportant₃,hvariable₃,p₃,hp₃⟩ := hp bottom (by simp)
  obtain ⟨himportant₄,hvariable₄,p₄,hp₄⟩ := hp left (by simp)
  refine ⟨(p₁,p₂,p₃,p₄),?_⟩
  intro side
  cases side with
  | top => exact ⟨himportant₁,hvariable₁,hp₁⟩
  | right => exact ⟨himportant₂,hvariable₂,hp₂⟩
  | bottom => exact ⟨himportant₃,hvariable₃,hp₃⟩
  | left => exact ⟨himportant₄,hvariable₄,hp₄⟩

lemma Collapsed.mem (h : Collapsed box ds top right bottom left location) (side : Side) :
    side.pick (top,right,bottom,left) ∈ ds ∧ isSide box side.name (side.pick (top,right,bottom,left)) := by
  rw [← mem_filter,h.only side]
  exact mem_cons_self

def mixesSides (box : String) (ds : List Declaration) : Bool :=
  mixesKeyword ((ds.filter (isAnySide box)).flatMap fun d => d.value.parts)

lemma mixesKeyword_of_subset {ps qs : List Value} (hs : ∀ p ∈ ps, p ∈ qs)
    (h : mixesKeyword qs = false) : mixesKeyword ps = false := by
  unfold mixesKeyword
  rw [any_eq_false]
  intro p hp hm
  rw [Bool.and_eq_true,Bool.not_eq_true'] at hm
  have ha : ps.all (·.same p) := by
    rw [all_eq_true]
    intro q hq
    rw [same_iff_of_isCssWide hm.1]
    exact eq_of_not_mixesKeyword h (hs p hp) hm.1 (hs q hq)
  rw [ha] at hm
  cases hm.2

lemma Collapsed.setting?_eq (h : Collapsed box ds top right bottom left location)
    (hbx : .standard box none ∈ boxes) (hm : mixesSides box ds = false) (side : Side) :
    (shortenBox ⟨.standard box none,.ofParts ([top,right,bottom,left].map Declaration.value),
        top.important,location⟩).setting? box side =
      (side.pick (top,right,bottom,left)).setting? box side := by
  obtain ⟨⟨p₁,p₂,p₃,p₄⟩,hpr⟩ := h.exists_parts
  have he : ∀ value ∈ [top,right,bottom,left].map Declaration.value, ∃ side : Side,
      value = (side.pick (top,right,bottom,left)).value := by
    intro value hv
    simp only [map_cons,map_nil,mem_cons,not_mem_nil,or_false] at hv
    rcases hv with rfl | rfl | rfl | rfl
    · exact ⟨.top,rfl⟩
    · exact ⟨.right,rfl⟩
    · exact ⟨.bottom,rfl⟩
    · exact ⟨.left,rfl⟩
  have hvr := Value.hasVariable_ofParts fun value hv => by
    obtain ⟨side,rfl⟩ := he value hv
    exact (hpr side).2.1
  have hf : (Value.ofParts ([top,right,bottom,left].map Declaration.value)).parts? = some [p₁,p₂,p₃,p₄] := by
    rw [Value.parts?_ofParts]
    · have hs := fun side => (Value.parts?_eq_some (hpr side).2.2).1
      have ht := hs .top
      have hr := hs .right
      have hb := hs .bottom
      have hl := hs .left
      simp only [Side.pick] at ht hr hb hl
      simp [ht,hr,hb,hl]
    · intro value hv
      obtain ⟨side,rfl⟩ := he value hv
      exact (Value.parts?_eq_some (hpr side).2.2).2
  have hu : mixesKeyword [p₁,p₂,p₃,p₄] = false := by
    apply mixesKeyword_of_subset ?_ hm
    have hin : ∀ side : Side, side.pick (p₁,p₂,p₃,p₄) ∈ (ds.filter (isAnySide box)).flatMap fun d => d.value.parts := by
      intro side
      obtain ⟨hmm,hsd⟩ := h.mem side
      have ha := isAnySide_of_isSide side.name_mem_sides hsd
      refine mem_flatMap.mpr ⟨_,mem_filter.mpr ⟨hmm,ha⟩,?_⟩
      rw [(Value.parts?_eq_some (hpr side).2.2).1]
      exact mem_cons_self
    intro p hp
    simp only [mem_cons,not_mem_nil,or_false] at hp
    rcases hp with rfl | rfl | rfl | rfl
    · exact hin .top
    · exact hin .right
    · exact hin .bottom
    · exact hin .left
  rw [setting?_collapsed hbx rfl hvr hf hu side,setting?_of_isSide (h.mem side).2 (hpr side).2.2,(hpr side).1]

/-- Where the sides of a box are collapsed, nothing else is said about a side than before. -/
lemma filterMap_setting?_collapseSides (hb : .standard box none ∈ boxes)
    (hm : collapses box ds → mixesSides box ds = false) (side : Side) :
    ((collapseSides box ds).map shortenBox).filterMap (setting? box side) =
      (ds.map shortenBox).filterMap (setting? box side) := by
  cases hc : collapses box ds with
  | false => rw [collapseSides_of_not_collapses hc]
  | true =>
    obtain ⟨top,right,bottom,left,location,h⟩ := collapsed_of_collapses hc
    have hn := h.setting?_eq hb (hm hc) side
    have ho : (ds.map shortenBox).filterMap (setting? box side) =
        ((splitSides box ds).1.map shortenBox).filterMap (setting? box side) ++
          ((splitSides box ds).2.1.map shortenBox).filterMap (setting? box side) ++
            ((splitSides box ds).2.2.map shortenBox).filterMap (setting? box side) := by
      rw [← filterMap_append,← filterMap_append,← map_append,← map_append,splitSides_append]
    rw [ho,h.eq,h.filterMap_stretch side,map_append,map_append,map_cons,
      filterMap_append,filterMap_append,h.filterMap_others side]
    simp only [filterMap_cons,filterMap_nil,hn]
    cases setting? box side (side.pick (top,right,bottom,left)) <;> simp

lemma isSome_setting?_of_mem_collapseSides (hb : .standard box none ∈ boxes)
    (hm : collapses box ds → mixesSides box ds = false) (side : Side)
    (hd : d ∈ collapseSides box ds) :
    d ∈ ds ∨ ((shortenBox d).setting? box side).isSome := by
  cases hc : collapses box ds with
  | false =>
    rw [collapseSides_of_not_collapses hc] at hd
    exact .inl hd
  | true =>
    obtain ⟨top,right,bottom,left,location,h⟩ := collapsed_of_collapses hc
    rw [h.eq,mem_append,mem_append,mem_cons] at hd
    rw [← splitSides_append box ds,mem_append,mem_append]
    rcases hd with (hd | hd) | rfl | hd
    · exact .inl (.inl (.inl hd))
    · exact .inl (.inl (.inr (mem_filter.mp hd).1))
    · obtain ⟨ps,hp⟩ := h.exists_parts
      rw [h.setting?_eq hb (hm hc) side,setting?_of_isSide (h.mem side).2 (hp side).2.2]
      exact .inr rfl
    · exact .inl (.inr hd)

end

/-! ## What is said about a side -/

section
variable {box : String} (side : Side) (ds : List Declaration)

lemma filterMap_setting?_filter : ((ds.filter (isRelated box)).map shortenBox).filterMap (setting? box side) =
      (ds.map shortenBox).filterMap (setting? box side) := by
  rw [filterMap_map,filterMap_map,filterMap_filter]
  apply filterMap_congr
  intro d _
  by_cases hr : d.isRelated box
  · rw [if_pos hr]
  · have hc : d.concerns box side = false := by
      rw [Bool.eq_false_iff]
      exact fun h => hr (isRelated_of_concerns h)
    rw [if_neg hr,Function.comp_apply,setting?_eq_none]
    rw [concerns_shortenBox,hc]

lemma mixesSides_filter : mixesSides box (ds.filter (isRelated box)) = mixesSides box ds := by
  unfold mixesSides
  rw [filter_filter]
  congr 2
  apply filter_congr
  intro d _
  cases hs : d.isAnySide box with
  | false => rfl
  | true => exact isRelated_of_isAnySide hs

end
end Declaration

namespace Cascade
open Declaration
variable {box : String} {side : Side} {d : Declaration}

lemma fst_of_setting? {x : Bool × Value} (h : d.setting? box side = some x) : x.1 = d.important := by
  unfold setting? at h
  split at h
  · obtain ⟨found,_,rfl⟩ := Option.map_eq_some_iff.mp h
    rfl
  · cases h

lemma exists_setting_of_overrides {later : Declaration} {x : Bool × Value}
    (hover : later.overrides d) (hs : d.setting? box side = some x)
    (hv : later.concerns box side → later.value.isUniversal → (later.setting? box side).isSome) :
    ∃ y, later.setting? box side = some y ∧ x.1 ≤ y.1 := by
  have hp := property_eq_of_overrides hover
  have hc : d.concerns box side := by
    by_contra hn
    rw [setting?,if_neg hn] at hs; cases hs
  have hl : later.concerns box side := by
    unfold concerns isSide at hc ⊢
    rw [hp]
    exact hc
  simp only [overrides,Bool.and_eq_true,Bool.or_eq_true,Bool.not_eq_true'] at hover
  obtain ⟨⟨_,hi⟩,hcs | hu⟩ := hover
  · rcases (Bool.or_eq_true _ _).mp hl with h | h <;>
      rw [show later.property = _ from beq_iff_eq.mp h] at hcs <;> cases hcs
  · obtain ⟨y,hy⟩ := Option.isSome_iff_exists.mp (hv hl hu)
    refine ⟨y,hy,?_⟩
    rw [fst_of_setting? hs,fst_of_setting? hy]
    rcases hi with h | h
    · rw [h]
      exact Bool.le_true _
    · rw [h]
      exact Bool.false_le _

/-- What is dropped as overridden says nothing about a side that counts, if what overrides it is
valid. -/
lemma sideValue?_dropOverridden {ds : List Declaration}
    (hv : ∀ d ∈ ds, d.concerns box side → d.value.isUniversal → (d.setting? box side).isSome) :
    sideValue? box side (dropOverridden ds) = sideValue? box side ds := by
  unfold sideValue?
  induction ds with
  | nil => rfl
  | cons d ds ih =>
    have ih := ih fun e he => hv e (mem_cons_of_mem d he)
    by_cases ha : ds.any (·.overrides d)
    · rw [dropOverridden,if_pos ha,ih]
      cases hs : d.setting? box side with
      | none => rw [filterMap_cons_none hs]
      | some x =>
        obtain ⟨later,hm,hover⟩ := any_eq_true.mp ha
        obtain ⟨y,hy,hle⟩ := exists_setting_of_overrides hover hs (hv later (mem_cons_of_mem d hm))
        rw [filterMap_cons_some hs]
        exact (winner_cons_of_le Prod.fst (mem_filterMap.mpr ⟨later,hm,hy⟩) hle).symm
    · rw [dropOverridden,if_neg ha]
      cases hs : d.setting? box side with
      | none => rw [filterMap_cons_none hs,filterMap_cons_none hs,ih]
      | some x =>
        rw [filterMap_cons_some hs,filterMap_cons_some hs,winner,winner,ih]

structure KeepsSides (box : String) (ds : List Declaration) : Prop where
  valid : ∀ d ∈ ds, (d.property == .standard box none || d.isAnySide box) = true →
    d.value.isUniversal = true → (d.allSides? box).isSome = true
  single : ∀ d ∈ ds, d.property = .standard box none → repeatsKeyword d.value.parts = false
  /-- No keyword that should stand alone is put beside other values when the sides are collapsed. -/
  unmixed : collapses box (dropOverridden ds) = true → mixesSides box (dropOverridden ds) = false

lemma isSome_setting?_of_isSome (hc : d.concerns box side) (h : (d.allSides? box).isSome) :
    (d.setting? box side).isSome := by
  unfold setting?
  rw [if_pos hc,Option.isSome_map]
  exact h

/-- A box keeps its sides, if other steps before and after its sides are collapsed leave all that is
about it. -/
lemma sideValue?_steps (hb : .standard box none ∈ boxes)
    {ds middle final : List Declaration} (h : KeepsSides box ds)
    (hm : middle.filter (isRelated box) = (dropOverridden ds).filter (isRelated box))
    (hf : final.filter (isRelated box) = (collapseSides box middle).filter (isRelated box)) :
    sideValue? box side ((dropOverridden final).map shortenBox) = sideValue? box side ds := by
  have hs : ∀ d ∈ dropOverridden ds, d ∈ ds := fun d hd => (dropOverridden_sublist ds).subset hd
  have hmx : collapses box middle → mixesSides box middle = false := by
    rw [← collapses_filter,← mixesSides_filter,hm,collapses_filter,mixesSides_filter]
    exact h.unmixed
  have hv : ∀ d ∈ ds, d.concerns box side → d.value.isUniversal → (d.setting? box side).isSome := by
    intro d hd hc hu
    apply isSome_setting?_of_isSome hc
    apply h.valid d hd ?_ hu
    unfold concerns at hc
    rw [Bool.or_eq_true] at hc ⊢
    exact hc.imp id (isAnySide_of_isSide side.name_mem_sides)
  have hst : (final.map shortenBox).filterMap (setting? box side) =
      (dropOverridden ds).filterMap (setting? box side) := by
    calc (final.map shortenBox).filterMap (setting? box side)
        = ((collapseSides box middle).map shortenBox).filterMap (setting? box side) := by
          rw [← filterMap_setting?_filter,hf,filterMap_setting?_filter]
      _ = (middle.map shortenBox).filterMap (setting? box side) := filterMap_setting?_collapseSides hb hmx side
      _ = ((dropOverridden ds).map shortenBox).filterMap (setting? box side) := by
          rw [← filterMap_setting?_filter,hm,filterMap_setting?_filter]
      _ = (dropOverridden ds).filterMap (setting? box side) := by
          rw [filterMap_map]
          apply filterMap_congr
          intro d hd
          exact setting?_shortenBox side (h.single d (hs d hd))
  have hsh : ∀ d ∈ final.map shortenBox, d.concerns box side →
      d.value.isUniversal → (d.setting? box side).isSome := by
    intro e he hc hu
    obtain ⟨d,hd,rfl⟩ := mem_map.mp he
    rw [concerns_shortenBox] at hc
    rw [isUniversal_shortenBox] at hu
    have hr := isRelated_of_concerns hc
    have hmm : d ∈ (collapseSides box middle).filter (isRelated box) := by
      rw [← hf]
      exact mem_filter.mpr ⟨hd,hr⟩
    rcases isSome_setting?_of_mem_collapseSides hb hmx side (mem_filter.mp hmm).1 with
      hin | hsm
    · have hfr : d ∈ (dropOverridden ds).filter (isRelated box) := by
        rw [← hm]
        exact mem_filter.mpr ⟨hin,hr⟩
      have hds := hs d (mem_filter.mp hfr).1
      rw [setting?_shortenBox side (h.single d hds)]
      exact hv d hds hc hu
    · exact hsm
  rw [← dropOverridden_map overrides_shortenBox,sideValue?_dropOverridden hsh,sideValue?,hst]
  exact sideValue?_dropOverridden hv

/-- Minified declarations give the sides of a box the values that the declarations give them. -/
theorem sideValue?_minify {box : String} (hbox : box = "margin" ∨ box = "padding")
    {ds : List Declaration} (h : KeepsSides box ds) (side : Side) :
    sideValue? box side (minify ds) = sideValue? box side ds := by
  have hmargin := filter_collapseSides_other "margin" "padding" (by decide) (by decide)
  have hpadding := filter_collapseSides_other "padding" "margin" (by decide) (by decide)
  unfold minify
  rcases hbox with rfl | rfl
  · exact sideValue?_steps (by decide) h rfl (hmargin _)
  · exact sideValue?_steps (by decide) h (hpadding _) rfl

def wordsFor (name : String) (words : List String) : Declaration :=
  ⟨.standard name none,.ofParts (words.map fun word => [.ident word]),false,⟨0,0⟩⟩

/-- Of `margin:inherit;margin-left:auto;margin-top:none;color:red;margin-right:auto;
margin-bottom:none` a color is left and `margin:none auto`. -/
theorem sideValue?_minify_collapsed :
    let ds := [wordsFor "margin" ["inherit"], wordsFor "margin-left" ["auto"],
      wordsFor "margin-top" ["none"], wordsFor "color" ["red"], wordsFor "margin-right" ["auto"],
      wordsFor "margin-bottom" ["none"]]
    KeepsSides "margin" ds ∧ (minify ds).length = 2 ∧
      ∀ side, sideValue? "margin" side (minify ds) = sideValue? "margin" side ds := by
  intro ds
  have h : KeepsSides "margin" ds := ⟨by decide +kernel, by decide +kernel, by decide +kernel⟩
  exact ⟨h, by decide +kernel, sideValue?_minify (Or.inl rfl) h⟩

/-- Collapsed sides with a keyword that should stand alone are lost, an invalid declaration takes
the place of a valid one, and an invalid one becomes valid. -/
theorem sideValue?_minify_validity :
    let mixed := [wordsFor "margin-top" ["inherit"], wordsFor "margin-right" ["auto"],
      wordsFor "margin-bottom" ["auto"], wordsFor "margin-left" ["auto"]]
    let several := [wordsFor "margin" ["auto"],
      wordsFor "margin" ["auto", "auto", "auto", "auto", "auto"]]
    let twice := [wordsFor "margin" ["initial", "initial"]]
    (sideValue? "margin" .top mixed).isSome = true ∧
      (sideValue? "margin" .top (minify mixed)).isSome = false ∧
        (sideValue? "margin" .top several).isSome = true ∧
          (sideValue? "margin" .top (minify several)).isSome = false ∧
            (sideValue? "margin" .top twice).isSome = false ∧
              (sideValue? "margin" .top (minify twice)).isSome = true := by
  decide +kernel

end Cascade
end Css
