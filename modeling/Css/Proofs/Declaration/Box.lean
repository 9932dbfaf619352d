import Css.Declaration.Minify
import Css.Proofs.Value.Parts

/-!
# Steps of minifying declarations

What each step keeps. To drop overridden declarations looks at one property at a time, and to shorten
the value of a box changes nothing that another step looks at.
-/
namespace Css
open List
namespace Value

lemma isUniversal_eq_all_parts (value : Value) : value.isUniversal = value.parts.all isUniversal := by
  rw [Bool.eq_iff_iff]
  simp only [isUniversal,all_eq_true]
  constructor
  · intro h part hp c hc
    exact h c (mem_of_mem_parts hp c hc)
  · intro h c hc
    cases hb : c.isWhitespace with
    | true =>
      cases c <;> cases hb
      rfl
    | false =>
      obtain ⟨part,hp,hm⟩ := exists_mem_parts hc hb
      exact h part hp c hm

end Value

lemma Component.isUniversal_eq_of_same {a b : Component} (h : a.same b) : a.isUniversal = b.isUniversal := by
  cases a <;> cases b <;> simp [same] at h
  case ident.ident => rw [h]
  case dimension.dimension => simp only [isUniversal,h.2]
  case color.color c d =>
    cases c <;> cases d <;> simp [BEq.beq,instBEqColor.beq] at h
    · rw [h]
    · rfl
    · rfl
  case delim.delim => rw [h]
  all_goals rfl

lemma Value.isUniversal_eq_of_same {a b : Value} (h : a.same b) : a.isUniversal = b.isUniversal := by
  unfold isUniversal
  induction a generalizing b with
  | nil =>
    cases b with
    | nil => rfl
    | cons y ys => cases h
  | cons x xs ih =>
    cases b with
    | nil => cases h
    | cons y ys =>
      simp only [same,Component.same.sameAll,Bool.and_eq_true] at h
      rw [all_cons,all_cons,Component.isUniversal_eq_of_same h.1,ih h.2]

namespace Declaration

lemma dropOverridden_sublist (ds : List Declaration) : (dropOverridden ds).Sublist ds := by
  induction ds with
  | nil => exact List.Sublist.slnil
  | cons d ds ih =>
    rw [dropOverridden]
    split
    · exact ih.cons d
    · exact ih.cons_cons d

lemma dropOverridden_dropOverridden (ds : List Declaration) : dropOverridden (dropOverridden ds) = dropOverridden ds := by
  induction ds with
  | nil => rfl
  | cons d ds ih =>
    by_cases ha : ds.any (·.overrides d)
    · rw [dropOverridden,if_pos ha,ih]
    · have hl : ¬(dropOverridden ds).any (·.overrides d) := by
        intro h
        obtain ⟨later,hm,hover⟩ := any_eq_true.mp h
        exact ha (any_eq_true.mpr ⟨later,(dropOverridden_sublist ds).subset hm,hover⟩)
      rw [dropOverridden,if_neg ha,dropOverridden,if_neg hl,ih]

lemma property_eq_of_overrides {later prev : Declaration}
    (h : later.overrides prev) : later.property = prev.property := by
  simp only [overrides,Bool.and_eq_true,beq_iff_eq] at h
  exact h.1.1

lemma filter_dropOverridden (p : Property → Bool) (ds : List Declaration) :
    (dropOverridden ds).filter (fun d => p d.property) = dropOverridden (ds.filter fun d => p d.property) := by
  induction ds with
  | nil => rfl
  | cons d ds ih =>
    by_cases hp : p d.property
    · have ha : (ds.filter fun d => p d.property).any (·.overrides d) = ds.any (·.overrides d) := by
        rw [any_filter]
        congr 1
        funext later
        cases hover : later.overrides d with
        | false => exact Bool.and_false _
        | true => rw [property_eq_of_overrides hover,hp,Bool.true_and]
      rw [filter_cons,if_pos hp,dropOverridden,dropOverridden,ha]
      by_cases hd : ds.any (·.overrides d)
      · rw [if_pos hd,if_pos hd,ih]
      · rw [if_neg hd,if_neg hd,filter_cons,if_pos hp,ih]
    · rw [filter_cons,if_neg hp,dropOverridden]
      by_cases hd : ds.any (·.overrides d)
      · rw [if_pos hd,ih]
      · rw [if_neg hd,filter_cons,if_neg hp,ih]

lemma dropOverridden_map {f : Declaration → Declaration}
    (hf : ∀ a b, (f a).overrides (f b) = a.overrides b) (ds : List Declaration) :
    dropOverridden (ds.map f) = (dropOverridden ds).map f := by
  induction ds with
  | nil => rfl
  | cons d ds ih =>
    have ha : (ds.map f).any (·.overrides (f d)) = ds.any (·.overrides d) := by
      rw [any_map]
      congr 1
      funext later
      exact hf later d
    rw [map_cons,dropOverridden,dropOverridden,ha,ih]
    split <;> rfl

lemma shortenBox_of_not_mem {d : Declaration} (h : d.property ∉ boxes) : shortenBox d = d := by
  unfold shortenBox
  rw [if_neg]
  simp [h]

lemma shortenBox_cases (d : Declaration) : shortenBox d = d ∨ ∃ parts top right bottom left,
      d.property ∈ boxes ∧ d.value.parts? = some parts ∧ fourSides? parts = some (top,right,bottom,left) ∧
          (fewestParts top right bottom left).length < parts.length ∧
            shortenBox d = { d with value := .ofParts (fewestParts top right bottom left) } := by
  unfold shortenBox
  by_cases hb : (boxes.contains d.property && !d.value.hasVariable)
  · rw [if_pos hb]
    rw [Bool.and_eq_true,contains_iff_mem] at hb
    cases hp : d.value.parts? with
    | none => exact .inl rfl
    | some parts =>
      dsimp only
      cases hsd : fourSides? parts with
      | none => exact .inl rfl
      | some found =>
        obtain ⟨top,right,bottom,left⟩ := found
        dsimp only
        by_cases hs : (fewestParts top right bottom left).length < parts.length
        · rw [if_pos hs]
          exact .inr ⟨parts,top,right,bottom,left,hb.1,rfl,hsd,hs,rfl⟩
        · rw [if_neg hs]
          exact .inl rfl
  · rw [if_neg hb]
    exact .inl rfl

lemma property_shortenBox (d : Declaration) : (shortenBox d).property = d.property := by
  rcases shortenBox_cases d with h | ⟨_,_,_,_,_,_,_,_,_,h⟩ <;> rw [h]

lemma important_shortenBox (d : Declaration) : (shortenBox d).important = d.important := by
  rcases shortenBox_cases d with h | ⟨_,_,_,_,_,_,_,_,_,h⟩ <;> rw [h]

variable {parts : List Value} {top right bottom left : Value}

lemma all_of_fourSides? (h : fourSides? parts = some (top,right,bottom,left)) (f : Value → Bool) :
    [top,right,bottom,left].all f = parts.all f := by
  unfold fourSides? at h
  split at h <;> cases h <;> simp only [all_cons,all_nil,Bool.and_true] <;> grind

lemma all_fewestParts {f : Value → Bool} (hf : ∀ {a b : Value}, a.same b → f a = f b) (top right bottom left : Value) :
    (fewestParts top right bottom left).all f = [top,right,bottom,left].all f := by
  unfold fewestParts
  by_cases hl : left.same right
  · by_cases hb : bottom.same top
    · by_cases hr : right.same top
      · simp only [hl,hb,hr,Bool.not_true,Bool.false_eq_true,if_false,all_cons,hf hl,hf hb,hf hr]
        grind
      · simp only [hl,hb,hr,Bool.not_true,Bool.not_false,Bool.false_eq_true,if_false,if_true,all_cons,hf hl,hf hb]
        grind
    · simp only [hl,hb,Bool.not_true,Bool.not_false,Bool.false_eq_true,if_false,if_true,all_cons,hf hl]
      grind
  · simp only [hl,Bool.not_false,if_true]

lemma mem_of_mem_fewestParts {part : Value} (hs : fourSides? parts = some (top,right,bottom,left))
    (hp : part ∈ fewestParts top right bottom left) : part ∈ parts := by
  have hm : part ∈ [top,right,bottom,left] := by
    unfold fewestParts at hp
    split at hp
    · exact hp
    · split at hp
      · simp only [mem_cons,not_mem_nil,or_false] at hp ⊢
        rcases hp with h | h | h <;> simp [h]
      · split at hp <;> simp only [mem_cons,not_mem_nil,or_false] at hp ⊢
        · rcases hp with h | h <;> simp [h]
        · simp [hp]
  unfold fourSides? at hs
  split at hs <;> cases hs <;> simp only [mem_cons,not_mem_nil,or_false] at hm ⊢
  all_goals grind

lemma parts?_ofParts_fewestParts {value : Value} (hpr : value.parts? = some parts)
    (hs : fourSides? parts = some (top,right,bottom,left)) :
    (Value.ofParts (fewestParts top right bottom left)).parts? = some (fewestParts top right bottom left) := by
  obtain ⟨rfl,hcm⟩ := Value.parts?_eq_some hpr
  have hm : ∀ part ∈ fewestParts top right bottom left, part ∈ value.parts := fun part => mem_of_mem_fewestParts hs
  have hsl : (fewestParts top right bottom left).flatMap Value.parts = fewestParts top right bottom left := by
    generalize fewestParts top right bottom left = fewest at hm
    induction fewest with
    | nil => rfl
    | cons part rest ih =>
      rw [flatMap_cons,Value.parts_of_mem_parts (hm part mem_cons_self),ih fun part hp => hm part (mem_cons_of_mem _ hp)]
      rfl
  rw [Value.parts?_ofParts,hsl]
  intro part hp c hc
  exact hcm c (Value.mem_of_mem_parts (hm part hp) c hc)

lemma length_fewestParts_le {top' right' bottom' left' : Value}
    (h : fourSides? (fewestParts top right bottom left) = some (top',right',bottom',left')) :
    (fewestParts top right bottom left).length ≤ (fewestParts top' right' bottom' left').length := by
  unfold fewestParts at h ⊢
  by_cases hl : left.same right
  · by_cases hb : bottom.same top
    · by_cases hr : right.same top
      · simp only [hl,hb,hr] at h ⊢
        grind
      · simp only [hl,hb,hr,fourSides?] at h ⊢
        grind
    · simp only [hl,hb,fourSides?] at h ⊢
      grind
  · simp only [hl,fourSides?] at h ⊢
    grind

lemma shortenBox_shortenBox (d : Declaration) : shortenBox (shortenBox d) = shortenBox d := by
  rcases shortenBox_cases d with h | ⟨parts,top,right,bottom,left,_,hp,hs,_,h⟩
  · rw [h,h]
  · rw [h]
    rcases shortenBox_cases { d with value := .ofParts (fewestParts top right bottom left) } with
      h' | ⟨parts',top',right',bottom',left',_,hp',hs',hsh,_⟩
    · exact h'
    · rw [parts?_ofParts_fewestParts hp hs] at hp'
      cases hp'
      have := length_fewestParts_le hs'
      omega

lemma isUniversal_shortenBox (d : Declaration) : (shortenBox d).value.isUniversal = d.value.isUniversal := by
  rcases shortenBox_cases d with h | ⟨parts,top,right,bottom,left,_,hp,hs,_,h⟩
  · rw [h]
  · have hf := (Value.parts?_eq_some (parts?_ofParts_fewestParts hp hs)).1
    rw [h,Value.isUniversal_eq_all_parts,Value.isUniversal_eq_all_parts d.value,hf,
      (Value.parts?_eq_some hp).1,all_fewestParts Value.isUniversal_eq_of_same,all_of_fourSides? hs]

lemma overrides_shortenBox (later earlier : Declaration) :
    (shortenBox later).overrides (shortenBox earlier) = later.overrides earlier := by
  unfold overrides
  simp only [property_shortenBox,important_shortenBox,isUniversal_shortenBox]

def isRelated (box : String) (d : Declaration) : Bool := Text.startsWith d.property.name box

section
variable {box : String} {d : Declaration} {ds : List Declaration} {side : String}

lemma isAnySide_of_isSide (hs : side ∈ sides) (h : d.isSide box side) : d.isAnySide box := any_eq_true.mpr ⟨side,hs,h⟩

lemma isRelated_of_isSide (h : d.isSide box side) : d.isRelated box := by
  have hp : d.property = .standard (box ++ "-" ++ side) none := beq_iff_eq.mp h
  unfold isRelated Text.startsWith
  rw [hp, isPrefixOf_iff_prefix,Property.name,String.append_assoc,String.toList_append]
  exact prefix_append _ _

lemma isRelated_of_isAnySide (h : d.isAnySide box) : d.isRelated box := by
  obtain ⟨side,_,hs⟩ := any_eq_true.mp h
  exact isRelated_of_isSide hs

lemma not_mem_boxes_of_isSide (h : d.isSide box side) : d.property ∉ boxes := by
  have hp : d.property = .standard (box ++ "-" ++ side) none := beq_iff_eq.mp h
  have hh : '-' ∈ d.property.name.toList := by
    rw [hp]
    simp [Property.name]
  intro hm
  simp only [boxes,mem_cons,not_mem_nil,or_false] at hm
  rcases hm with h | h | h <;> rw [h] at hh <;> simp [Property.name] at hh

lemma splitSides_append (box : String) (ds : List Declaration) :
    (splitSides box ds).1 ++ (splitSides box ds).2.1 ++ (splitSides box ds).2.2 = ds := by
  simp only [splitSides]
  rw [append_assoc,← reverse_append,takeWhile_append_dropWhile,reverse_reverse,takeWhile_append_dropWhile]

lemma isAnySide_of_mem_splitSides
    (h : d ∈ (splitSides box ds).1 ++ (splitSides box ds).2.2) : d.isAnySide box = false := by
  simp only [splitSides,mem_append,mem_reverse] at h
  have ho : (!d.isAnySide box) := by rcases h with h | h <;> exact all_eq_true.mp all_takeWhile d h
  exact (Bool.not_eq_true' _).mp ho

lemma filter_collapseSides (box : String) (keep : Declaration → Bool) (hb : ∀ d, keep d → d.property ≠ .standard box none)
    (hs : ∀ d, keep d → d.isAnySide box = false) (ds : List Declaration) :
    (collapseSides box ds).filter keep = ds.filter keep := by
  have ha := splitSides_append box ds
  unfold collapseSides
  split
  · rename_i top more pre first stretch post _ hsp
    rw [hsp] at ha
    simp only at ha ⊢
    split
    · have ho : ((first :: stretch).filter fun d => !d.isAnySide box).filter keep = (first :: stretch).filter keep := by
        rw [filter_filter]
        apply filter_congr
        intro d _
        cases hk : keep d with
        | false => rfl
        | true => simp [hs d hk]
      have hn : ∀ value important loc,
          (⟨.standard box none,value,important,loc⟩ :: post : List Declaration).filter keep = post.filter keep := by
        intro value important loc
        apply filter_cons_of_neg
        intro hk
        exact hb _ hk rfl
      rw [← ha,filter_append,filter_append,ho,hn,filter_append,filter_append]
    · rfl
  · rfl

/-- Whether the sides of a box are collapsed: each of them is declared once, with one part, all are as
important, and nothing else between them is about the box. -/
def collapses (box : String) (ds : List Declaration) : Bool := ((sides.mapM (onlySide? box ds)).any fun found =>
    found.all (isPlainSide (found.head?.any Declaration.important))) &&
      !(splitSides box ds).2.1.any fun d => !d.isAnySide box && d.isRelated box

lemma onlySide?_eq_some_iff : onlySide? box ds side = some d ↔ ds.filter (isSide box side) = [d] := by
  unfold onlySide?
  split
  · rename_i found heq
    rw [heq]
    simp
  · rename_i hne
    constructor
    · intro h
      cases h
    · intro h
      exact absurd h (hne d)

lemma isPlainSide_iff {important : Bool} :
    d.isPlainSide important ↔ d.important = important ∧ d.value.hasVariable = false ∧
      ∃ part, d.value.parts? = some [part] := by
  unfold isPlainSide
  rw [Bool.and_eq_true,Bool.and_eq_true,beq_iff_eq,Bool.not_eq_true',and_assoc]
  refine and_congr_right fun _ => and_congr_right fun _ => ?_
  split
  · rename_i part heq
    simp [heq]
  · rename_i hne
    constructor
    · intro h
      cases h
    · rintro ⟨part,hp⟩
      exact absurd hp (hne part)

structure Collapsed (box : String) (ds : List Declaration) (top right bottom left : Declaration)
    (location : Location) : Prop where
  onlyTop : ds.filter (isSide box "top") = [top]
  onlyRight : ds.filter (isSide box "right") = [right]
  onlyBottom : ds.filter (isSide box "bottom") = [bottom]
  onlyLeft : ds.filter (isSide box "left") = [left]
  plain : [top,right,bottom,left].all (isPlainSide top.important) = true
  alone : ∀ d ∈ (splitSides box ds).2.1, d.isAnySide box = false → d.isRelated box = false
  eq : collapseSides box ds =
    (splitSides box ds).1 ++ ((splitSides box ds).2.1.filter fun d => !d.isAnySide box) ++
      ⟨.standard box none,.ofParts ([top,right,bottom,left].map Declaration.value),
        top.important,location⟩ :: (splitSides box ds).2.2

lemma collapses_eq {top first : Declaration} {more pre stretch post : List Declaration}
    (hf : sides.mapM (onlySide? box ds) = some (top :: more))
    (hs : splitSides box ds = (pre,first :: stretch,post)) :
    collapses box ds = ((top :: more).all (isPlainSide top.important) &&
      !((first :: stretch).filter fun d => !d.isAnySide box).any fun d =>
        Text.startsWith d.property.name box) := by
  unfold collapses
  rw [hf,hs,any_filter]; rfl

lemma collapsed_of_collapses (h : collapses box ds) :
    ∃ top right bottom left location, Collapsed box ds top right bottom left location := by
  have hc := h
  simp only [collapses,Bool.and_eq_true,Bool.not_eq_true',Option.any_eq_true] at h
  obtain ⟨⟨found,hf,hp⟩,hal⟩ := h
  have hsd := hf
  simp only [sides,mapM_cons,mapM_nil,Option.bind_eq_bind,Option.bind_eq_some_iff,
    Option.pure_def,Option.some.injEq,onlySide?_eq_some_iff] at hsd
  obtain ⟨top,ht,_,⟨right,hr,_,⟨bottom,hb,_,⟨left,hl,_,rfl,rfl⟩,rfl⟩,rfl⟩,rfl⟩ := hsd
  rcases hs : splitSides box ds with ⟨pre,stretch,post⟩
  cases stretch with
  | nil =>
    -- There is a side, so the stretch of the sides is not empty.
    have hm : top ∈ ds.filter (isSide box "top") := by
      rw [ht]
      exact mem_cons_self
    obtain ⟨hin,htp⟩ := mem_filter.mp hm
    have ha := splitSides_append box ds
    rw [hs,append_nil] at ha
    have ho : top ∈ (splitSides box ds).1 ++ (splitSides box ds).2.2 := by
      rw [hs,ha]
      exact hin
    have hn := isAnySide_of_mem_splitSides ho
    rw [isAnySide_of_isSide (by decide) htp] at hn; cases hn
  | cons first stretch =>
    refine ⟨top,right,bottom,left,first.location,ht,hr,hb,hl,hp,?_,?_⟩
    · intro d hd hsi
      have hnt := any_eq_false.mp hal d hd
      simpa [hsi] using hnt
    · rw [collapses_eq hf hs] at hc
      unfold collapseSides
      rw [hf,hs]
      exact if_pos hc

lemma collapseSides_of_not_collapses (h : collapses box ds = false) : collapseSides box ds = ds := by
  unfold collapseSides
  cases hf : sides.mapM (onlySide? box ds) with
  | none => rfl
  | some found =>
    rcases hs : splitSides box ds with ⟨pre,stretch,post⟩
    cases found with
    | nil => rfl
    | cons top more =>
      cases stretch with
      | nil => rfl
      | cons first stretch =>
        rw [collapses_eq hf hs] at h
        exact if_neg (Bool.eq_false_iff.mp h)

lemma not_isAnySide_of_property (h : d.property = .standard box none) : d.isAnySide box = false := by
  unfold isAnySide
  rw [any_eq_false]
  intro side _ hs
  have heq : box = box ++ "-" ++ side := (Property.standard.inj (h.symm.trans (beq_iff_eq.mp hs))).1
  have hl := congrArg String.length heq
  rw [String.length_append,String.length_append] at hl
  have hh : "-".length = 1 := rfl
  omega

lemma isAnySide_of_mem_collapseSides (h : collapses box ds)
    (hd : d ∈ collapseSides box ds) : d.isAnySide box = false := by
  obtain ⟨top,right,bottom,left,loc,hc⟩ := collapsed_of_collapses h
  rw [hc.eq,mem_append,mem_append,mem_cons] at hd
  rcases hd with (hd | hd) | rfl | hd
  · exact isAnySide_of_mem_splitSides (mem_append_left _ hd)
  · exact (Bool.not_eq_true' _).mp (mem_filter.mp hd).2
  · exact not_isAnySide_of_property rfl
  · exact isAnySide_of_mem_splitSides (mem_append_right _ hd)

lemma not_collapses_of_forall (h : ∀ d ∈ ds, d.isAnySide box = false) : collapses box ds = false := by
  rw [Bool.eq_false_iff]
  intro hc
  obtain ⟨top,right,bottom,left,loc,hcl⟩ := collapsed_of_collapses hc
  have hm : top ∈ ds.filter (isSide box "top") := by
    rw [hcl.onlyTop]
    exact mem_cons_self
  obtain ⟨hin,hs⟩ := mem_filter.mp hm
  have hf := h top hin
  rw [isAnySide_of_isSide (by decide) hs] at hf; cases hf

lemma splitSides_filter (box : String) (ds : List Declaration) : splitSides box (ds.filter (isRelated box)) =
      ((splitSides box ds).1.filter (isRelated box),(splitSides box ds).2.1.filter (isRelated box),
        (splitSides box ds).2.2.filter (isRelated box)) := by
  have ho : (fun d : Declaration => !d.isRelated box || !d.isAnySide box) = fun d => !d.isAnySide box := by
    funext d
    cases hs : d.isAnySide box with
    | false => exact Bool.or_true _
    | true => rw [isRelated_of_isAnySide hs]; rfl
  simp only [splitSides,takeWhile_filter,dropWhile_filter,← filter_reverse,ho]

lemma onlySide?_filter (box : String) (ds : List Declaration) :
    onlySide? box (ds.filter (isRelated box)) = onlySide? box ds := by
  funext side
  have hr : ∀ d ∈ ds, (isSide box side d && isRelated box d) = isSide box side d := by
    intro d _
    cases h : isSide box side d with
    | false => rfl
    | true => exact isRelated_of_isSide h
  unfold onlySide?
  rw [filter_filter,filter_congr hr]

lemma collapses_filter (box : String) (ds : List Declaration) :
    collapses box (ds.filter (isRelated box)) = collapses box ds := by
  unfold collapses
  rw [onlySide?_filter,splitSides_filter]
  simp only [any_filter]
  congr 3
  funext d
  cases d.isRelated box <;> simp

lemma isAnySide_shortenBox (box : String) (d : Declaration) : (shortenBox d).isAnySide box = d.isAnySide box := by
  unfold isAnySide isSide
  rw [property_shortenBox]

lemma onlySide?_map_shortenBox (box : String) (ds : List Declaration) :
    onlySide? box (ds.map shortenBox) = onlySide? box ds := by
  funext side
  have hs : (ds.map shortenBox).filter (isSide box side) = ds.filter (isSide box side) := by
    induction ds with
    | nil => rfl
    | cons d ds ih =>
      rw [map_cons,filter_cons,filter_cons,ih]
      have hsd : isSide box side (shortenBox d) = isSide box side d := by
        unfold isSide
        rw [property_shortenBox]
      rw [hsd]
      by_cases h : isSide box side d
      · rw [if_pos h,if_pos h,shortenBox_of_not_mem (not_mem_boxes_of_isSide h)]
      · rw [if_neg h,if_neg h]
  unfold onlySide?
  rw [hs]

lemma collapses_map_shortenBox (box : String) (ds : List Declaration) :
    collapses box (ds.map shortenBox) = collapses box ds := by
  have ho : (fun d : Declaration => !d.isAnySide box) ∘ shortenBox = fun d => !d.isAnySide box := by
    funext d
    exact congrArg not (isAnySide_shortenBox box d)
  have hs : (splitSides box (ds.map shortenBox)).2.1 = (splitSides box ds).2.1.map shortenBox := by
    simp only [splitSides,dropWhile_map,← map_reverse,ho]
  unfold collapses
  rw [onlySide?_map_shortenBox,hs,any_map]
  congr 3
  funext d
  simp only [Function.comp_apply,isAnySide_shortenBox,isRelated,property_shortenBox]

end
end Declaration
end Css

namespace Css.Declaration
open List

structure IsMinified (ds : List Declaration) : Prop where
  kept : dropOverridden ds = ds
  margin : collapses "margin" ds = false
  padding : collapses "padding" ds = false
  short : ∀ d ∈ ds, shortenBox d = d

lemma minify_of_isMinified {ds : List Declaration} (h : IsMinified ds) : minify ds = ds := by
  unfold minify
  rw [h.kept,collapseSides_of_not_collapses h.margin,collapseSides_of_not_collapses h.padding]
  dsimp only
  rw [h.kept]
  exact (map_congr_left h.short).trans (map_id ds)

lemma not_isRelated {box other : String} {d : Declaration} (hb : box.toList.isPrefixOf other.toList = false)
    (ho : other.toList.isPrefixOf box.toList = false) (h : d.isRelated box) :
    d.isRelated other = false := by
  rw [Bool.eq_false_iff]
  intro h'
  unfold isRelated Text.startsWith at h h'
  rw [ isPrefixOf_iff_prefix] at h h'
  rcases prefix_or_prefix_of_prefix h h' with hp | hp
  · rw [← isPrefixOf_iff_prefix,hb] at hp; cases hp
  · rw [← isPrefixOf_iff_prefix,ho] at hp; cases hp

lemma filter_collapseSides_other (box other : String) (hb : box.toList.isPrefixOf other.toList = false)
    (ho : other.toList.isPrefixOf box.toList = false) (ds : List Declaration) :
    (collapseSides other ds).filter (isRelated box) = ds.filter (isRelated box) := by
  apply filter_collapseSides
  · intro d hd hp
    unfold isRelated Text.startsWith at hd
    rw [hp,Property.name,hb] at hd; cases hd
  · intro d hd
    rw [Bool.eq_false_iff]
    intro hs
    have hr := not_isRelated hb ho hd
    rw [isRelated_of_isAnySide hs] at hr; cases hr

/-- In declarations without overridden ones, the sides of a box are collapsed, while steps before and
after that leave all that is about the box, and then what is overridden is dropped. After that the
sides of the box are not collapsed again. -/
lemma not_collapses_dropOverridden {box : String} {start middle final : List Declaration}
    (hs : dropOverridden start = start)
    (hm : middle.filter (isRelated box) = start.filter (isRelated box))
    (hf : final.filter (isRelated box) = (collapseSides box middle).filter (isRelated box)) :
    collapses box (dropOverridden final) = false := by
  have hdr : ∀ ds : List Declaration, (dropOverridden ds).filter (isRelated box) =
      dropOverridden (ds.filter (isRelated box)) :=
    filter_dropOverridden fun p => Text.startsWith p.name box
  rw [← collapses_filter,hdr,hf]
  cases hc : collapses box middle with
  | true =>
    apply not_collapses_of_forall
    intro d hd
    have hmm := (mem_filter.mp ((dropOverridden_sublist _).subset hd)).1
    exact isAnySide_of_mem_collapseSides hc hmm
  | false =>
    rw [collapseSides_of_not_collapses hc,hm,← hdr,hs,← hm,collapses_filter,hc]

lemma isMinified_minify (ds : List Declaration) : IsMinified (minify ds) := by
  have hk := dropOverridden_dropOverridden ds
  have hm := filter_collapseSides_other "margin" "padding" (by decide) (by decide)
  have hp := filter_collapseSides_other "padding" "margin" (by decide) (by decide)
  unfold minify
  refine ⟨?_,?_,?_,?_⟩
  · rw [dropOverridden_map overrides_shortenBox,dropOverridden_dropOverridden]
  · rw [collapses_map_shortenBox]
    exact not_collapses_dropOverridden hk rfl (hm _)
  · rw [collapses_map_shortenBox]
    exact not_collapses_dropOverridden hk (hp _) rfl
  · intro d hd
    obtain ⟨e,_,rfl⟩ := mem_map.mp hd
    exact shortenBox_shortenBox e

/-- To minify declarations that are minified changes nothing. -/
theorem minify_minify (ds : List Declaration) : minify (minify ds) = minify ds :=
  minify_of_isMinified (isMinified_minify ds)

end Css.Declaration
